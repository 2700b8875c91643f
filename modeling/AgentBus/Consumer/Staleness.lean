import AgentBus.Consumer.Flusher
import AgentBus.Lib.Machine
import Mathlib.Data.List.Chain

/-!
# How long an offset waits for the file

`flushLoop` of `internal/consumer/manager.go` in discrete time: the flusher takes every signal at
once and every expiry of its timer when it is due, and a save succeeds immediately.  A signal stops
the timer and starts it again, so commits that follow each other closely put the save off for as
long as they go on (`offset_stale`).

An offset is in the file within twice the interval of the timer if the commits pause for an interval
soon enough after it (`flushed_after_pause`).  The commits that are not in the file follow each
other within the interval, and the timer is due an interval after the last of them
(`TimedManager.Debounced`).  What happens in time is one of the orders in which the commits and the
flusher can take their steps (`TimedManager.reach_untimed`).

## Main definitions

* `TimedManager`, `TimedStep`, `TimedManager.step` — the manager with its clock.
-/

namespace AgentBus.Consumer

/-- `defaultFlushInterval`, in milliseconds. -/
def defaultFlushInterval : ℕ := 50

/-- A commit and when it was made. -/
structure Commit where
  time : ℕ
  position : Position
  offset : Int64
  deriving DecidableEq, Repr

/-- What a commit does to the offsets. -/
def Commit.entry (c : Commit) : Position × Int64 := (c.position, c.offset)

/-- A manager with a file, the time at which its timer is due, and the commits so far. -/
structure TimedManager where
  now : ℕ
  mem : Manager
  file : Manager
  dirty : Bool
  due : ℕ
  commits : List Commit

inductive TimedStep where
  /-- `CommitPartition`, whose signal is taken at once. -/
  | commit (p : Position) (offset : Int64)
  /-- The timer expires. -/
  | expire
  /-- Time passes; an expiry is not put off. -/
  | wait

/-- `NewManagerWithPath` on a file with these offsets. -/
def newTimedManager (flushEvery : ℕ) (file : Manager) : TimedManager where
  now := 0
  mem := file
  file := file
  dirty := false
  due := flushEvery
  commits := []

namespace TimedManager

/-- A step.  At the time of an expiry a commit may come before it or after it. -/
def step (flushEvery : ℕ) (s : TimedManager) : TimedStep → Option TimedManager
  | .commit p offset =>
    some
      { s with
        mem := s.mem.commitPartition p offset
        dirty := true
        due := s.now + flushEvery
        commits := s.commits ++ [⟨s.now, p, offset⟩] }
  | .expire =>
    if s.now = s.due then
      some
        { s with
          file := if s.dirty then s.mem else s.file
          dirty := false
          due := s.now + flushEvery }
    else none
  | .wait => if s.now < s.due then some { s with now := s.now + 1 } else none

/-- The commits that are in the file and those that are not: each of these came within the interval
after the one before it, and the timer is due an interval after the last. -/
structure Debounced (flushEvery : ℕ) (start : Manager) (s : TimedManager)
    (flushed pending : List Commit) : Prop where
  commits : s.commits = flushed ++ pending
  mem : s.mem = start.commitAll (s.commits.map Commit.entry)
  file : s.file = start.commitAll (flushed.map Commit.entry)
  clean : s.dirty = false → pending = []
  close : pending.IsChain fun c c' => c'.time ≤ c.time + flushEvery
  due : ∀ c ∈ pending.getLast?, s.due = c.time + flushEvery
  now_le : s.now ≤ s.due

variable {flushEvery : ℕ} {start : Manager} {s s' : TimedManager} {flushed pending : List Commit}

theorem debounced_new (flushEvery : ℕ) (start : Manager) :
    (newTimedManager flushEvery start).Debounced flushEvery start [] [] :=
  ⟨rfl, rfl, rfl, fun _ => rfl, .nil, by simp, Nat.zero_le _⟩

theorem Debounced.step (h : s.Debounced flushEvery start flushed pending) {e : TimedStep}
    (hstep : s.step flushEvery e = some s') :
    ∃ flushed' pending', s'.Debounced flushEvery start flushed' pending' := by
  obtain ⟨hcommits, hmem, hfile, hclean, hclose, hdue, hnow⟩ := h
  cases e with
  | commit p offset =>
    cases hstep
    refine ⟨flushed, pending ++ [⟨s.now, p, offset⟩], by simp [hcommits], ?_, hfile,
      (nomatch ·), ?_, by simp, Nat.le_add_right _ _⟩
    · simp [hmem, Manager.commitAll, Commit.entry]
    · -- the timer has not run out since the last commit
      refine hclose.append (.singleton _) fun c hc c' hc' => ?_
      obtain rfl := Option.mem_some_iff.mp hc'
      exact hnow.trans (hdue c hc).le
  | expire =>
    simp only [TimedManager.step] at hstep
    split at hstep <;> cases hstep
    refine ⟨s.commits, [], by simp, hmem, ?_, fun _ => rfl, .nil, by simp, Nat.le_add_right _ _⟩
    cases hdirty : s.dirty with
    | true => simpa using hmem
    | false => simp [hfile, hcommits, hclean hdirty]
  | wait =>
    simp only [TimedManager.step] at hstep
    split at hstep <;> cases hstep
    exact ⟨flushed, pending, hcommits, hmem, hfile, hclean, hclose, hdue, by assumption⟩

theorem debounced_of_run {es : List TimedStep}
    (h : Machine.run (step flushEvery) (newTimedManager flushEvery start) es = some s) :
    ∃ flushed pending, s.Debounced flushEvery start flushed pending :=
  Machine.run_invariant
    (I := fun s : TimedManager => ∃ fl pe, s.Debounced flushEvery start fl pe)
    (fun _ _ _ ⟨_, _, hs⟩ hstep => hs.step hstep) ⟨[], [], debounced_new flushEvery start⟩ h

/-- **A pause ends with the file written**: what is pending before it is not there after it. -/
theorem Debounced.now_le_of_pause (h : s.Debounced flushEvery start flushed pending)
    {before after : List Commit} {q : Commit} (hpending : pending = before ++ q :: after)
    (hpause : ∀ c ∈ after, q.time + flushEvery < c.time) : s.now ≤ q.time + flushEvery := by
  have hclose := h.close
  subst hpending
  cases after with
  | nil => exact h.now_le.trans (h.due q (by simp)).le
  | cons c after =>
    have hnext := (List.isChain_cons_cons.mp (List.isChain_append.mp hclose).2.1).1
    exact absurd (hpause c (by simp)) (Nat.not_lt.mpr hnext)

/-! ## The steps that are taken in time -/

/-- The manager without its clock, at the `select` with no token. -/
def untimed (s : TimedManager) : PathManager where
  mem := s.mem
  file := s.file
  flushSignal := false
  closeCh := false
  dirty := s.dirty
  saveErrors := 0
  loop := .selecting
  closer := .idle

/-- What a commit and the flusher do in a step of the clock, when there are `n` commits so far. -/
def schedule (s : TimedManager) (n : ℕ) :
    TimedStep → List (Pool.Act (Position × Int64) Unit FlushStep)
  | .commit p offset => [.spawn (p, offset), .run n (), .run n (), .env .receive]
  | .expire =>
    if s.dirty then [.env .tick, .env .snapshot, .env (.write true), .env .clear]
    else [.env .tick]
  | .wait => []

theorem exec_schedule {e : TimedStep} (hstep : s.step flushEvery e = some s')
    (ts : List Committing) :
    ∃ ts', flushProgram.exec ⟨s.untimed, ts⟩ (s.schedule ts.length e) = some ⟨s'.untimed, ts'⟩ := by
  cases e with
  | commit p offset =>
    cases hstep
    refine ⟨ts ++ [.returned], ?_⟩
    simp [schedule, Pool.Program.exec, Pool.Program.step, flushProgram, PathManager.committing,
      PathManager.step, untimed]
  | expire =>
    simp only [TimedManager.step] at hstep
    split at hstep <;> cases hstep
    refine ⟨ts, ?_⟩
    cases hdirty : s.dirty <;>
      simp [schedule, hdirty, Pool.Program.exec, Pool.Program.step, flushProgram,
        PathManager.step, untimed]
  | wait =>
    simp only [TimedManager.step] at hstep
    split at hstep <;> cases hstep
    exact ⟨ts, rfl⟩

/-- **Time chooses among the steps of the commits and the flusher.** -/
theorem reach_untimed {es : List TimedStep}
    (h : Machine.run (step flushEvery) (newTimedManager flushEvery start) es = some s) :
    ∃ ts, flushProgram.Reach Pool.Guard.all (newManagerWithPath start) ⟨s.untimed, ts⟩ :=
  Machine.run_invariant
    (I := fun s => ∃ ts, flushProgram.Reach Pool.Guard.all (newManagerWithPath start)
      ⟨s.untimed, ts⟩)
    (fun _ _ _ ⟨ts, hreach⟩ hstep =>
      let ⟨ts', hexec⟩ := exec_schedule hstep ts
      ⟨ts', hreach.exec _ hexec⟩)
    ⟨[], .init⟩ h

end TimedManager

/-- What is found for a commit after others is its offset or a later one. -/
theorem getPartition_commitAll (m : Manager) (c : Commit) (cs : List Commit) :
    ∃ c' ∈ c :: cs, c'.position.key = c.position.key ∧
      (m.commitAll ((c :: cs).map Commit.entry)).getPartition c.position = some c'.offset := by
  induction cs using List.reverseRecOn with
  | nil =>
    exact ⟨c, by simp, rfl, by
      simp [Manager.commitAll, Commit.entry]⟩
  | append_singleton cs d ih =>
    obtain ⟨c', hmem, hkey, hget⟩ := ih
    have hlast : m.commitAll ((c :: (cs ++ [d])).map Commit.entry) =
        (m.commitAll ((c :: cs).map Commit.entry)).commitPartition d.position d.offset := by
      simp [Manager.commitAll, Commit.entry]
    rw [hlast, Manager.getPartition_commitPartition]
    by_cases hd : c.position.key = d.position.key
    · exact ⟨d, by simp, hd.symm, if_pos hd⟩
    · refine ⟨c', ?_, hkey, by rw [if_neg hd, hget]⟩
      rcases List.mem_cons.mp hmem with rfl | hmem
      · simp
      · simp [hmem]

/-- If within an interval after a commit there is one that none follows for an interval, then later
than twice the interval the offset is in the file, or a later one of the same key. -/
theorem flushed_after_pause (flushEvery : ℕ) (start : Manager) (es : List TimedStep)
    (s : TimedManager)
    (hrun : Machine.run (TimedManager.step flushEvery) (newTimedManager flushEvery start) es =
      some s)
    (before after : List Commit) (c : Commit) (hcommits : s.commits = before ++ c :: after)
    (mid rest : List Commit) (q : Commit) (hq : c :: after = mid ++ q :: rest)
    (hsoon : q.time ≤ c.time + flushEvery) (hpause : ∀ r ∈ rest, q.time + flushEvery < r.time)
    (hlate : c.time + 2 * flushEvery < s.now) :
    ∃ c' ∈ c :: after, c'.position.key = c.position.key ∧
      s.file.getPartition c.position = some c'.offset := by
  obtain ⟨flushed, pending, h⟩ := TimedManager.debounced_of_run hrun
  have hsplit := h.commits.symm.trans hcommits
  rcases List.append_eq_append_iff.mp hsplit with ⟨x, rfl, hpending⟩ | ⟨x, rfl, hrest⟩
  · -- the commit is pending, and so is the one before the pause
    rw [hq, ← List.append_assoc] at hpending
    have hnow := h.now_le_of_pause hpending hpause
    omega
  · cases x with
    | nil =>
      rw [hq] at hrest
      have hnow := h.now_le_of_pause hrest.symm hpause
      omega
    | cons c' x =>
      obtain ⟨rfl, rfl⟩ := List.cons.inj hrest
      obtain ⟨c', hmem, hkey, hget⟩ :=
        getPartition_commitAll (start.commitAll (before.map Commit.entry)) c x
      refine ⟨c', by simp at hmem ⊢; tauto, hkey, ?_⟩
      rw [h.file, ← hget]
      simp [Manager.commitAll]

/-- One commit, and a moment after the timer has expired. -/
theorem flushed_after_pause_once :
    ∃ c' ∈ [(⟨0, ⟨[0x61], [0x62], 0⟩, 5⟩ : Commit)],
      c'.position.key = (⟨[0x61], [0x62], 0⟩ : Position).key ∧
      ((newManager.commitPartition ⟨[0x61], [0x62], 0⟩ 5).getPartition ⟨[0x61], [0x62], 0⟩ =
        some c'.offset) :=
  flushed_after_pause 1 newManager
    [.commit ⟨[0x61], [0x62], 0⟩ 5, .wait, .expire, .wait, .expire, .wait]
    { now := 3
      mem := newManager.commitPartition ⟨[0x61], [0x62], 0⟩ 5
      file := newManager.commitPartition ⟨[0x61], [0x62], 0⟩ 5
      dirty := false
      due := 3
      commits := [⟨0, ⟨[0x61], [0x62], 0⟩, 5⟩] }
    rfl [] [] ⟨0, ⟨[0x61], [0x62], 0⟩, 5⟩ rfl [] [] ⟨0, ⟨[0x61], [0x62], 0⟩, 5⟩ rfl
    (by decide) (by simp) (by decide)

/-- A commit every 40 milliseconds: the timer never expires, and after 101 milliseconds there is
nothing in the file. -/
theorem offset_stale :
    (Machine.run (TimedManager.step defaultFlushInterval)
        (newTimedManager defaultFlushInterval newManager)
        ([[.commit ⟨[0x61], [0x62], 0⟩ 1], List.replicate 40 .wait,
          [.commit ⟨[0x61], [0x62], 0⟩ 2], List.replicate 40 .wait,
          [.commit ⟨[0x61], [0x62], 0⟩ 3], List.replicate 21 .wait].flatten)).map
      (fun s => (s.commits, s.now, s.file.getPartition ⟨[0x61], [0x62], 0⟩)) =
      some ([⟨0, ⟨[0x61], [0x62], 0⟩, 1⟩, ⟨40, ⟨[0x61], [0x62], 0⟩, 2⟩,
        ⟨80, ⟨[0x61], [0x62], 0⟩, 3⟩], 101, none) ∧
      0 + 2 * defaultFlushInterval < 101 := by
  decide +kernel

end AgentBus.Consumer
