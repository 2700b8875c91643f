import AgentBus.Cluster.HighWaterMark
import AgentBus.Lib.Pool

/-!
# Waiting for the high-water mark

`HighWaterMark.WaitFor` of `internal/cluster/shardwal/hwm.go`: a publisher checks the mark under the
lock and sleeps on the condition variable of the mark.  Nothing would wake it when its context ends,
so before every sleep it starts a goroutine that does: it waits for the context or for the channel
`done`, which the call closes as soon as it is awake again, and broadcasts if it was the context.

A critical section is one step.  A call is one thread of a pool together with the goroutines it has
started, which may outlive the sleep they were started for.

A call that sleeps is woken by whatever it waits for (`waitFor_released`): if the mark has reached
its offset its next step returns nil, and if its context has ended its own goroutines let it return.

## Main definitions

* `Monitor`, `Helper`, `WaitCall`, `MarkThread` — the lock, and who takes it.
* `WaitCall.step`, `markProgram` — the steps.
* `WaitCall.Attended` — who wakes a call that sleeps.
-/

namespace AgentBus.Cluster

open Pool HighWaterMark

/-- A high-water mark with its condition variable, and what the contexts of the calls say. -/
structure Monitor where
  hwm : HighWaterMark
  broadcasts : ℕ
  /-- `ctx.Err`, by context. -/
  ctxErr : ℕ → Option ContextError

/-- The goroutine that a call starts before it sleeps. -/
inductive Helper where
  /-- In its `select`. -/
  | watching
  /-- The context has ended; the lock is to be taken. -/
  | firing
  | gone
  deriving DecidableEq, Repr

/-- Where a call of `WaitFor` is. -/
inductive WaitPoint where
  | entering
  /-- In `cond.Wait`. -/
  | asleep (ticket : ℕ)
  | returned (r : Except ContextError Unit)

/-- A call of `WaitFor` with the goroutines it has started, the last of them for the present
sleep. -/
structure WaitCall where
  offset : ℕ
  ctx : ℕ
  point : WaitPoint
  helpers : List Helper

/-- Who takes the lock. -/
inductive MarkThread where
  /-- `SetReplicas` or `Update`. -/
  | calling (op : Op)
  | called
  | waiting (c : WaitCall)

/-- What starts a thread. -/
inductive MarkRequest where
  | call (op : Op)
  | waitFor (offset ctx : ℕ)

/-- Which goroutine of a thread goes on, and how. -/
inductive MarkChoice where
  | own
  /-- A helper finds that the context has ended. -/
  | ctxDone (i : ℕ)
  /-- A helper finds that its channel is closed. -/
  | doneClosed (i : ℕ)
  /-- A helper broadcasts. -/
  | broadcast (i : ℕ)
  deriving DecidableEq, Repr

/-- Whether a call ends in a broadcast. -/
def broadcastsOn (h : HighWaterMark) : Op → Bool
  | .setReplicas _ => true
  | .update replicaID offset =>
    match h.offsets.lookup replicaID with
    | none => false
    | some cur => decide (cur < offset)

/-- `SetReplicas` and `Update`, under the lock. -/
def Monitor.call (m : Monitor) (op : Op) : Monitor :=
  { m with
    hwm := m.hwm.step op
    broadcasts := if broadcastsOn m.hwm op then m.broadcasts + 1 else m.broadcasts }

/-- `cond.Broadcast`. -/
def Monitor.broadcast (m : Monitor) : Monitor := { m with broadcasts := m.broadcasts + 1 }

/-- The loop of `WaitFor` under the lock, up to its return or the next `cond.Wait`. -/
def WaitCall.check (m : Monitor) (c : WaitCall) : WaitCall :=
  if m.hwm.current < c.offset then
    match m.ctxErr c.ctx with
    | some e => { c with point := .returned (.error e) }
    | none =>
      { c with point := .asleep m.broadcasts, helpers := c.helpers ++ [.watching] }
  else { c with point := .returned (.ok ()) }

/-- Whether the channel of a helper is closed: the call is awake again. -/
def WaitCall.doneClosed (c : WaitCall) (i : ℕ) : Bool :=
  match c.point with
  | .asleep _ => decide (i + 1 < c.helpers.length)
  | _ => true

/-- One step of a call or of one of its goroutines. -/
def WaitCall.step (m : Monitor) (c : WaitCall) : MarkChoice → Option (Monitor × WaitCall)
  | .own =>
    match c.point with
    | .entering => some (m, c.check m)
    | .asleep ticket => if ticket < m.broadcasts then some (m, c.check m) else none
    | .returned _ => none
  | .ctxDone i =>
    match c.helpers[i]?, m.ctxErr c.ctx with
    | some .watching, some _ => some (m, { c with helpers := c.helpers.set i .firing })
    | _, _ => none
  | .doneClosed i =>
    match c.helpers[i]? with
    | some .watching =>
      if c.doneClosed i then some (m, { c with helpers := c.helpers.set i .gone }) else none
    | _ => none
  | .broadcast i =>
    match c.helpers[i]? with
    | some .firing =>
      some (m.broadcast, { c with helpers := c.helpers.set i .gone })
    | _ => none

/-- One step of a thread. -/
def MarkThread.step (m : Monitor) : MarkThread → MarkChoice → Option (Monitor × MarkThread)
  | .calling op, .own => some (m.call op, .called)
  | .waiting c, l => (c.step m l).map fun r => (r.1, .waiting r.2)
  | _, _ => none

/-- A context ends. -/
structure ContextEnd where
  ctx : ℕ
  err : ContextError
  deriving DecidableEq, Repr

/-- The callers of a high-water mark. -/
def markProgram : Program Monitor MarkThread MarkRequest MarkChoice ContextEnd where
  entry
    | .call op => .calling op
    | .waitFor offset ctx => .waiting ⟨offset, ctx, .entering, []⟩
  thread := MarkThread.step
  env m e :=
    match m.ctxErr e.ctx with
    | none => some { m with ctxErr := Function.update m.ctxErr e.ctx (some e.err) }
    | some _ => none

/-- A new mark. -/
def Monitor.new (selfID : String) : Monitor := ⟨.new selfID, 0, fun _ => none⟩

/-! ## What a step does -/

/-- The mark has not changed without a broadcast. -/
def Monitor.Signals (m m' : Monitor) : Prop :=
  m.broadcasts < m'.broadcasts ∨ (m'.broadcasts = m.broadcasts ∧ m'.hwm = m.hwm)

section Steps

variable {m m' : Monitor} {c c' : WaitCall} {l : MarkChoice}

/-- A call that does not broadcast changes nothing. -/
theorem step_of_not_broadcastsOn {h : HighWaterMark} {op : Op} (hop : broadcastsOn h op = false) :
    h.step op = h := by
  cases op with
  | setReplicas ids => simp [broadcastsOn] at hop
  | update replicaID offset =>
    simp only [broadcastsOn] at hop
    rw [HighWaterMark.step, HighWaterMark.update]
    cases hcur : h.offsets.lookup replicaID with
    | none => rfl
    | some cur =>
      simp only [hcur, decide_eq_false_iff_not] at hop
      simp only [if_neg hop]

theorem Monitor.call_signals (m : Monitor) (op : Op) : m.Signals (m.call op) := by
  cases hop : broadcastsOn m.hwm op with
  | true => exact .inl (by simp [Monitor.call, hop])
  | false => exact .inr (by simp [Monitor.call, hop, step_of_not_broadcastsOn hop])

/-- What one step of a call does: the call checks the mark, or one of its helpers moves on. -/
inductive WaitCall.Moves (m : Monitor) (c : WaitCall) : Monitor → WaitCall → Prop
  | checks (hpoint : ∀ r, c.point ≠ .returned r) : Moves m c m (c.check m)
  | fires (i : ℕ) (hctx : m.ctxErr c.ctx ≠ none) (hi : c.helpers[i]? = some .watching) :
      Moves m c m { c with helpers := c.helpers.set i .firing }
  | leaves (i : ℕ) (hdone : c.doneClosed i = true) :
      Moves m c m { c with helpers := c.helpers.set i .gone }
  | broadcasts (i : ℕ) :
      Moves m c m.broadcast { c with helpers := c.helpers.set i .gone }

theorem WaitCall.moves (h : c.step m l = some (m', c')) : c.Moves m m' c' := by
  cases l with
  | own =>
    simp only [WaitCall.step] at h
    split at h
    · rename_i hpoint
      cases h
      exact .checks (by simp [hpoint])
    · rename_i ticket hpoint
      split at h <;> cases h
      exact .checks (by simp [hpoint])
    · cases h
  | ctxDone i =>
    simp only [WaitCall.step] at h
    split at h <;> cases h
    rename_i hi hctx
    exact .fires i (by simp [hctx]) hi
  | doneClosed i =>
    simp only [WaitCall.step] at h
    split at h
    · split at h <;> cases h
      rename_i hdone
      exact .leaves i hdone
    · cases h
  | broadcast i =>
    simp only [WaitCall.step] at h
    split at h <;> cases h
    exact .broadcasts i

theorem WaitCall.Moves.signals (h : c.Moves m m' c') : m.Signals m' := by
  cases h with
  | checks _ => exact .inr ⟨rfl, rfl⟩
  | fires i _ _ => exact .inr ⟨rfl, rfl⟩
  | leaves i _ => exact .inr ⟨rfl, rfl⟩
  | broadcasts i => exact .inl (Nat.lt_succ_self m.broadcasts)

theorem WaitCall.asleep_check {ticket : ℕ} (h : (c.check m).point = .asleep ticket) :
    ticket = m.broadcasts ∧ m.hwm.current < c.offset ∧ (c.check m).offset = c.offset ∧
      (c.check m).helpers = c.helpers ++ [.watching] := by
  unfold WaitCall.check at h ⊢
  split at h
  · rename_i hlt
    rw [if_pos hlt]
    split at h
    · cases h
    · cases h
      exact ⟨rfl, hlt, rfl, rfl⟩
  · cases h

end Steps

/-! ## Who wakes a call -/

/-- A call that sleeps has been woken, or the mark is below its offset; and its helper will wake it
when the context ends, or has broadcast since. -/
def WaitCall.Attended (m : Monitor) (c : WaitCall) : Prop :=
  ∀ ticket, c.point = .asleep ticket → ticket ≤ m.broadcasts ∧
    (ticket = m.broadcasts → m.hwm.current < c.offset) ∧
    ∃ h, c.helpers[c.helpers.length - 1]? = some h ∧ (h = .gone → ticket < m.broadcasts)

def MarkThread.Attended (m : Monitor) : MarkThread → Prop
  | .waiting c => c.Attended m
  | _ => True

namespace WaitCall

variable {m m' : Monitor} {c c' : WaitCall}

/-- What others do to the mark does not harm. -/
theorem Attended.mono (h : c.Attended m) (hs : m.Signals m') : c.Attended m' := by
  intro ticket hpoint
  obtain ⟨hticket, hbelow, hp, hlast, hgone⟩ := h ticket hpoint
  rcases hs with hlt | ⟨hbroadcasts, hhwm⟩
  · exact ⟨by omega, fun heq => by omega, hp, hlast, fun _ => by omega⟩
  · rw [hbroadcasts, hhwm]
    exact ⟨hticket, hbelow, hp, hlast, hgone⟩

/-- A helper of the call moves on. -/
theorem Attended.set (h : c.Attended m) (i : ℕ) (hp : Helper)
    (hlast : i + 1 = c.helpers.length → ∀ ticket, c.point = .asleep ticket → hp = .gone →
      ticket < m.broadcasts) : Attended m { c with helpers := c.helpers.set i hp } := by
  intro ticket hpoint
  obtain ⟨hticket, hbelow, hp', hp'last, hgone⟩ := h ticket hpoint
  refine ⟨hticket, hbelow, ?_⟩
  have hlen : c.helpers.length - 1 < c.helpers.length := (List.getElem?_eq_some_iff.mp hp'last).1
  dsimp only
  rw [List.length_set, List.getElem?_set]
  by_cases hi : i = c.helpers.length - 1
  · rw [if_pos hi, if_pos (hi ▸ hlen)]
    exact ⟨hp, rfl, fun hg => hlast (by omega) ticket hpoint hg⟩
  · rw [if_neg hi]
    exact ⟨hp', hp'last, hgone⟩

theorem attended_check : (c.check m).Attended m := by
  intro ticket hpoint
  obtain ⟨rfl, hlt, hoffset, hhelpers⟩ := asleep_check hpoint
  refine ⟨le_refl _, fun _ => hoffset ▸ hlt, .watching, ?_, fun hg => by cases hg⟩
  rw [hhelpers]
  simp

theorem Moves.attended (hm : c.Moves m m' c') (h : c.Attended m) : c'.Attended m' := by
  cases hm with
  | checks _ => exact attended_check
  | fires i _ _ => exact h.set i .firing fun _ _ _ hg => by cases hg
  | leaves i hdone =>
    refine h.set i .gone fun hi ticket hpoint _ => ?_
    -- The channel of the last helper is open while the call sleeps.
    simp only [doneClosed, hpoint, decide_eq_true_eq] at hdone
    omega
  | broadcasts i =>
    refine Attended.set (h.mono (Moves.broadcasts (c := c) i).signals) i .gone ?_
    exact fun _ ticket hpoint _ => Nat.lt_succ_of_le (h ticket hpoint).1

/-- A call that checks the mark after its context has ended returns. -/
theorem check_point {e : ContextError} (he : m.ctxErr c.ctx = some e) :
    (c.check m).point = .returned (if c.offset ≤ m.hwm.current then .ok () else .error e) := by
  unfold check
  by_cases hlt : m.hwm.current < c.offset
  · rw [if_pos hlt, if_neg (by omega), he]
  · rw [if_neg hlt, if_pos (by omega)]

end WaitCall

theorem reach_attended {selfID : String} {w : World Monitor MarkThread}
    (h : markProgram.Reach Guard.all (.new selfID) w) {t : MarkThread} (ht : t ∈ w.threads) :
    t.Attended w.shared := by
  have hmono : ∀ {m m' : Monitor} {t : MarkThread}, m.Signals m' →
      t.Attended m → t.Attended m' := by
    intro m m' t hs ht
    cases t with
    | waiting c => exact WaitCall.Attended.mono ht hs
    | _ => trivial
  have hholds : Holds (fun _ => True) MarkThread.Attended (fun _ _ => True) w := by
    refine h.local_invariant (fun _ _ _ => trivial) trivial ?_ ?_ ?_
    · intro m r _
      refine ⟨?_, fun _ _ => trivial⟩
      cases r with
      | call op => trivial
      | waitFor offset ctx => intro ticket hpoint; cases hpoint
    · intro m t l m' t' _ ht _ hstep
      cases t with
      | called => cases hstep
      | calling op =>
        cases l <;> cases hstep
        exact ⟨⟨trivial, trivial⟩, fun u hu _ => ⟨hmono (m.call_signals op) hu, trivial⟩⟩
      | waiting c =>
        obtain ⟨⟨m', c'⟩, hcall, heq⟩ := Option.map_eq_some_iff.mp hstep
        cases heq
        have hmoves := WaitCall.moves hcall
        exact ⟨⟨trivial, hmoves.attended ht⟩, fun u hu _ => ⟨hmono hmoves.signals hu, trivial⟩⟩
    · intro m e m' _ _ hstep
      refine ⟨trivial, fun u hu => hmono ?_ hu⟩
      simp only [markProgram] at hstep
      split at hstep <;> cases hstep
      exact .inr ⟨rfl, rfl⟩
  exact hholds.of_mem ht

section Released

variable {m : Monitor} {c : WaitCall}

theorem solo_own (hawake : ∀ ticket, c.point = .asleep ticket → ticket < m.broadcasts)
    (hopen : ∀ r, c.point ≠ .returned r) :
    markProgram.thread m (.waiting c) .own = some (m, .waiting (c.check m)) := by
  have hstep : c.step m .own = some (m, c.check m) := by
    simp only [WaitCall.step]
    split
    · rfl
    · rename_i ticket hpoint
      rw [if_pos (hawake ticket hpoint)]
    · rename_i r hpoint
      exact absurd hpoint (hopen r)
  simp [markProgram, MarkThread.step, hstep]

/-- A call that sleeps is woken by the broadcast of its helper. -/
theorem solo_broadcast {ticket i : ℕ} (hpoint : c.point = .asleep ticket)
    (hticket : ticket ≤ m.broadcasts) (hi : c.helpers[i]? = some .firing) {e : ContextError}
    (he : m.ctxErr c.ctx = some e) :
    ∃ c', markProgram.solo m (.waiting c) [.broadcast i, .own] = some (m.broadcast, .waiting c') ∧
      c'.point = .returned (if c.offset ≤ m.hwm.current then .ok () else .error e) := by
  have hbroadcast : markProgram.thread m (.waiting c) (.broadcast i) =
      some (m.broadcast, .waiting { c with helpers := c.helpers.set i .gone }) := by
    simp [markProgram, MarkThread.step, WaitCall.step, hi]
  have hown := solo_own (m := m.broadcast) (c := { c with helpers := c.helpers.set i .gone })
    (fun ticket' hpoint' => by
      cases hpoint.symm.trans hpoint'
      exact Nat.lt_succ_of_le hticket)
    (fun r hr => by cases hpoint.symm.trans hr)
  refine ⟨WaitCall.check m.broadcast { c with helpers := c.helpers.set i .gone }, ?_,
    WaitCall.check_point he⟩
  simp only [Program.solo, hbroadcast, hown, Option.bind_some]

/-- A call whose context has ended returns after at most three steps of its own goroutines. -/
theorem WaitCall.Attended.finish (h : c.Attended m) (hopen : ∀ r, c.point ≠ .returned r)
    {e : ContextError} (he : m.ctxErr c.ctx = some e) :
    ∃ ls m' c', ls.length ≤ 3 ∧ markProgram.solo m (.waiting c) ls = some (m', .waiting c') ∧
      c'.point = .returned (if c.offset ≤ m.hwm.current then .ok () else .error e) := by
  by_cases hawake : ∀ ticket, c.point = .asleep ticket → ticket < m.broadcasts
  · refine ⟨[.own], m, c.check m, by simp, ?_, WaitCall.check_point he⟩
    simp [Program.solo, solo_own hawake hopen]
  · push Not at hawake
    obtain ⟨ticket, hpoint, hge⟩ := hawake
    obtain ⟨hticket, -, hp, hlast, hgone⟩ := h ticket hpoint
    have hlt := (List.getElem?_eq_some_iff.mp hlast).1
    cases hp with
    | gone => exact absurd (hgone rfl) (by omega)
    | firing =>
      obtain ⟨c', hsolo, hreturned⟩ := solo_broadcast hpoint hticket hlast he
      exact ⟨_, _, c', by simp, hsolo, hreturned⟩
    | watching =>
      have hfire : markProgram.thread m (.waiting c) (.ctxDone (c.helpers.length - 1)) =
          some (m, .waiting
            { c with helpers := c.helpers.set (c.helpers.length - 1) .firing }) := by
        simp [markProgram, MarkThread.step, WaitCall.step, hlast, he]
      obtain ⟨c', hsolo, hreturned⟩ := solo_broadcast (m := m)
        (c := { c with helpers := c.helpers.set (c.helpers.length - 1) .firing }) hpoint hticket
        (List.getElem?_set_self hlt) he
      refine ⟨[.ctxDone (c.helpers.length - 1), .broadcast (c.helpers.length - 1), .own],
        m.broadcast, c', by simp, ?_, hreturned⟩
      rw [Program.solo, hfire]
      exact hsolo

end Released

/-- **No publisher waits in vain.**  In whatever order calls change the mark, contexts end and
goroutines run: a call of `WaitFor` that has not returned returns nil in its next step if the mark
has reached its offset, and returns after at most three steps of its own goroutines if its context
has ended. -/
theorem waitFor_released (selfID : String) (w : World Monitor MarkThread)
    (h : markProgram.Reach Guard.all (.new selfID) w) (i : ℕ) (c : WaitCall)
    (hi : w.threads[i]? = some (.waiting c)) (hopen : ∀ r, c.point ≠ .returned r) :
    (c.offset ≤ w.shared.hwm.mark → ∃ w', markProgram.step w (.run i .own) = some w' ∧
      w'.threads[i]? = some (.waiting { c with point := .returned (.ok ()) })) ∧
    ∀ e, w.shared.ctxErr c.ctx = some e → ∃ (ls : List MarkChoice) (w' : _) (c' : _),
      ls.length ≤ 3 ∧
      markProgram.exec w (ls.map (Act.run i)) = some w' ∧ w'.threads[i]? = some (.waiting c') ∧
      c'.point = .returned (if c.offset ≤ w.shared.hwm.mark then .ok () else .error e) := by
  have hmem := List.mem_of_getElem? hi
  have hlt : i < w.threads.length := (List.getElem?_eq_some_iff.mp hi).1
  constructor
  · intro hmark
    have hawake : ∀ ticket, c.point = .asleep ticket → ticket < w.shared.broadcasts := by
      intro ticket hpoint
      obtain ⟨hle, hbelow, -⟩ := reach_attended h hmem ticket hpoint
      exact lt_of_le_of_ne hle fun heq => (hbelow heq).not_ge hmark
    refine ⟨⟨w.shared, w.threads.set i (.waiting (c.check w.shared))⟩, ?_, ?_⟩
    · simp [Program.step, hi, solo_own hawake hopen]
    · have hcheck : c.check w.shared = { c with point := .returned (.ok ()) } :=
        if_neg (not_lt.mpr hmark)
      simp [hlt, hcheck]
  · intro e he
    obtain ⟨ls, m', c', hlen, hsolo, hpoint⟩ := (reach_attended h hmem).finish hopen he
    exact ⟨ls, _, c', hlen, Program.exec_solo hi hsolo, List.getElem?_set_self hlt, hpoint⟩

/-- A publisher sleeps, its context ends, and only its own helper can wake it. -/
def sleeping : World Monitor MarkThread :=
  ⟨⟨.new "a", 0, Function.update (fun _ => none) 0 (some .deadlineExceeded)⟩,
    [.waiting ⟨1, 0, .asleep 0, [.watching]⟩]⟩

theorem waitFor_released_sleeping :
    markProgram.Reach Guard.all (.new "a") sleeping ∧
      ∃ (ls : List MarkChoice) (w' : World Monitor MarkThread) (c' : WaitCall), ls.length ≤ 3 ∧
        markProgram.exec sleeping (ls.map (Act.run 0)) = some w' ∧
        w'.threads[0]? = some (.waiting c') ∧ c'.point = .returned (.error .deadlineExceeded) := by
  have hreach : markProgram.Reach Guard.all (.new "a") sleeping :=
    Program.Reach.init.exec [.spawn (.waitFor 1 0), .run 0 .own, .env ⟨0, .deadlineExceeded⟩] rfl
  have h := (waitFor_released "a" sleeping hreach 0 ⟨1, 0, .asleep 0, [.watching]⟩ rfl
    (fun r hr => by cases hr)).2 .deadlineExceeded rfl
  exact ⟨hreach, h⟩

end AgentBus.Cluster
