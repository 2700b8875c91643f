import AgentBus.Consumer.OffsetsFile
import AgentBus.Lib.Pool

/-!
# Commits and the flusher

`CommitPartition` stores the offset under a lock and then offers a token to the flusher; a token
that finds the channel full is dropped.  The flusher takes the token and sets its dirty flag, and at
a tick of its timer writes a snapshot of the offsets to the file if the flag is set.  The commits
are the threads of a pool (`flushProgram`), and the flusher and whoever calls `Close` take their
steps beside them.

A file that differs from the offsets is owed a flush.  The dirty flag and the token stand for that
debt, and a commit that has stored its offset serves it until it has signalled.  A commit that lands
between the snapshot and the clearing of the flag finds the channel empty, or its token is already
there (`PathManager.Owed`), so no flush is forgotten (`flush_not_forgotten`).

The file is the map that it was written from; what the bytes of it are read as after `Close` is
`found_after_close`.  Calls of `Close` come one after the other.

## Main definitions

* `Committing`, `Loop`, `Closer`, `PathManager`, `FlushStep` — the threads, and what they share.
* `flushProgram` — the steps.
-/

namespace AgentBus.Consumer

open Pool

/-- How far a call of `CommitPartition` has come. -/
inductive Committing where
  | calling (p : Position) (offset : Int64)
  /-- The offset is in the map and `m.mu` is released. -/
  | stored
  | returned

/-- Where `flushLoop` is. -/
inductive Loop where
  /-- At the `select`. -/
  | selecting
  /-- In `save`, before the snapshot. -/
  | saving
  /-- In `save`, with the snapshot. -/
  | writing (snap : Manager)
  /-- After a `save` without an error, before the flag is cleared. -/
  | saved
  /-- `flushDone` is closed. -/
  | exited

/-- Where `Close` is. -/
inductive Closer where
  | idle
  /-- `closeCh` is closed; before the snapshot of `save`. -/
  | waiting
  | writing (snap : Manager)
  /-- Whether the error was nil. -/
  | returned (ok : Bool)
  deriving DecidableEq

/-- A manager with a file.  `dirty` keeps the last value of the flag when the flusher has exited. -/
structure PathManager where
  mem : Manager
  file : Manager
  flushSignal : Bool
  closeCh : Bool
  dirty : Bool
  saveErrors : ℕ
  loop : Loop
  closer : Closer

/-- What happens beside the commits. -/
inductive FlushStep where
  | receive
  | tick
  | snapshot
  /-- The snapshot is written and renamed, or one of the two fails. -/
  | write (ok : Bool)
  | clear
  | exit
  | close
  | closeSnapshot
  | closeWrite (ok : Bool)

/-- `NewManagerWithPath` on a file with these offsets; a missing file has none. -/
def newManagerWithPath (file : Manager) : PathManager where
  mem := file
  file := file
  flushSignal := false
  closeCh := false
  dirty := false
  saveErrors := 0
  loop := .selecting
  closer := .idle

namespace PathManager

/-- A step of `CommitPartition`. -/
def committing (s : PathManager) : Committing → Option (PathManager × Committing)
  | .calling p offset => some ({ s with mem := s.mem.commitPartition p offset }, .stored)
  | .stored => some ({ s with flushSignal := true }, .returned)
  | .returned => none

/-- A step of `flushLoop` or of `Close`. -/
def step (s : PathManager) : FlushStep → Option PathManager
  | .receive =>
    match s.loop, s.flushSignal with
    | .selecting, true => some { s with flushSignal := false, dirty := true }
    | _, _ => none
  | .tick =>
    match s.loop with
    | .selecting => some (if s.dirty then { s with loop := .saving } else s)
    | _ => none
  | .snapshot =>
    match s.loop with
    | .saving => some { s with loop := .writing s.mem }
    | _ => none
  | .write ok =>
    match s.loop with
    | .writing snap =>
      some (if ok then { s with file := snap, loop := .saved }
        else { s with saveErrors := s.saveErrors + 1, loop := .selecting })
    | _ => none
  | .clear =>
    match s.loop with
    | .saved => some { s with dirty := false, loop := .selecting }
    | _ => none
  | .exit =>
    match s.loop, s.closeCh with
    | .selecting, true => some { s with loop := .exited }
    | _, _ => none
  | .close =>
    match s.closer with
    | .idle | .returned _ => some { s with closeCh := true, closer := .waiting }
    | _ => none
  | .closeSnapshot =>
    match s.closer, s.loop with
    | .waiting, .exited => some { s with closer := .writing s.mem }
    | _, _ => none
  | .closeWrite ok =>
    match s.closer with
    | .writing snap =>
      some { s with file := if ok then snap else s.file, closer := .returned ok }
    | _ => none

end PathManager

/-- Commits beside the flusher and `Close`. -/
def flushProgram : Program PathManager Committing (Position × Int64) Unit FlushStep where
  entry c := .calling c.1 c.2
  thread s t _ := s.committing t
  env := PathManager.step

namespace PathManager

/-- `Close` has a snapshot only after the flusher has exited. -/
def Exclusive (s : PathManager) : Prop := ∀ snap, s.closer = .writing snap → s.loop = .exited

/-- What the file is, or is about to be, with nothing to say that it is out of date. -/
inductive Unflagged (s : PathManager) : Manager → Prop
  | file : s.dirty = false ∨ s.loop = .saved → Unflagged s s.file
  | loop {snap : Manager} : s.loop = .writing snap → Unflagged s snap
  | closer {snap : Manager} : s.closer = .writing snap → Unflagged s snap

/-- There is no token, and something out of date that is not flagged. -/
def Owed (s : PathManager) : Prop := s.flushSignal = false ∧ ∃ m, s.Unflagged m ∧ m ≠ s.mem

/-! ## The steps -/

/-- What a step of the flusher or of `Close` changes, and where it is taken. -/
inductive Moves (s : PathManager) : PathManager → Prop
  | receive : s.loop = .selecting → Moves s { s with flushSignal := false, dirty := true }
  | idle : Moves s s
  | start : s.loop = .selecting → Moves s { s with loop := .saving }
  | snapshot : s.loop = .saving → Moves s { s with loop := .writing s.mem }
  | written {snap : Manager} : s.loop = .writing snap →
      Moves s { s with file := snap, loop := .saved }
  | failed {snap : Manager} : s.loop = .writing snap →
      Moves s { s with saveErrors := s.saveErrors + 1, loop := .selecting }
  | clear : s.loop = .saved → Moves s { s with dirty := false, loop := .selecting }
  | exit : s.loop = .selecting → Moves s { s with loop := .exited }
  | close : Moves s { s with closeCh := true, closer := .waiting }
  | closeSnapshot : s.loop = .exited → Moves s { s with closer := .writing s.mem }
  | closeWrite {snap : Manager} (ok : Bool) : s.closer = .writing snap →
      Moves s { s with file := if ok then snap else s.file, closer := .returned ok }

variable {s s' : PathManager}

theorem moves_of_step {e : FlushStep} (h : s.step e = some s') : s.Moves s' := by
  cases e <;> simp only [step] at h <;> split at h <;> cases h
  · exact .receive ‹_›
  · split
    · exact .start ‹_›
    · exact .idle
  · exact .snapshot ‹_›
  · split
    · exact .written ‹_›
    · exact .failed ‹_›
  · exact .clear ‹_›
  · exact .exit ‹_›
  · exact .close
  · exact .close
  · exact .closeSnapshot ‹_›
  · exact .closeWrite _ ‹_›

theorem Moves.mem_eq (hm : s.Moves s') : s'.mem = s.mem := by
  cases hm <;> rfl

theorem Exclusive.committing (h : s.Exclusive) {t t' : Committing}
    (hstep : s.committing t = some (s', t')) : s'.Exclusive := by
  cases t <;> cases hstep <;> exact h

theorem Exclusive.moves (h : s.Exclusive) (hm : s.Moves s') : s'.Exclusive := by
  intro snap hcloser
  cases hm with
  | receive | idle => exact h snap hcloser
  | exit => rfl
  | closeSnapshot hexited => exact hexited
  | close | closeWrite => cases hcloser
  | start hloop | snapshot hloop | written hloop | failed hloop | clear hloop =>
    -- the flusher has not exited
    cases hloop.symm.trans (h snap hcloser)

/-- A debt after a step of a commit is served by it. -/
theorem Owed.committing {t t' : Committing} (hstep : s.committing t = some (s', t'))
    (h : s'.Owed) : t' = .stored := by
  cases t with
  | calling p offset =>
    cases hstep
    rfl
  | stored =>
    cases hstep
    exact absurd h.1 (by simp)
  | returned => cases hstep

/-- Taking the token sets the flag, and what the other steps leave without it was without it before
or is up to date. -/
theorem Unflagged.moves (hs : s.Exclusive) (hm : s.Moves s') {m : Manager} (h : s'.Unflagged m) :
    s'.flushSignal = s.flushSignal ∧ (s.Unflagged m ∨ m = s.mem) := by
  cases hm with
  | receive hloop =>
    cases h with
    | file h => rcases h with h | h <;> simp [hloop] at h
    | loop h => cases hloop.symm.trans h
    | closer h => cases hloop.symm.trans (hs m h)
  | idle => exact ⟨rfl, .inl h⟩
  | start | exit | failed =>
    refine ⟨rfl, .inl ?_⟩
    cases h with
    | file h => exact .file (.inl (h.resolve_right (nomatch ·)))
    | loop h => cases h
    | closer h => exact .closer h
  | snapshot =>
    refine ⟨rfl, ?_⟩
    cases h with
    | file h => exact .inl (.file (.inl (h.resolve_right (nomatch ·))))
    | loop h =>
      cases h
      exact .inr rfl
    | closer h => exact .inl (.closer h)
  | written hloop =>
    refine ⟨rfl, .inl ?_⟩
    cases h with
    | file => exact .loop hloop
    | loop h => cases h
    | closer h => exact .closer h
  | clear hloop =>
    refine ⟨rfl, .inl ?_⟩
    cases h with
    | file => exact .file (.inr hloop)
    | loop h => cases h
    | closer h => exact .closer h
  | close =>
    refine ⟨rfl, .inl ?_⟩
    cases h with
    | file h => exact .file h
    | loop h => exact .loop h
    | closer h => cases h
  | closeSnapshot =>
    refine ⟨rfl, ?_⟩
    cases h with
    | file h => exact .inl (.file h)
    | loop h => exact .inl (.loop h)
    | closer h =>
      cases h
      exact .inr rfl
  | closeWrite ok hcloser =>
    refine ⟨rfl, .inl ?_⟩
    cases h with
    | file h =>
      cases ok with
      | true => exact .closer hcloser
      | false => exact .file h
    | loop h => exact .loop h
    | closer h => cases h

/-- The flusher and `Close` make no debts. -/
theorem Owed.moves (hs : s.Exclusive) (hm : s.Moves s') (h : s'.Owed) : s.Owed := by
  obtain ⟨htoken, m, hunflagged, hne⟩ := h
  rw [hm.mem_eq] at hne
  obtain ⟨hsignal, hbefore⟩ := hunflagged.moves hs hm
  exact ⟨hsignal ▸ htoken, m, hbefore.resolve_right hne, hne⟩

/-- `Close` was called, and where it has a snapshot or has returned without an error, it is of the
offsets as they are. -/
def Quiet (s : PathManager) : Prop :=
  match s.closer with
  | .idle => False
  | .waiting => True
  | .writing snap => s.loop = .exited ∧ snap = s.mem
  | .returned ok => s.loop = .exited ∧ (ok = true → s.file = s.mem)

theorem Quiet.moves (h : s.Quiet) (hm : s.Moves s') : s'.Quiet := by
  unfold Quiet at h ⊢
  cases hm with
  | idle => exact h
  | close => trivial
  | closeSnapshot hexited => exact ⟨hexited, rfl⟩
  | closeWrite ok hcloser =>
    rw [hcloser] at h
    refine ⟨h.1, fun hok => ?_⟩
    simp [hok, h.2]
  | receive hloop | start hloop | snapshot hloop | written hloop | failed hloop | clear hloop
  | exit hloop =>
    -- the flusher has not exited, so `Close` is waiting
    cases hcloser : s.closer <;> simp_all

end PathManager

/-! ## Runs -/

/-- No commit takes a step. -/
def noCommit : World PathManager Committing → Act (Position × Int64) Unit FlushStep → Prop
  | _, .run _ _ => False
  | _, _ => True

instance (w : World PathManager Committing) : ∀ a, Decidable (noCommit w a)
  | .run _ _ => inferInstanceAs (Decidable False)
  | .spawn _ => inferInstanceAs (Decidable True)
  | .env _ => inferInstanceAs (Decidable True)

theorem holds_exclusive {file : Manager} {w : World PathManager Committing}
    (h : flushProgram.Reach Guard.all (newManagerWithPath file) w) :
    Holds PathManager.Exclusive (fun _ _ => True) (fun _ _ => True) w := by
  refine h.local_invariant (fun _ _ _ => trivial) (fun _ hc => nomatch hc)
    (fun _ _ _ => ⟨trivial, fun _ _ => trivial⟩) ?_ ?_
  · exact fun s t _ s' t' hs _ _ hstep =>
      ⟨⟨hs.committing hstep, trivial⟩, fun _ _ _ => ⟨trivial, trivial⟩⟩
  · exact fun s e s' hs _ hstep =>
      ⟨hs.moves (PathManager.moves_of_step hstep), fun _ _ => trivial⟩

/-- Whatever is owed, a commit has stored its offset and not signalled. -/
theorem stored_of_owed {file : Manager} {w : World PathManager Committing}
    (h : flushProgram.Reach Guard.all (newManagerWithPath file) w) (howed : w.shared.Owed) :
    .stored ∈ w.threads := by
  obtain ⟨t, ht, rfl⟩ := h.served (fun s (_ : Unit) => s.Owed) (fun t _ => t = .stored)
    (fun _ => holds_exclusive)
    (fun _ howed => by
      obtain ⟨-, m, hunflagged, hne⟩ := howed
      cases hunflagged with
      | file => exact hne rfl
      | loop h => cases h
      | closer h => cases h)
    (fun s t _ s' t' _ _ _ _ hstep howed => .inl (howed.committing hstep))
    (fun s e s' _ hs _ hstep howed => howed.moves hs (PathManager.moves_of_step hstep))
    () howed
  exact ht

/-- When `Close` returns without an error and no commit took a step since it was called, the file is
the offsets. -/
theorem file_eq_of_closed {w w₁ w₂ : World PathManager Committing}
    (hclose : flushProgram.step w (.env .close) = some w₁)
    (hruns : flushProgram.Runs noCommit w₁ w₂)
    (hreturned : w₂.shared.closer = .returned true) : w₂.shared.file = w₂.shared.mem := by
  have hquiet : w₁.shared.Quiet := by
    obtain ⟨s, hs, rfl⟩ := Option.map_eq_some_iff.mp hclose
    simp only [flushProgram, PathManager.step] at hs
    split at hs <;> cases hs <;> trivial
  obtain ⟨hend, -⟩ := hruns.later_invariant (L := fun _ => True) hquiet (fun _ => trivial)
    (fun w i t l s' t' hok => hok.elim)
    (fun w e s' _ hs hstep => hs.moves (PathManager.moves_of_step hstep))
  unfold PathManager.Quiet at hend
  rw [hreturned] at hend
  exact hend.2 rfl

/-- In every reachable state in which the file differs from the offsets, the dirty flag is set, or
there is a token, or a commit has stored its offset and not yet signalled; and when `Close` has
returned without an error and no commit took a step since it was called, the file is the offsets. -/
theorem flush_not_forgotten (file : Manager) :
    (∀ w, flushProgram.Reach Guard.all (newManagerWithPath file) w →
      w.shared.file ≠ w.shared.mem →
        w.shared.dirty = true ∨ w.shared.flushSignal = true ∨ .stored ∈ w.threads) ∧
    ∀ w w₁ w₂, flushProgram.Reach Guard.all (newManagerWithPath file) w →
      flushProgram.step w (.env .close) = some w₁ → flushProgram.Runs noCommit w₁ w₂ →
        w₂.shared.closer = .returned true → w₂.shared.file = w₂.shared.mem := by
  constructor
  · intro w hw hne
    by_contra hnone
    simp only [not_or, Bool.not_eq_true] at hnone
    obtain ⟨hdirty, htoken, hstored⟩ := hnone
    exact hstored (stored_of_owed hw ⟨htoken, _, .file (.inl hdirty), hne⟩)
  · intro w w₁ w₂ _ hclose hruns hreturned
    exact file_eq_of_closed hclose hruns hreturned

/-- The file of a commit cannot be written; `Close` writes it. -/
theorem flush_not_forgotten_failed :
    ∃ w w₁ w₂, flushProgram.Reach Guard.all (newManagerWithPath newManager) w ∧
      w.shared.file ≠ w.shared.mem ∧
      (w.shared.dirty = true ∨ w.shared.flushSignal = true ∨ .stored ∈ w.threads) ∧
      flushProgram.step w (.env .close) = some w₁ ∧ flushProgram.Runs noCommit w₁ w₂ ∧
      w₂.shared.closer = .returned true ∧ w₂.shared.file = w₂.shared.mem ∧
      w₂.shared.file.getPartition ⟨[0x61], [0x62], 0⟩ = some 5 := by
  have hrun : ((flushProgram.exec ⟨newManagerWithPath newManager, []⟩
      [.spawn (⟨[0x61], [0x62], 0⟩, 5), .run 0 (), .run 0 (), .env .receive, .env .tick,
        .env .snapshot, .env (.write false)]).bind fun w =>
      (flushProgram.step w (.env .close)).bind fun w₁ =>
        (flushProgram.execIf noCommit w₁
          [.env .exit, .env .closeSnapshot, .env (.closeWrite true)]).map fun w₂ =>
            decide (w.shared.file.getPartition ⟨[0x61], [0x62], 0⟩ ≠
              w.shared.mem.getPartition ⟨[0x61], [0x62], 0⟩ ∧
              w₂.shared.closer = .returned true ∧
              w₂.shared.file.getPartition ⟨[0x61], [0x62], 0⟩ = some 5)) = some true := by
    decide +kernel
  obtain ⟨w, hw, hrest⟩ := Option.bind_eq_some_iff.mp hrun
  obtain ⟨w₁, hclose, hrest⟩ := Option.bind_eq_some_iff.mp hrest
  obtain ⟨w₂, hw₂, heq⟩ := Option.map_eq_some_iff.mp hrest
  obtain ⟨hne, hreturned, hget⟩ := of_decide_eq_true heq
  have hreach := Program.Reach.init.exec _ hw
  have hruns := Program.Runs.refl.execIf _ hw₂
  have hfile : w.shared.file ≠ w.shared.mem := fun h => hne (by rw [h])
  obtain ⟨howed, hclosed⟩ := flush_not_forgotten newManager
  exact ⟨w, w₁, w₂, hreach, hfile, howed w hreach hfile, hclose, hruns, hreturned,
    hclosed w w₁ w₂ hreach hclose hruns hreturned, hget⟩

/-- **A clean shutdown loses nothing**: where the names are valid UTF-8, the manager of the next
process finds every offset. -/
theorem found_after_close {w w₁ w₂ : World PathManager Committing}
    (hclose : flushProgram.step w (.env .close) = some w₁)
    (hruns : flushProgram.Runs noCommit w₁ w₂)
    (hreturned : w₂.shared.closer = .returned true)
    (hvalid : ∀ k v, w₂.shared.mem.offsets.lookup k = some v → Utf8.IsValid k) :
    ∃ m, load (some w₂.shared.file.save) = some m ∧
      ∀ p, m.getPartition p = w₂.shared.mem.getPartition p := by
  rw [file_eq_of_closed hclose hruns hreturned]
  exact ⟨_, load_save _, fun p => lookup_of_isValid (load_save _) hvalid p.key⟩

end AgentBus.Consumer
