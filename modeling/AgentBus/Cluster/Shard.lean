import Mathlib.Algebra.Group.Nat.Defs
import Mathlib.Data.List.Basic
import Mathlib.Order.Nat

/-!
# The log of a shard: appending and group commit

`internal/cluster/shardwal/shardwal.go`: `Append` writes a record through a buffered writer and
then takes part in a group commit, in which one caller flushes and syncs for all.  `Subscribe`
reads the file, first whatever is in it and then what is synced.

A step is what a caller does under the lock, or one `fsync`.  What the disk does with the calls
of a step is given by a `Disk`; a failed write or flush is remembered by the buffered writer
(`broken`), which then fails for ever.  Two fields are not in the source: `flushed` counts the
records that have reached the file, and `durable` those that a successful `fsync` covered.
A shard is never closed here, and the channel of a subscription is left out: a record is read
when it is used, which is the same since records never change.

## Main definitions

* `Shard`, `Disk` — the state and the outcome of its calls to the system.
* `Commit.step`, `Appending.step` — `groupCommitLocked` and `Append`.
* `Cursor.step` — the reader of `Subscribe`.
* `Shard.Grows`, `Shard.Valid` — what every step keeps.
-/

namespace AgentBus.Cluster

/-- The payload of a record. -/
abbrev Payload := List UInt8

/-- `MaxPayloadSize`. -/
def maxPayloadSize : ℕ := 64 * 2 ^ 20

/-- The errors of `Append`. -/
inductive ShardError where
  | payloadTooLarge (size : ℕ)
  /-- An error of the operating system. -/
  | io
  deriving DecidableEq, Repr

/-- `Shard`. -/
structure Shard where
  /-- Every record appended, in order. -/
  records : List Payload
  /-- How many of them are in the file. -/
  flushed : ℕ
  /-- How many of them a successful `fsync` has covered. -/
  durable : ℕ
  synced : ℕ
  pendingGen : ℕ
  syncedGen : ℕ
  syncing : Bool
  syncErr : Option ShardError
  /-- The buffered writer has failed. -/
  broken : Bool
  deriving DecidableEq, Repr

/-- What a call to the system does: `n` further records reach the file (of an `fsync`: are
covered), and the call succeeds or fails. -/
inductive Outcome where
  | ok (n : ℕ)
  | error (n : ℕ)
  deriving DecidableEq, Repr

/-- What the system does with the calls of one step. -/
structure Disk where
  write : Outcome
  flush : Outcome
  fsync : Outcome
  deriving DecidableEq, Repr

/-- A disk on which every call succeeds. -/
def Disk.healthy : Disk := ⟨.ok 0, .ok 0, .ok 0⟩

namespace Shard

/-- `Open` on a file of these records. -/
def opened (records : List Payload) : Shard where
  records := records
  flushed := records.length
  durable := records.length
  synced := records.length
  pendingGen := 1
  syncedGen := 0
  syncing := false
  syncErr := none
  broken := false

/-- `Tail`. -/
def tail (s : Shard) : ℕ := s.records.length

/-- The records in the file. -/
def file (s : Shard) : List Payload := s.records.take s.flushed

/-- Up to `n` more records reach the file. -/
def spill (s : Shard) (n : ℕ) : Shard :=
  { s with flushed := s.flushed + min n (s.tail - s.flushed) }

end Shard

/-- Where a caller of `groupCommitLocked` is. -/
inductive Commit where
  /-- At the head of the loop, or asleep in it. -/
  | waiting (gen : ℕ)
  /-- In `fsync`, for generation `syncingGen` and the records below `flushedTail`. -/
  | fsyncing (gen syncingGen flushedTail : ℕ)
  /-- The `fsync` has succeeded; the lock is to be taken again. -/
  | synced (gen syncingGen flushedTail : ℕ)
  /-- The `fsync` has failed; the lock is to be taken again. -/
  | failed (gen syncingGen flushedTail : ℕ)
  | returned (err : Option ShardError)
  deriving DecidableEq, Repr

/-- One round of the loop of `groupCommitLocked`, under the lock. -/
def Shard.commit (s : Shard) (gen : ℕ) (d : Disk) : Shard × Commit :=
  if gen ≤ s.syncedGen then (s, .returned s.syncErr)
  else if s.syncing then (s, .waiting gen)
  else if s.broken then ({ s with syncErr := some .io }, .returned (some .io))
  else
    match d.flush with
    | .ok _ =>
      ({ s with syncing := true, flushed := s.tail, pendingGen := s.pendingGen + 1 },
        .fsyncing gen s.pendingGen s.tail)
    | .error n => ({ s.spill n with syncErr := some .io, broken := true }, .returned (some .io))

/-- One step of a caller of `groupCommitLocked`. -/
def Commit.step (s : Shard) (d : Disk) : Commit → Option (Shard × Commit)
  | .waiting gen => some (s.commit gen d)
  | .fsyncing gen syncingGen flushedTail =>
    match d.fsync with
    | .ok n =>
      some ({ s with durable := max s.durable (flushedTail + min n (s.flushed - flushedTail)) },
        .synced gen syncingGen flushedTail)
    | .error _ => some (s, .failed gen syncingGen flushedTail)
  | .synced gen syncingGen flushedTail =>
    some (Shard.commit
      { s with syncedGen := syncingGen, synced := flushedTail, syncErr := none, syncing := false }
      gen d)
  | .failed _ _ _ => some ({ s with syncErr := some .io, syncing := false }, .returned (some .io))
  | .returned _ => none

/-- Where a caller of `Append` is. -/
inductive Appending where
  | writing (payload : Payload)
  | committing (off : ℕ) (c : Commit)
  | returned (off : ℕ)
  | failed (err : ShardError)
  deriving DecidableEq, Repr

/-- What the caller of `Append` does with the answer of the group commit. -/
def Appending.commit (off : ℕ) : Commit → Appending
  | .returned none => .returned off
  | .returned (some e) => .failed e
  | c => .committing off c

/-- One step of a caller of `Append`. -/
def Appending.step (s : Shard) (d : Disk) : Appending → Option (Shard × Appending)
  | .writing payload =>
    if maxPayloadSize < payload.length then
      some (s, .failed (.payloadTooLarge payload.length))
    else if s.broken then some (s, .failed .io)
    else
      match d.write with
      | .ok n =>
        let s' := Shard.spill { s with records := s.records ++ [payload] } n
        let r := s'.commit s'.pendingGen d
        some (r.1, .commit s.tail r.2)
      | .error n => some ({ s.spill n with broken := true }, .failed .io)
  | .committing off c => (c.step s d).map fun r => (r.1, .commit off r.2)
  | .returned _ => none
  | .failed _ => none

/-- Where the reader of `Subscribe` is. -/
inductive Cursor where
  /-- Reading the file from the start. -/
  | backfill (next : ℕ)
  /-- Waiting for more to be synced. -/
  | live (next : ℕ)
  /-- Reading the file up to what was synced. -/
  | tailing (next currentTail : ℕ)
  deriving DecidableEq, Repr

/-- One step of the reader, and the record it sends, if any. -/
def Cursor.step (s : Shard) : Cursor → Option (Cursor × Option (ℕ × Payload))
  | .backfill next =>
    match s.file[next]? with
    | some payload => some (.backfill (next + 1), some (next, payload))
    | none => some (.live next, none)
  | .live next => if next < s.synced then some (.tailing next s.synced, none) else none
  | .tailing next currentTail =>
    if next < currentTail then
      match s.file[next]? with
      | some payload => some (.tailing (next + 1) currentTail, some (next, payload))
      | none => some (.live next, none)
    else some (.live next, none)

/-! ## What every step keeps -/

/-- The counters of a shard are in order. -/
structure Shard.Valid (s : Shard) : Prop where
  synced : s.synced ≤ s.durable
  durable : s.durable ≤ s.flushed
  flushed : s.flushed ≤ s.tail

/-- The log only grows, on disk and in memory. -/
structure Shard.Grows (s s' : Shard) : Prop where
  records : s.records <+: s'.records
  flushed : s.flushed ≤ s'.flushed
  durable : s.durable ≤ s'.durable

/-- What is known of a caller of the group commit. -/
def Commit.Valid (s : Shard) : Commit → Prop
  | .fsyncing _ _ flushedTail => flushedTail ≤ s.flushed
  | .synced _ _ flushedTail => flushedTail ≤ s.durable
  | _ => True

/-- What is known of a caller of `Append`: its record is in the log at its offset. -/
def Appending.Valid (s : Shard) (payload : Payload) : Appending → Prop
  | .writing payload' => payload' = payload
  | .committing off c => s.records[off]? = some payload ∧ c.Valid s
  | .returned off => s.records[off]? = some payload
  | .failed _ => True

/-- What is known of a reader: it stops at synced records. -/
def Cursor.Valid (s : Shard) : Cursor → Prop
  | .tailing _ currentTail => currentTail ≤ s.durable
  | _ => True

theorem Shard.Grows.refl (s : Shard) : s.Grows s := ⟨List.prefix_refl _, le_refl _, le_refl _⟩

variable {s s' : Shard} {payload : Payload} {c : Commit} {a a' : Appending} {d : Disk}

theorem Shard.Grows.trans {s'' : Shard} (h : s.Grows s') (h' : s'.Grows s'') : s.Grows s'' :=
  ⟨h.records.trans h'.records, h.flushed.trans h'.flushed, h.durable.trans h'.durable⟩

/-- What is in a list stays where it is when the list grows. -/
theorem getElem?_grow {α : Type*} {l l' : List α} {i : ℕ} {a : α} (h : l[i]? = some a) :
    (l ++ l')[i]? = some a := by
  rw [List.getElem?_append_left (List.getElem?_eq_some_iff.mp h).1, h]

theorem Shard.Grows.getElem? (h : s.Grows s') {off : ℕ} (hrec : s.records[off]? = some payload) :
    s'.records[off]? = some payload := by
  obtain ⟨tl, htl⟩ := h.records
  rw [← htl]
  exact getElem?_grow hrec

theorem Shard.Grows.commit (h : s.Grows s') (hc : c.Valid s) : c.Valid s' := by
  cases c with
  | fsyncing gen syncingGen flushedTail => exact le_trans hc h.flushed
  | synced gen syncingGen flushedTail => exact le_trans hc h.durable
  | _ => trivial

theorem Shard.Grows.appending (h : s.Grows s') (ha : a.Valid s payload) : a.Valid s' payload := by
  cases a with
  | writing payload' => exact ha
  | committing off c => exact ⟨h.getElem? ha.1, h.commit ha.2⟩
  | returned off => exact h.getElem? ha
  | failed err => trivial

theorem Shard.Grows.cursor (h : s.Grows s') {c : Cursor} (hc : c.Valid s) : c.Valid s' := by
  cases c with
  | tailing next currentTail => exact le_trans hc h.durable
  | _ => trivial

theorem Shard.valid_opened (records : List Payload) : (Shard.opened records).Valid :=
  ⟨le_refl _, le_refl _, le_refl _⟩

theorem Shard.Valid.spill (h : s.Valid) (n : ℕ) : (s.spill n).Valid ∧ s.Grows (s.spill n) := by
  have h₁ := h.synced
  have h₂ := h.durable
  have h₃ := h.flushed
  refine ⟨⟨h₁, ?_, ?_⟩, List.prefix_refl _, ?_, le_refl _⟩
  · simp only [Shard.spill]; omega
  · simp only [Shard.spill, Shard.tail] at h₃ ⊢; omega
  · simp only [Shard.spill]; omega

/-- A round of the group commit. -/
theorem Shard.Valid.commit (h : s.Valid) (gen : ℕ) (d : Disk) :
    (s.commit gen d).1.Valid ∧ s.Grows (s.commit gen d).1 ∧
      (s.commit gen d).2.Valid (s.commit gen d).1 := by
  unfold Shard.commit
  split
  · exact ⟨h, .refl s, trivial⟩
  · split
    · exact ⟨h, .refl s, trivial⟩
    · split
      · exact ⟨⟨h.synced, h.durable, h.flushed⟩, ⟨List.prefix_refl _, le_refl _, le_refl _⟩,
          trivial⟩
      · split
        · refine ⟨⟨h.synced, ?_, le_refl _⟩, ⟨List.prefix_refl _, h.flushed, le_refl _⟩, le_refl _⟩
          exact h.durable.trans h.flushed
        · rename_i n _
          obtain ⟨hv, hg⟩ := h.spill n
          exact ⟨⟨hv.synced, hv.durable, hv.flushed⟩, ⟨hg.records, hg.flushed, hg.durable⟩, trivial⟩

/-- **A step of the group commit** keeps the counters in order, and lets the log only grow. -/
theorem Commit.step_spec {c' : Commit} (h : s.Valid) (hc : c.Valid s)
    (hstep : c.step s d = some (s', c')) : s'.Valid ∧ s.Grows s' ∧ c'.Valid s' := by
  cases c with
  | waiting gen =>
    have heq : s.commit gen d = (s', c') := Option.some.inj hstep
    have hcommit := h.commit gen d
    rw [heq] at hcommit
    exact hcommit
  | fsyncing gen syncingGen flushedTail =>
    rw [Commit.step] at hstep
    split at hstep
    · cases hstep
      have h₂ := h.durable
      refine ⟨⟨h.synced.trans (le_max_left _ _), ?_, h.flushed⟩,
        ⟨List.prefix_refl _, le_refl _, le_max_left _ _⟩, ?_⟩
      · simp only [Commit.Valid] at hc ⊢
        omega
      · simp only [Commit.Valid] at hc ⊢
        omega
    · cases hstep
      exact ⟨h, .refl s, trivial⟩
  | synced gen syncingGen flushedTail =>
    have hv : Shard.Valid { s with
        syncedGen := syncingGen, synced := flushedTail, syncErr := none, syncing := false } :=
      ⟨hc, h.durable, h.flushed⟩
    obtain ⟨hv', hg, hc'⟩ := hv.commit gen d
    rw [Option.some.inj hstep] at hv' hg hc'
    exact ⟨hv', ⟨hg.records, hg.flushed, hg.durable⟩, hc'⟩
  | failed gen syncingGen flushedTail =>
    cases hstep
    exact ⟨⟨h.synced, h.durable, h.flushed⟩, ⟨List.prefix_refl _, le_refl _, le_refl _⟩, trivial⟩
  | returned err => cases hstep

theorem Appending.valid_commit {off : ℕ} (hrec : s.records[off]? = some payload) (hc : c.Valid s) :
    (Appending.commit off c).Valid s payload := by
  unfold Appending.commit
  split
  · exact hrec
  · trivial
  · exact ⟨hrec, hc⟩

/-- **A step of `Append`** does so too, and its record stays in the log at its offset. -/
theorem Appending.step_spec (h : s.Valid) (ha : a.Valid s payload)
    (hstep : a.step s d = some (s', a')) : s'.Valid ∧ s.Grows s' ∧ a'.Valid s' payload := by
  cases a with
  | writing payload' =>
    cases ha
    rw [Appending.step] at hstep
    split at hstep
    · cases hstep
      exact ⟨h, .refl s, trivial⟩
    · split at hstep
      · cases hstep
        exact ⟨h, .refl s, trivial⟩
      · split at hstep
        · rename_i n _
          cases hstep
          have hv : Shard.Valid { s with records := s.records ++ [payload] } := by
            refine ⟨h.synced, h.durable, h.flushed.trans ?_⟩
            simp [Shard.tail]
          have hg : s.Grows { s with records := s.records ++ [payload] } :=
            ⟨List.prefix_append _ _, le_refl _, le_refl _⟩
          obtain ⟨hv', hg'⟩ := hv.spill n
          obtain ⟨hv'', hg'', hc⟩ := hv'.commit
            (Shard.spill { s with records := s.records ++ [payload] } n).pendingGen d
          refine ⟨hv'', hg.trans (hg'.trans hg''), valid_commit ?_ hc⟩
          exact (hg'.trans hg'').getElem? (by simp [Shard.tail])
        · rename_i n _
          cases hstep
          obtain ⟨hv, hg⟩ := h.spill n
          exact ⟨⟨hv.synced, hv.durable, hv.flushed⟩, ⟨hg.records, hg.flushed, hg.durable⟩,
            trivial⟩
  | committing off c =>
    obtain ⟨⟨s'', c'⟩, hc', heq⟩ := Option.map_eq_some_iff.mp hstep
    cases heq
    obtain ⟨hv, hg, hc''⟩ := Commit.step_spec h ha.2 hc'
    exact ⟨hv, hg, valid_commit (hg.getElem? ha.1) hc''⟩
  | returned off => cases hstep
  | failed err => cases hstep

/-! ## What a step does to the records -/

@[simp] theorem Shard.records_commit (s : Shard) (gen : ℕ) (d : Disk) :
    (s.commit gen d).1.records = s.records := by
  unfold Shard.commit
  split
  · rfl
  · split
    · rfl
    · split
      · rfl
      · split <;> rfl

theorem Commit.step_records {c' : Commit} (hstep : c.step s d = some (s', c')) :
    s'.records = s.records := by
  cases c with
  | waiting gen =>
    have heq : s.commit gen d = (s', c') := Option.some.inj hstep
    have hrecords := s.records_commit gen d
    rwa [heq] at hrecords
  | fsyncing gen syncingGen flushedTail =>
    rw [Commit.step] at hstep
    split at hstep <;> cases hstep <;> rfl
  | synced gen syncingGen flushedTail =>
    have hrecords := Shard.records_commit
      { s with syncedGen := syncingGen, synced := flushedTail, syncErr := none, syncing := false }
      gen d
    rwa [Option.some.inj hstep] at hrecords
  | failed gen syncingGen flushedTail =>
    cases hstep
    rfl
  | returned err => cases hstep

theorem Appending.commit_ne_writing (off : ℕ) (c : Commit) (payload : Payload) :
    Appending.commit off c ≠ .writing payload := by
  unfold Appending.commit
  split <;> simp

/-- What a step of `Append` does to the records. -/
inductive Appending.Wrote (s : Shard) (a : Appending) (s' : Shard) (a' : Appending) : Prop
  /-- Nothing. -/
  | nothing (waiting : ∀ payload, a ≠ .writing payload) (records : s'.records = s.records)
  /-- The record is refused. -/
  | refused (payload : Payload) (err : ShardError) (writing : a = .writing payload)
      (failed : a' = .failed err) (records : s'.records = s.records)
  /-- The record is put at the end. -/
  | record (payload : Payload) (writing : a = .writing payload)
      (size : payload.length ≤ maxPayloadSize)
      (records : s'.records = s.records ++ [payload])

/-- **What a step of `Append` does to the records**; a record is written once. -/
theorem Appending.step_records (hstep : a.step s d = some (s', a')) :
    Appending.Wrote s a s' a' ∧ ∀ payload, a' ≠ .writing payload := by
  cases a with
  | writing payload =>
    rw [Appending.step] at hstep
    split at hstep
    · cases hstep
      exact ⟨.refused payload _ rfl rfl rfl, by simp⟩
    · rename_i hsize
      split at hstep
      · cases hstep
        exact ⟨.refused payload _ rfl rfl rfl, by simp⟩
      · split at hstep
        · cases hstep
          exact ⟨.record payload rfl (not_lt.mp hsize) (Shard.records_commit ..),
            commit_ne_writing _ _⟩
        · cases hstep
          exact ⟨.refused payload _ rfl rfl rfl, by simp⟩
  | committing off c =>
    obtain ⟨⟨s'', c'⟩, hc, heq⟩ := Option.map_eq_some_iff.mp hstep
    cases heq
    exact ⟨.nothing (by simp) (Commit.step_records hc), commit_ne_writing _ _⟩
  | returned off => cases hstep
  | failed err => cases hstep

/-- Records are put only behind the others. -/
theorem Appending.Wrote.grows (h : Appending.Wrote s a s' a') : s.records <+: s'.records := by
  cases h with
  | nothing _ hrecords => exact hrecords ▸ List.prefix_refl _
  | refused _ _ _ _ hrecords => exact hrecords ▸ List.prefix_refl _
  | record payload _ _ hrecords => exact hrecords ▸ List.prefix_append ..

/-- Only records within the limit are put there. -/
theorem Appending.Wrote.sizes (h : Appending.Wrote s a s' a')
    (hs : ∀ p ∈ s.records, p.length ≤ maxPayloadSize) :
    ∀ p ∈ s'.records, p.length ≤ maxPayloadSize := by
  cases h with
  | nothing _ hrecords => exact hrecords ▸ hs
  | refused _ _ _ _ hrecords => exact hrecords ▸ hs
  | record payload _ hsize hrecords =>
    intro p hp
    rw [hrecords] at hp
    rcases List.mem_append.mp hp with hp | hp
    · exact hs p hp
    · rw [List.mem_singleton.mp hp]
      exact hsize

theorem Cursor.step_spec {c c' : Cursor} {sent : Option (ℕ × Payload)} (h : s.Valid)
    (hc : c.Valid s) (hstep : c.step s = some (c', sent)) :
    c'.Valid s ∧ ∀ off payload, sent = some (off, payload) → s.records[off]? = some payload := by
  have hfile : ∀ {off : ℕ} {payload : Payload}, s.file[off]? = some payload →
      s.records[off]? = some payload := by
    intro off payload hoff
    rw [Shard.file, List.getElem?_take] at hoff
    split at hoff
    · exact hoff
    · cases hoff
  cases c with
  | backfill next =>
    rw [Cursor.step] at hstep
    split at hstep
    · rename_i payload hread
      cases hstep
      refine ⟨trivial, ?_⟩
      rintro off payload' ⟨⟩
      exact hfile hread
    · cases hstep
      exact ⟨trivial, by simp⟩
  | live next =>
    rw [Cursor.step] at hstep
    split at hstep
    · cases hstep
      exact ⟨h.synced, by simp⟩
    · cases hstep
  | tailing next currentTail =>
    rw [Cursor.step] at hstep
    split at hstep
    · split at hstep
      · rename_i payload hread
        cases hstep
        refine ⟨hc, ?_⟩
        rintro off payload' ⟨⟩
        exact hfile hread
      · cases hstep
        exact ⟨trivial, by simp⟩
    · cases hstep
      exact ⟨trivial, by simp⟩

end AgentBus.Cluster
