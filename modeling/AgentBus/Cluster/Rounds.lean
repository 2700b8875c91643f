import AgentBus.Cluster.Shard
import AgentBus.Lib.GroupCommit

/-!
# The rounds of the group commit

What a step of `Append` does to the rounds, whatever the disk does.  The protocol is
`AgentBus.GroupCommit`, at positions that count records; what is on disk is what a round has
declared synced.

A record that is counted and not synced is in the hands of a call: of the one that has appended it
and waits, or of one that runs a round which has flushed it.  It is in nobody's hands only after a
round has failed (`Advances.owes`).

## Main definitions

* `Appending.role`, `Shard.gens` — a call and a shard as the protocol sees them.
* `Appending.Covers` — the call has a record in its hands.
* `Shard.Owes` — the record is counted and not synced, and no round has failed since.
* `Appending.Sound` — what is known of a call.
* `Advances`, `Appending.step_rounds` — what a step does.
* `Appending.Keeps`, `Appending.step_keeps` — what it does when no flush and no sync fails.
-/

namespace AgentBus.Cluster

open GroupCommit

/-- The call does not fail. -/
def Outcome.isOk : Outcome → Bool
  | .ok _ => true
  | .error _ => false

/-- The offset a call has been given. -/
def Appending.offset : Appending → Option ℕ
  | .committing off _ => some off
  | .returned off => some off
  | _ => none

/-- What a call is to the rounds of the group commit. -/
def Appending.role : Appending → Role
  | .committing off (.waiting gen) => .member gen (off + 1)
  | .committing off (.fsyncing gen syncingGen flushedTail) =>
    .syncer gen (off + 1) syncingGen flushedTail
  | .committing off (.synced gen syncingGen flushedTail) =>
    .syncer gen (off + 1) syncingGen flushedTail
  | .committing off (.failed gen syncingGen flushedTail) =>
    .syncer gen (off + 1) syncingGen flushedTail
  | _ => .outside

/-- The counters of the group commit. -/
def Shard.gens (s : Shard) : Gens := ⟨s.pendingGen, s.syncedGen, s.syncing, s.tail, s.synced⟩

/-- The call has appended record `k` and waits for a round, or runs a round that has flushed it. -/
def Appending.Covers (a : Appending) (k : ℕ) : Prop :=
  match a.role with
  | .outside => False
  | .member _ pos => pos = k + 1
  | .syncer _ _ _ upTo => k < upTo

instance (a : Appending) (k : ℕ) : Decidable (a.Covers k) := by
  unfold Appending.Covers
  cases a.role <;> dsimp only <;> infer_instance

/-- Record `k` is counted and not synced, and a round may still sync it: none has failed since, or
one is under way. -/
structure Shard.Owes (s : Shard) (k : ℕ) : Prop where
  unsynced : s.synced ≤ k
  counted : k < s.tail
  pending : s.syncErr = none ∨ s.syncing = true

/-- What is known of a call: it is where the rounds allow it to be, a round it runs will not lower
`synced`, and when it has returned its record is synced. -/
structure Appending.Sound (s : Shard) (a : Appending) : Prop where
  rounds : s.gens.Allows a.role
  ahead : ∀ gen pos round upTo, a.role = .syncer gen pos round upTo → s.synced ≤ upTo
  returned : ∀ off, a = .returned off → off < s.synced

/-- What a step of a call does to the rounds. -/
structure Advances (s : Shard) (a : Appending) (s' : Shard) (a' : Appending) : Prop where
  rounds : Step s.gens a.role s'.gens a'.role
  synced : s'.synced = s.synced ∨
    (s.synced ≤ s'.synced ∧ ∃ gen pos round upTo, a.role = .syncer gen pos round upTo)
  ahead : ∀ gen pos round upTo, a'.role = .syncer gen pos round upTo → s'.synced ≤ upTo
  returned : ∀ off, a' = .returned off → off < s'.synced
  /-- What is owed is in the hands of the call, or was owed and not in its hands. -/
  owes : ∀ k, s'.Owes k → a'.Covers k ∨ (s.Owes k ∧ ¬ a.Covers k)

namespace Advances

variable {s s' : Shard} {a a' : Appending}

theorem forward (h : Advances s a s' a') : s.synced ≤ s'.synced := by
  rcases h.synced with heq | ⟨hle, -⟩
  · exact le_of_eq heq.symm
  · exact hle

theorem own (h : Advances s a s' a') (hs : s.gens.Valid) (ha : a.Sound s) :
    s'.gens.Valid ∧ a'.Sound s' := by
  obtain ⟨hgens, hrounds⟩ := h.rounds.own hs ha.rounds
  exact ⟨hgens, hrounds, h.ahead, h.returned⟩

/-- What is known of another call survives the step. -/
theorem beside (h : Advances s a s' a') (hs : s.gens.Valid) (ha : a.Sound s) {b : Appending}
    (hb : b.Sound s) (hab : a.role.Compatible b.role) :
    b.Sound s' ∧ a'.role.Compatible b.role := by
  obtain ⟨hrounds, hcompat⟩ := h.rounds.others _ hs ha.rounds hb.rounds hab
  refine ⟨⟨hrounds, ?_, fun off hoff => (hb.returned off hoff).trans_le h.forward⟩, hcompat⟩
  intro gen pos round upTo hrole
  rcases h.synced with heq | ⟨-, gen', pos', round', upTo', hrole'⟩
  · rw [heq]
    exact hb.ahead gen pos round upTo hrole
  · -- Only one round is under way at a time.
    rw [hrole, hrole'] at hab
    exact hab.elim

/-- A step after which the call is outside the rounds, and none has failed. -/
theorem leave (hrounds : Step s.gens a.role s'.gens a'.role) (hrole : a'.role = .outside)
    (hsynced : s'.synced = s.synced) (hreturned : ∀ off, a' = .returned off → off < s'.synced)
    (howes : ∀ k, s'.Owes k → s.Owes k ∧ ¬ a.Covers k) : Advances s a s' a' where
  rounds := hrounds
  synced := .inl hsynced
  ahead gen pos round upTo h := by
    rw [hrole] at h
    cases h
  returned := hreturned
  owes k hk := .inr (howes k hk)

/-- A step that leaves the call where it is to the rounds. -/
theorem still (ha : a.Sound s) (hgens : s'.gens = s.gens) (hrole : a'.role = a.role)
    (hreturned : ∀ off, a' ≠ .returned off) (howes : ∀ k, s'.Owes k → s.Owes k) :
    Advances s a s' a' := by
  have hsynced : s'.synced = s.synced := congrArg Gens.durable hgens
  refine ⟨?_, .inl hsynced, ?_, fun off h => absurd h (hreturned off), ?_⟩
  · rw [hgens, hrole]
    exact .refl _ _
  · rw [hrole, hsynced]
    exact ha.ahead
  · intro k hk
    have heq : a'.Covers k ↔ a.Covers k := by rw [Appending.Covers, Appending.Covers, hrole]
    rw [heq]
    exact (em _).imp_right fun hnot => ⟨howes k hk, hnot⟩

end Advances

/-- After a round has failed nothing is owed. -/
theorem Shard.Owes.false_of_failed {s : Shard} {k : ℕ} {err : ShardError} (h : s.Owes k)
    (herr : s.syncErr = some err) (hidle : s.syncing = false) : False := by
  rcases h.pending with h | h
  · rw [herr] at h
    cases h
  · rw [hidle] at h
    cases h

/-- A round of the group commit, for a call that has appended its record. -/
theorem Shard.advances_commit {s : Shard} (hs : s.Valid) {gen off : ℕ}
    (hmember : s.gens.Member gen (off + 1)) (d : Disk) :
    Advances s (.committing off (.waiting gen)) (s.commit gen d).1
      (.commit off (s.commit gen d).2) := by
  have hsound : Appending.Sound s (.committing off (.waiting gen)) :=
    ⟨hmember, by rintro _ _ _ _ ⟨⟩, by rintro _ ⟨⟩⟩
  unfold Shard.commit
  split
  · -- The generation is synced, and so is the record.
    rename_i hgen
    have hoff : off < s.synced := hmember.onDisk hgen
    have howes : ∀ k, s.Owes k →
        s.Owes k ∧ ¬ (Appending.committing off (.waiting gen)).Covers k := by
      intro k hk
      refine ⟨hk, fun hcovers => ?_⟩
      have hle := hk.unsynced
      have heq : off + 1 = k + 1 := hcovers
      omega
    cases s.syncErr with
    | none =>
      refine .leave (.leave _ _) rfl rfl ?_ howes
      rintro _ ⟨⟩
      exact hoff
    | some err => exact .leave (.leave _ _) rfl rfl (by rintro _ ⟨⟩) howes
  · split
    · -- Another caller syncs.
      exact .still hsound rfl rfl (by rintro _ ⟨⟩) fun _ hk => hk
    · rename_i hidle
      have hidle := Bool.eq_false_iff.mpr hidle
      split
      · exact .leave (.leave _ _) rfl rfl (by rintro _ ⟨⟩)
          fun k hk => (hk.false_of_failed rfl hidle).elim
      · split
        · exact
            { rounds := .start hidle
              synced := .inl rfl
              ahead := by
                rintro _ _ _ _ ⟨⟩
                exact hs.synced.trans (hs.durable.trans hs.flushed)
              returned := by rintro _ ⟨⟩
              owes := fun k hk => .inl hk.counted }
        · exact .leave (.leave _ _) rfl rfl (by rintro _ ⟨⟩)
            fun k hk => (hk.false_of_failed rfl hidle).elim

/-- A round of the group commit after steps that have made the call a member. -/
theorem Advances.commit {s s₁ : Shard} {a : Appending} {gen off : ℕ} (hs₁ : s₁.Valid)
    (hrounds : Step s.gens a.role s₁.gens (.member gen (off + 1)))
    (hmember : s₁.gens.Member gen (off + 1))
    (hsynced : s₁.synced = s.synced ∨
      (s.synced ≤ s₁.synced ∧ ∃ gen pos round upTo, a.role = .syncer gen pos round upTo))
    (howes : ∀ k, s₁.Owes k → k = off ∨ (s.Owes k ∧ ¬ a.Covers k)) (d : Disk) :
    Advances s a (s₁.commit gen d).1 (.commit off (s₁.commit gen d).2) := by
  have hc := Shard.advances_commit hs₁ hmember d
  have hsame : (s₁.commit gen d).1.synced = s₁.synced := by
    rcases hc.synced with h | ⟨-, _, _, _, _, h⟩
    · exact h
    · cases h
  refine ⟨hrounds.trans hc.rounds, by rwa [hsame], hc.ahead, hc.returned, ?_⟩
  intro k hk
  rcases hc.owes k hk with hcovers | ⟨howed, hnot⟩
  · exact .inl hcovers
  · rcases howes k howed with rfl | hbefore
    · exact absurd rfl hnot
    · exact .inr hbefore

/-- A call writes its record, of which the buffer lets `n` more through, and enters the loop. -/
theorem Shard.advances_write {s : Shard} (hs : s.Valid) (hg : s.gens.Valid) (payload : Payload)
    (n : ℕ) (d : Disk) :
    Advances s (.writing payload)
      ((Shard.spill { s with records := s.records ++ [payload] } n).commit s.pendingGen d).1
      (.commit s.tail
        ((Shard.spill { s with records := s.records ++ [payload] } n).commit s.pendingGen d).2)
      := by
  have htail : Shard.tail { s with records := s.records ++ [payload] } = s.tail + 1 := by
    simp [Shard.tail]
  have hv : Shard.Valid { s with records := s.records ++ [payload] } :=
    ⟨hs.synced, hs.durable, by rw [htail]; exact hs.flushed.trans (Nat.le_succ _)⟩
  have hgens : (Shard.spill { s with records := s.records ++ [payload] } n).gens =
      { s.gens with tail := s.tail + 1, durable := s.synced } := by
    simp [Shard.gens, Shard.spill, Shard.tail]
  have hrounds : Step s.gens .outside
      (Shard.spill { s with records := s.records ++ [payload] } n).gens
      (.member s.pendingGen (s.tail + 1)) := by
    rw [hgens]
    exact (Step.grow (Nat.le_succ _) (le_refl _)).trans (.enter _)
  refine Advances.commit (a := .writing payload) (hv.spill n).1 hrounds
    (hrounds.own hg trivial).2 (.inl rfl) ?_ d
  intro k hk
  have hlt : k < s.tail + 1 := htail ▸ hk.counted
  rcases Nat.lt_succ_iff_lt_or_eq.mp hlt with hlt | rfl
  · exact .inr ⟨⟨hk.unsynced, hlt, hk.pending⟩, fun hcovers => hcovers⟩
  · exact .inl rfl

/-- **What a step of `Append` does to the rounds**, whatever the disk does. -/
theorem Appending.step_rounds {s s' : Shard} {d : Disk} {payload : Payload} {a a' : Appending}
    (hs : s.Valid) (hg : s.gens.Valid) (hvalid : a.Valid s payload) (ha : a.Sound s)
    (hstep : a.step s d = some (s', a')) : Advances s a s' a' := by
  have hquiet : ∀ {payload : Payload} {s' : Shard} {err : ShardError}, s'.gens = s.gens →
      s'.syncErr = s.syncErr → Advances s (.writing payload) s' (.failed err) := by
    intro payload s' err hgens herr
    refine .still ⟨trivial, by rintro _ _ _ _ ⟨⟩, by rintro _ ⟨⟩⟩ hgens rfl (by rintro _ ⟨⟩) ?_
    intro k hk
    simp only [Shard.gens, Gens.mk.injEq] at hgens
    exact ⟨hgens.2.2.2.2 ▸ hk.unsynced, hgens.2.2.2.1 ▸ hk.counted,
      hgens.2.2.1 ▸ herr ▸ hk.pending⟩
  cases a with
  | writing payload =>
    rw [Appending.step] at hstep
    split at hstep
    · cases hstep
      exact hquiet rfl rfl
    · split at hstep
      · cases hstep
        exact hquiet rfl rfl
      · split at hstep
        · rename_i n _
          cases hstep
          exact s.advances_write hs hg payload n d
        · cases hstep
          exact hquiet rfl rfl
  | committing off c =>
    obtain ⟨⟨s₁, c'⟩, hc, heq⟩ := Option.map_eq_some_iff.mp hstep
    cases heq
    cases c with
    | waiting gen =>
      have heq : s.commit gen d = (s₁, c') := Option.some.inj hc
      have hadv := Shard.advances_commit hs ha.rounds d
      rwa [heq] at hadv
    | fsyncing gen syncingGen flushedTail =>
      rw [Commit.step] at hc
      split at hc <;> cases hc <;>
        exact .still ha rfl rfl (by rintro _ ⟨⟩) fun k hk => ⟨hk.1, hk.2, hk.3⟩
    | synced gen syncingGen flushedTail =>
      -- The round ends, and the call goes round the loop again.
      have hsyncer : s.gens.Syncer gen (off + 1) syncingGen flushedTail := ha.rounds
      have hahead := ha.ahead _ _ _ _ rfl
      have hdur : flushedTail ≤ s.durable := hvalid.2
      have hrounds : Step s.gens (.syncer gen (off + 1) syncingGen flushedTail)
          { s.gens with synced := syncingGen, syncing := false, durable := flushedTail }
          (.member gen (off + 1)) :=
        (Step.grow (le_refl _) hahead).trans (.finish (le_refl _))
      obtain ⟨-, hmember⟩ := hrounds.own hg hsyncer
      have hv : Shard.Valid { s with
          syncedGen := syncingGen, synced := flushedTail, syncErr := none, syncing := false } :=
        ⟨hdur, hs.durable, hs.flushed⟩
      have hadv := Advances.commit (a := .committing off (.synced gen syncingGen flushedTail))
        hv hrounds hmember (.inr ⟨hahead, _, _, _, _, rfl⟩) (fun k hk => .inr
          ⟨⟨hahead.trans hk.unsynced, hk.counted, .inr hsyncer.running⟩,
            not_lt.mpr hk.unsynced⟩) d
      rwa [Option.some.inj hc] at hadv
    | failed gen syncingGen flushedTail =>
      cases hc
      exact .leave .abandon rfl rfl (by rintro _ ⟨⟩)
        fun k hk => (hk.false_of_failed rfl rfl).elim
    | returned err => cases hc
  | returned off => cases hstep
  | failed err => cases hstep

/-! ## Rounds that do not fail -/

/-- The sync of the round that the call runs has failed. -/
def Appending.Failing : Appending → Prop
  | .committing _ (.failed _ _ _) => True
  | _ => False

/-- The step flushes a writer that has failed. -/
def Appending.FlushesBroken (s : Shard) : Appending → Prop
  | .committing _ (.waiting gen) => s.syncedGen < gen ∧ s.syncing = false ∧ s.broken = true
  | .committing _ (.synced gen syncingGen _) => syncingGen < gen ∧ s.broken = true
  | _ => False

instance (s : Shard) (a : Appending) : Decidable (a.FlushesBroken s) := by
  unfold Appending.FlushesBroken
  split <;> infer_instance

/-- What a step of a call does when no flush and no sync fails. -/
structure Appending.Keeps (s : Shard) (d : Disk) (a : Appending) (s' : Shard) (a' : Appending) :
    Prop where
  syncErr : s'.syncErr = none
  noFailure : ¬ a'.Failing
  /-- The call keeps its offset, or its record is counted and it gets one. -/
  offset : (s'.tail = s.tail ∧ a'.offset = a.offset) ∨
    (s'.tail = s.tail + 1 ∧ a.offset = none ∧ a'.offset = some s.tail)
  broken : d.write.isOk = true → s'.broken = s.broken

section
variable {s s' : Shard} {d : Disk} {a a' : Appending} {off : ℕ} (h : Appending.Keeps s d a s' a')
include h

/-- An offset that a call holds after a step is one it had, or the tail. -/
theorem Appending.Keeps.offset_cases (hoff : a'.offset = some off) :
    a.offset = some off ∨ off = s.tail := by
  rcases h.offset with ⟨-, heq⟩ | ⟨-, -, heq⟩
  · exact .inl (heq ▸ hoff)
  · exact .inr (Option.some.inj (hoff.symm.trans heq))

/-- An offset that is counted is that of the call, or was counted before as that of another. -/
theorem Appending.Keeps.counted (hlt : off < s'.tail) :
    a'.offset = some off ∨ (off < s.tail ∧ a.offset ≠ some off) := by
  rcases h.offset with ⟨htail, heq⟩ | ⟨htail, hnone, hnew⟩
  · rw [heq]
    exact (em _).imp_right fun hne => ⟨htail ▸ hlt, hne⟩
  · rcases Nat.lt_succ_iff_lt_or_eq.mp (htail ▸ hlt) with hlt | rfl
    · exact .inr ⟨hlt, by simp [hnone]⟩
    · exact .inl hnew

end

/-- A round that does not flush a writer that has failed. -/
theorem Shard.commit_keeps {s : Shard} (gen off : ℕ) {d : Disk} (hs : s.syncErr = none)
    (hbroken : s.syncedGen < gen → s.syncing = false → s.broken = false)
    (hd : d.flush.isOk = true) :
    (s.commit gen d).1.syncErr = none ∧
      ¬ (Appending.commit off (s.commit gen d).2).Failing ∧ (s.commit gen d).1.tail = s.tail ∧
      (Appending.commit off (s.commit gen d).2).offset = some off ∧
      (s.commit gen d).1.broken = s.broken := by
  unfold Shard.commit
  split
  · rw [hs]
    exact ⟨rfl, fun h => h, rfl, rfl, rfl⟩
  · rename_i hgen
    split
    · exact ⟨hs, fun h => h, rfl, rfl, rfl⟩
    · rename_i hidle
      rw [if_neg (by simp [hbroken (not_le.mp hgen) (Bool.eq_false_iff.mpr hidle)])]
      cases hflush : d.flush with
      | error n => simp [hflush, Outcome.isOk] at hd
      | ok n => exact ⟨hs, fun h => h, rfl, rfl, rfl⟩

/-- **A step of a call** when no flush and no sync fails. -/
theorem Appending.step_keeps {s s' : Shard} {d : Disk} {a a' : Appending} (hs : s.syncErr = none)
    (ha : ¬ a.Failing) (hflush : d.flush.isOk = true)
    (hfsync : d.fsync.isOk = true) (hbroken : ¬ a.FlushesBroken s)
    (hstep : a.step s d = some (s', a')) : Appending.Keeps s d a s' a' := by
  cases a with
  | writing payload =>
    simp only [Appending.step] at hstep
    split at hstep
    · cases hstep
      exact ⟨hs, fun h => h, .inl ⟨rfl, rfl⟩, fun _ => rfl⟩
    · split at hstep
      · cases hstep
        exact ⟨hs, fun h => h, .inl ⟨rfl, rfl⟩, fun _ => rfl⟩
      · rename_i hworks
        split at hstep
        · rename_i n _
          obtain ⟨hsync, hno, htail, hoff, hwriter⟩ := Shard.commit_keeps
            (s := Shard.spill { s with records := s.records ++ [payload] } n)
            s.pendingGen s.tail hs (fun _ _ => Bool.eq_false_iff.mpr hworks) hflush
          cases hstep
          refine ⟨hsync, hno, .inr ⟨?_, rfl, hoff⟩, fun _ => hwriter⟩
          exact htail.trans (by simp [Shard.tail, Shard.spill])
        · rename_i hw
          cases hstep
          exact ⟨hs, fun h => h, .inl ⟨rfl, rfl⟩, fun hok => by simp [hw, Outcome.isOk] at hok⟩
  | committing off c =>
    obtain ⟨⟨s₁, c'⟩, hc, heq⟩ := Option.map_eq_some_iff.mp hstep
    cases heq
    cases c with
    | waiting gen =>
      obtain ⟨hsync, hno, htail, hoff, hwriter⟩ := Shard.commit_keeps gen off hs
        (fun hgen hidle => by
          by_contra hworks
          exact hbroken ⟨hgen, hidle, eq_true_of_ne_false hworks⟩) hflush
      rw [Option.some.inj hc] at hsync hno htail hoff hwriter
      exact ⟨hsync, hno, .inl ⟨htail, hoff⟩, fun _ => hwriter⟩
    | fsyncing gen syncingGen flushedTail =>
      rw [Commit.step] at hc
      cases hsync : d.fsync with
      | error n => simp [hsync, Outcome.isOk] at hfsync
      | ok n =>
        simp only [hsync, Option.some.injEq] at hc
        cases hc
        exact ⟨hs, fun h => h, .inl ⟨rfl, rfl⟩, fun _ => rfl⟩
    | synced gen syncingGen flushedTail =>
      obtain ⟨hsync, hno, htail, hoff, hwriter⟩ := Shard.commit_keeps (s := { s with
          syncedGen := syncingGen, synced := flushedTail, syncErr := none, syncing := false })
        gen off rfl
        (fun hgen _ => by
          by_contra hworks
          exact hbroken ⟨hgen, eq_true_of_ne_false hworks⟩) hflush
      rw [Option.some.inj hc] at hsync hno htail hoff hwriter
      exact ⟨hsync, hno, .inl ⟨htail, hoff⟩, fun _ => hwriter⟩
    | failed gen syncingGen flushedTail => exact absurd trivial ha
    | returned err => cases hc
  | returned off => cases hstep
  | failed err => cases hstep

end AgentBus.Cluster
