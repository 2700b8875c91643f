import AgentBus.Cluster.Replication
import Mathlib.Data.Nat.PSub

/-!
# An acknowledgement means durable

`Append` raises the tail before its record is synced, and does not lower it when the sync fails.
Both the acknowledgement of a follower and the leader's entry for itself are read off the tail,
and a subscription first sends whatever is in the file.  So an offset in a high-water mark can
exceed what its node has synced (`recorded_before_durable`).

If the last record an offset counts is in the hands of no call of `Append` when the offset is read,
and the last round of the node did not fail, then whatever is recorded is durable
(`recorded_durable`): a record that is not synced is in the hands of some call, unless a round has
failed (`cluster_covered`).  A record a subscription sends after its backfill is always durable.

## Main definitions

* `Durable` — a node has synced its first records.
* `readsQuiet` — the condition.
* `durabilityGuard` — what it comes to.
-/

namespace AgentBus.Cluster

open Pool

/-- Node `id` has synced its first `k` records. -/
def Durable (s : State) (_m id : String) (k : ℕ) : Prop := k ≤ (s.shard id).durable

namespace Durable

variable {s s' : State} {m id : String} {k k' : ℕ}

theorem zero (s : State) (m id : String) : Durable s m id 0 := Nat.zero_le _

theorem grows (hg : s.Grows s') (h : Durable s m id k) : Durable s' m id k :=
  le_trans h (hg id).durable

theorem down (hle : k ≤ k') (h : Durable s m id k') : Durable s m id k := le_trans hle h

end Durable

/-- The thread has record `k` of node `n` in its hands. -/
def Thread.Covers (n : String) (k : ℕ) (t : Thread) : Prop :=
  ∃ r ∈ t.append?, r.1 = n ∧ r.2.Covers k

instance Thread.decidableCovers (n : String) (k : ℕ) (t : Thread) : Decidable (t.Covers n k) :=
  inferInstanceAs (Decidable (∃ r ∈ t.append?, r.1 = n ∧ r.2.Covers k))

/-- The last record that is counted by the offset a step reads for a mark, with its node.  What a
subscription sends after its backfill is left out. -/
def Thread.counts (s : State) : Thread → Choice → Option (String × ℕ)
  | .starting n, .go => (s.shard n).tail.ppred.map fun k => (n, k)
  | .tracking n (.backfill next), .go =>
    if next < (s.shard n).flushed then some (n, next) else none
  | .session _ follower _ .acking _, .go => (s.shard follower).tail.ppred.map fun k => (follower, k)
  | _, _ => none

/-- An offset is read for a mark only while no call of `Append` has the last record it counts in
its hands, and if the last round of the node did not fail. -/
def readsQuiet (w : World State Thread) : Act Request Choice EnvStep → Prop
  | .run i c => ∀ t ∈ w.threads[i]?, ∀ r ∈ t.counts w.shared c,
      (w.shared.shard r.1).syncErr = none ∧ ∀ u ∈ w.threads, ¬ u.Covers r.1 r.2
  | _ => True

instance (w : World State Thread) : ∀ a, Decidable (readsQuiet w a)
  | .run i c => inferInstanceAs (Decidable (∀ t ∈ w.threads[i]?, ∀ r ∈ t.counts w.shared c,
      (w.shared.shard r.1).syncErr = none ∧ ∀ u ∈ w.threads, ¬ u.Covers r.1 r.2))
  | .spawn _ => inferInstanceAs (Decidable True)
  | .env _ => inferInstanceAs (Decidable True)

/-! ## The rounds of every node -/

/-- The call of a thread is where the rounds of its node allow it to be. -/
def Thread.Sound (s : State) (t : Thread) : Prop :=
  ∀ n a, t.append? = some (n, a) → a.Sound (s.shard n)

/-- The calls of two threads at one node are compatible. -/
def Thread.Compatible (t u : Thread) : Prop :=
  ∀ n a b, t.append? = some (n, a) → u.append? = some (n, b) → a.role.Compatible b.role

section

variable {G : Guard State Thread Choice EnvStep} {files : String → List Payload}
  {w : World State Thread} (h : cluster.Reach G (State.init files) w)

include h

/-- **The invariant of the rounds.** -/
theorem cluster_rounds :
    Holds (fun s => s.Valid ∧ ∀ n, (s.shard n).gens.Valid) (fun s t => t.Valid s ∧ t.Sound s)
      Thread.Compatible w := by
  refine Program.Reach.local_invariant ?_ ?_ ?_ ?_ ?_ h
  · exact fun t u htu n a b ha hb => (htu n b a hb ha).symm
  · exact ⟨State.valid_init files, fun n => Nat.zero_lt_one⟩
  · intro s r _
    cases r <;> exact ⟨⟨trivial, by rintro _ _ ⟨⟩⟩, fun u _ => by rintro _ _ _ ⟨⟩⟩
  · intro s t c s' t' hs ht _ hstep
    have spec := Thread.step_spec hs.1 ht.1 hstep
    cases Thread.step_logs hstep with
    | quiet hshard happend hended =>
      refine ⟨⟨⟨spec.valid, fun n => by rw [hshard]; exact hs.2 n⟩, spec.thread, ?_⟩, ?_⟩
      · intro n a ha
        rw [hshard]
        rcases happend n a ha with ha | ⟨payload, rfl⟩
        · exact ht.2 n a ha
        · exact ⟨trivial, by rintro _ _ _ _ ⟨⟩, by rintro _ ⟨⟩⟩
      · intro u hu hpair
        refine ⟨⟨spec.grows.thread hu.1, fun n a ha => hshard n ▸ hu.2 n a ha⟩, ?_⟩
        intro n a b ha hb
        rcases happend n a ha with ha | ⟨payload, rfl⟩
        · exact hpair n a b ha hb
        · exact .outside _
    | append n a a' d sh _ hbefore hcall hshared hafter =>
      obtain ⟨payload, hvalid⟩ := ht.1.append? hbefore
      have hadv := Appending.step_rounds (hs.1 n) (hs.2 n) hvalid (ht.2 n a hbefore) hcall
      obtain ⟨hgens, hsound⟩ := hadv.own (hs.2 n) (ht.2 n a hbefore)
      subst hshared
      refine ⟨⟨⟨spec.valid, fun m => ?_⟩, spec.thread, fun m b hb => ?_⟩, fun u hu hpair => ?_⟩
      · rw [State.shard_setShard]
        split
        · exact hgens
        · exact hs.2 m
      · rw [hafter] at hb
        cases hb
        rw [State.shard_setShard, if_pos rfl]
        exact hsound
      · have hbeside : ∀ b, u.append? = some (n, b) → b.Sound sh ∧ a'.role.Compatible b.role :=
          fun b hb => hadv.beside (hs.2 n) (ht.2 n a hbefore) (hu.2 n b hb)
            (hpair n a b hbefore hb)
        refine ⟨⟨spec.grows.thread hu.1, fun m b hb => ?_⟩, fun m a₁ b ha₁ hb => ?_⟩
        · rw [State.shard_setShard]
          split
          · rename_i hm
            exact (hbeside b (hm ▸ hb)).1
          · exact hu.2 m b hb
        · rw [hafter] at ha₁
          cases ha₁
          exact (hbeside b hb).2
  · intro s e s' hs _ hstep
    cases hstep
    have hg := s.grows_setLeads e.node e.leads
    refine ⟨⟨fun n => by simpa using hs.1 n, fun n => by simpa using hs.2 n⟩, fun u hu => ?_⟩
    exact ⟨hg.thread hu.1, fun n a ha => by simpa using hu.2 n a ha⟩

/-- A record that is not synced is in the hands of a call, unless a round has failed. -/
theorem cluster_covered {n : String} {k : ℕ} (hk : (w.shared.shard n).Owes k) :
    ∃ t ∈ w.threads, t.Covers n k := by
  refine Program.Reach.served (fun s (r : String × ℕ) => (s.shard r.1).Owes r.2)
    (fun t r => t.Covers r.1 r.2) (fun w hw => cluster_rounds hw) ?_ ?_ ?_ h (n, k) hk
  · exact fun r hr => absurd hr.counted (not_lt.mpr hr.unsynced)
  · rintro s t c s' t' ⟨n, k⟩ hs ht _ hstep howed
    cases Thread.step_logs hstep with
    | quiet hshard hstarted hended =>
      rw [hshard] at howed
      by_cases hcovers : t.Covers n k
      · obtain ⟨⟨m, a⟩, ha, rfl, hcovers⟩ := hcovers
        rcases hended _ a ha with ha' | hrole
        · exact .inl ⟨(m, a), ha', rfl, hcovers⟩
        · rw [Appending.Covers, hrole] at hcovers
          exact hcovers.elim
      · exact .inr ⟨howed, hcovers⟩
    | append m a a' d sh _ hbefore hcall hshared hafter =>
      have honly : t.Covers n k → m = n ∧ a.Covers k := by
        rintro ⟨r, hr, rfl, hcovers⟩
        cases hbefore.symm.trans hr
        exact ⟨rfl, hcovers⟩
      rw [hshared, State.shard_setShard] at howed
      split at howed
      · rename_i hn
        obtain ⟨payload, hvalid⟩ := ht.1.append? hbefore
        have hadv := Appending.step_rounds (hs.1 m) (hs.2 m) hvalid (ht.2 m a hbefore) hcall
        rcases hadv.owes k howed with hcovers | ⟨howed, hnot⟩
        · exact .inl ⟨(m, a'), hafter, hn.symm, hcovers⟩
        · exact .inr ⟨hn ▸ howed, fun hcovers => hnot (honly hcovers).2⟩
      · rename_i hn
        exact .inr ⟨howed, fun hcovers => hn (honly hcovers).1.symm⟩
  · intro s e s' r _ _ hstep howed
    cases hstep
    simpa using howed

end

/-! ## What is read for a mark -/

/-- Whether a reader is still in its backfill, at this offset. -/
def Cursor.backfilling : Cursor → Option ℕ
  | .backfill next => some next
  | _ => none

/-- The tail is read for a mark only while all its records are durable, and the backfill of the
leader's own subscription sends only durable records. -/
def durabilityGuard : Guard State Thread Choice EnvStep where
  thread s t c :=
    match t, c with
    | .starting n, .go => (s.shard n).tail ≤ (s.shard n).durable
    | .tracking n cursor, .go =>
      ∀ next ∈ cursor.backfilling, next < (s.shard n).flushed → next < (s.shard n).durable
    | .session _ follower _ .acking _, .go => (s.shard follower).tail ≤ (s.shard follower).durable
    | _, _ => True
  env _ _ := True

/-- A record sent by a reader under the condition is durable. -/
theorem Cursor.sent_durable {s : Shard} {cursor cursor' : Cursor} {off : ℕ} {payload : Payload}
    (hvalid : cursor.Valid s)
    (hG : ∀ next ∈ cursor.backfilling, next < s.flushed → next < s.durable)
    (hstep : cursor.step s = some (cursor', some (off, payload))) : off < s.durable := by
  cases cursor with
  | backfill next =>
    rw [Cursor.step] at hstep
    split at hstep
    · rename_i hread
      cases hstep
      refine hG off rfl ?_
      have hlt := (List.getElem?_eq_some_iff.mp hread).1
      rw [Shard.file, List.length_take] at hlt
      omega
    · cases hstep
  | live next =>
    rw [Cursor.step] at hstep
    split at hstep <;> cases hstep
  | tailing next currentTail =>
    rw [Cursor.step] at hstep
    split at hstep
    · rename_i hlt
      split at hstep
      · cases hstep
        exact lt_of_lt_of_le hlt hvalid
      · cases hstep
    · cases hstep

/-- What is read for a mark under the condition. -/
theorem Durable.reports {s : State} {t : Thread} {c : Choice} {m id : String} {k : ℕ}
    (ht : t.Valid s) (hG : durabilityGuard.thread s t c) (h : t.Reports s m id k c) :
    Durable s m id k := by
  unfold Thread.Reports at h
  split at h
  · obtain ⟨rfl, rfl, rfl⟩ := h
    exact hG
  · obtain ⟨rfl, rfl, cursor', off, payload, hstep, rfl⟩ := h
    exact Cursor.sent_durable ht hG hstep
  · obtain ⟨rfl, rfl, rfl⟩ := h
    exact hG
  · exact h.elim

/-- Under the condition what is counted is synced. -/
theorem lt_synced_of_quiet {G : Guard State Thread Choice EnvStep} {files : String → List Payload}
    {w : World State Thread} (h : cluster.Reach G (State.init files) w) {n : String} {k : ℕ}
    (hquiet : (w.shared.shard n).syncErr = none ∧ ∀ u ∈ w.threads, ¬ u.Covers n k)
    (hk : k < (w.shared.shard n).tail) : k < (w.shared.shard n).synced := by
  by_contra hge
  obtain ⟨u, hu, hcovers⟩ := cluster_covered h ⟨not_lt.mp hge, hk, .inl hquiet.1⟩
  exact hquiet.2 u hu hcovers

theorem allows_of_readsQuiet {files : String → List Payload} (w : World State Thread)
    (a : Act Request Choice EnvStep) (h : cluster.Reach durabilityGuard (State.init files) w)
    (hquiet : readsQuiet w a) : durabilityGuard.Allows w a := by
  have hvalid := (cluster_rounds h).shared.1
  -- A tail that is read under the condition is durable.
  have htail : ∀ n, (∀ r ∈ (w.shared.shard n).tail.ppred.map fun k => (n, k),
      (w.shared.shard r.1).syncErr = none ∧ ∀ u ∈ w.threads, ¬ u.Covers r.1 r.2) →
      (w.shared.shard n).tail ≤ (w.shared.shard n).durable := by
    intro n hn
    cases hpred : (w.shared.shard n).tail.ppred with
    | none => rw [Nat.ppred_eq_none.mp hpred]; exact Nat.zero_le _
    | some k =>
      have hsucc := Nat.ppred_eq_some.mp hpred
      have hlt := lt_synced_of_quiet h (hn (n, k) (by simp [hpred]))
        (show k < (w.shared.shard n).tail by omega)
      rw [← hsucc]
      exact hlt.trans_le (hvalid n).synced
  cases a with
  | spawn r => trivial
  | env e => trivial
  | run i c =>
    intro t ht
    have hreads := hquiet t ht
    unfold durabilityGuard
    dsimp only
    split
    · exact htail _ hreads
    · rename_i n cursor
      intro next hnext hflushed
      cases cursor <;> cases hnext
      have hlt := lt_synced_of_quiet h (hreads (n, next) (by simp [Thread.counts, hflushed]))
        (hflushed.trans_le (hvalid n).flushed)
      exact hlt.trans_le (hvalid n).synced
    · exact htail _ hreads
    · trivial

/-- **An acknowledgement means durable.**  In every run, with writes, flushes and syncs that may
fail, in which an offset is read for a mark only while no call of `Append` has the last record it
counts in its hands, and if the last round of the node did not fail: every offset in a high-water
mark is at most the number of records its node has synced. -/
theorem recorded_durable (files : String → List Payload) (w : World State Thread)
    (h : cluster.Runs readsQuiet ⟨State.init files, []⟩ w) (m id : String) (k : ℕ)
    (hk : (id, k) ∈ (w.shared.hwm m).offsets) : k ≤ (w.shared.shard id).durable := by
  have hinit : Recorded Durable (State.init files) := by
    intro m id k hk
    rcases State.mem_offsets_init hk with rfl | ⟨rfl, rfl⟩
    · exact Nat.zero_le _
    · exact le_refl _
  have hholds := recorded_sound Durable.zero (fun _ _ _ _ _ => Durable.down)
    (fun _ _ _ _ _ => Durable.grows) (fun _ _ _ _ _ _ _ => Durable.reports)
    (State.valid_init files) hinit (h.toReach fun w a _ => allows_of_readsQuiet w a)
  exact hholds.shared.2 m id k hk

/-! ## Two streams to one follower -/

/-- Node `a` leads with follower `b` and publishes, and two of its streams to `b` are open: the
first appends the record and is in `fsync` when the second skips it and acknowledges. -/
def twoStreams : List (Act Request Choice EnvStep) :=
  leadOn 0 "a" ["b"] ++ publishOn 2 "a" [1] ++ goOn 1 2 ++
    [.spawn (.replicate "a" "b"), .spawn (.replicate "a" "b")] ++
    goOn 3 3 ++ [.run 3 (.disk .healthy)] ++ goOn 4 4 ++ [.run 4 .ack]

/-- One stream, which acknowledges after its append has returned. -/
def oneStream : List (Act Request Choice EnvStep) :=
  leadOn 0 "a" ["b"] ++ publishOn 2 "a" [1] ++ goOn 1 2 ++
    [.spawn (.replicate "a" "b")] ++ goOn 3 3 ++ appendOn 3 ++ goOn 3 2 ++ [.run 3 .ack]

/-- The mark of `a` counts a record that `b` has not synced. -/
theorem recorded_before_durable :
    ∃ w, cluster.Reach Guard.all (State.init fun _ => []) w ∧
      (w.shared.hwm "a").offsets = [("a", 1), ("b", 1)] ∧ (w.shared.shard "b").durable = 0 := by
  have hrun : (cluster.exec ⟨State.init fun _ => [], []⟩ twoStreams).map
      (fun w => ((w.shared.hwm "a").offsets, (w.shared.shard "b").durable)) =
        some ([("a", 1), ("b", 1)], 0) := by
    decide +kernel
  obtain ⟨w, hw, heq⟩ := Program.exists_reach hrun
  rw [Prod.mk.injEq] at heq
  exact ⟨w, hw, heq.1, heq.2⟩

/-- A run under the condition in which a follower's record is counted, and durable. -/
theorem recorded_durable_plain :
    ∃ w, cluster.Runs readsQuiet ⟨State.init fun _ => [], []⟩ w ∧
      (w.shared.hwm "a").offsets = [("a", 1), ("b", 1)] ∧ 1 ≤ (w.shared.shard "b").durable := by
  have hrun : (cluster.execIf readsQuiet ⟨State.init fun _ => [], []⟩ oneStream).map
      (fun w => (w.shared.hwm "a").offsets) = some [("a", 1), ("b", 1)] := by
    decide +kernel
  obtain ⟨w, hw, heq⟩ := Option.map_eq_some_iff.mp hrun
  have hruns := Program.Runs.refl.execIf _ hw
  refine ⟨w, hruns, heq, ?_⟩
  exact recorded_durable _ w hruns "a" "b" 1 (by rw [heq]; simp)

end AgentBus.Cluster
