import Mathlib.Data.List.Dedup
import Mathlib.Data.List.Induction
import Mathlib.Order.Bounds.Basic

/-!
# The high-water mark of a shard

`internal/cluster/shardwal/hwm.go`: the offsets the replicas of a shard have acknowledged, and
the least of them, which a publisher waits for.

The source keeps the offsets in a map; here they are a list of pairs, one per replica.

What a whole run of calls leaves is said by the history alone (`high_water_mark_law`): the offset of
a replica is the largest acknowledgement since it was last added.

## Main definitions

* `HighWaterMark` — the state, with the mark tied to the offsets.
* `HighWaterMark.setReplicas`, `HighWaterMark.update` — the operations.
* `HighWaterMark.run` — sequences of them.
* `HighWaterMark.waitFor` — a publisher that waits for the mark.
* `HighWaterMark.TrackedSince` — how long a replica has been tracked.
-/

namespace AgentBus.Cluster

/-- `recomputeLocked`: the least offset, 0 when there is none. -/
def lowest : List (String × ℕ) → ℕ
  | [] => 0
  | p :: ps => ps.foldl (fun low q => min low q.2) p.2

theorem foldl_min_le (ps : List (String × ℕ)) (low : ℕ) :
    ps.foldl (fun low q => min low q.2) low ≤ low ∧
      ∀ q ∈ ps, ps.foldl (fun low q => min low q.2) low ≤ q.2 := by
  induction ps generalizing low with
  | nil => simp
  | cons p ps ih =>
    obtain ⟨hlow, hmem⟩ := ih (min low p.2)
    rw [List.foldl_cons]
    refine ⟨by omega, ?_⟩
    intro q hq
    rcases List.mem_cons.mp hq with rfl | hq
    · omega
    · exact hmem q hq

/-- The least offset is below every offset. -/
theorem lowest_le {ps : List (String × ℕ)} {q : String × ℕ} (h : q ∈ ps) : lowest ps ≤ q.2 := by
  cases ps with
  | nil => simp at h
  | cons p ps =>
    rcases List.mem_cons.mp h with rfl | h
    · exact (foldl_min_le ps _).1
    · exact (foldl_min_le ps _).2 q h

/-- `HighWaterMark`. -/
structure HighWaterMark where
  selfID : String
  offsets : List (String × ℕ)
  current : ℕ
  current_eq : current = lowest offsets

namespace HighWaterMark

/-- `NewHWM`. -/
def new (selfID : String) : HighWaterMark := ⟨selfID, [(selfID, 0)], 0, rfl⟩

/-- The replicas that are tracked. -/
def replicas (h : HighWaterMark) : List String := h.offsets.map Prod.fst

/-- The offsets, with the mark computed again. -/
def withOffsets (h : HighWaterMark) (offsets : List (String × ℕ)) : HighWaterMark :=
  ⟨h.selfID, offsets, lowest offsets, rfl⟩

/-- `SetReplicas`: track exactly these replicas and self; a new one starts at 0. -/
def setReplicas (h : HighWaterMark) (ids : List String) : HighWaterMark :=
  h.withOffsets ((h.selfID :: ids).dedup.map fun id => (id, (h.offsets.lookup id).getD 0))

/-- `Update`: a larger offset of a tracked replica is recorded. -/
def update (h : HighWaterMark) (replicaID : String) (offset : ℕ) : HighWaterMark :=
  match h.offsets.lookup replicaID with
  | none => h
  | some cur =>
    if cur < offset then
      h.withOffsets (h.offsets.map fun p => if p.1 = replicaID then (p.1, offset) else p)
    else h

variable {h : HighWaterMark} {id : String} {k : ℕ}

/-- What is tracked after `SetReplicas` was tracked before, or starts at 0. -/
theorem mem_setReplicas {ids : List String} (hmem : (id, k) ∈ (h.setReplicas ids).offsets) :
    k = 0 ∨ (id, k) ∈ h.offsets := by
  obtain ⟨id', -, heq⟩ := List.mem_map.mp hmem
  cases heq
  cases hl : h.offsets.lookup id with
  | none => exact .inl rfl
  | some k' =>
    obtain ⟨l₁, l₂, heq, -⟩ := List.lookup_eq_some_iff.mp hl
    refine .inr ?_
    rw [heq]
    simp

/-- `SetReplicas` tracks self and the replicas it is given, and no other. -/
@[simp] theorem mem_replicas_setReplicas {ids : List String} :
    id ∈ (h.setReplicas ids).replicas ↔ id = h.selfID ∨ id ∈ ids := by
  simp [replicas, setReplicas, withOffsets]

@[simp] theorem selfID_update (replicaID : String) (offset : ℕ) :
    (h.update replicaID offset).selfID = h.selfID := by
  unfold update
  split
  · rfl
  · split <;> rfl

@[simp] theorem replicas_update (replicaID : String) (offset : ℕ) :
    (h.update replicaID offset).replicas = h.replicas := by
  unfold update
  split
  · rfl
  · split
    · refine (List.map_map ..).trans (List.map_congr_left ?_)
      intro p _
      simp only [Function.comp_apply]
      split <;> rfl
    · rfl

/-- What is recorded after `Update` was recorded before, or is the update. -/
theorem mem_update {replicaID : String} {offset : ℕ}
    (hmem : (id, k) ∈ (h.update replicaID offset).offsets) :
    (id, k) ∈ h.offsets ∨ (id = replicaID ∧ k = offset) := by
  unfold update at hmem
  split at hmem
  · exact .inl hmem
  · split at hmem
    · obtain ⟨⟨id', k'⟩, hp, heq⟩ := List.mem_map.mp hmem
      by_cases hid : id' = replicaID
      · rw [if_pos hid] at heq
        cases heq
        exact .inr ⟨hid, rfl⟩
      · rw [if_neg hid] at heq
        cases heq
        exact .inl hp
    · exact .inl hmem

/-- Every tracked replica has acknowledged the mark. -/
theorem current_le_of_mem (hmem : (id, k) ∈ h.offsets) : h.current ≤ k := by
  rw [h.current_eq]
  exact lowest_le hmem

/-! ## Sequences of calls -/

/-- `Mark`. -/
def mark (h : HighWaterMark) : ℕ := h.current

/-- A call that changes the state. -/
inductive Op where
  | setReplicas (ids : List String)
  | update (replicaID : String) (offset : ℕ)
  deriving DecidableEq, Repr

/-- The offset a call acknowledges for a replica. -/
def Op.ack (id : String) : Op → Option ℕ
  | setReplicas _ => none
  | update replicaID offset => if replicaID = id then some offset else none

def step (h : HighWaterMark) : Op → HighWaterMark
  | .setReplicas ids => h.setReplicas ids
  | .update replicaID offset => h.update replicaID offset

/-- Calls one after the other. -/
def run (h : HighWaterMark) (ops : List Op) : HighWaterMark := ops.foldl step h

/-- What the end of a context is reported as. -/
inductive ContextError where
  | canceled
  | deadlineExceeded
  deriving DecidableEq, Repr

/-- `WaitFor`.  Each element of the schedule is one `cond.Wait`: the calls that are made while the
lock is released, and what `ctx.Err` is after them.  The result, if it returns, comes with the state
under whose lock it returns. -/
def waitFor (offset : ℕ) (h : HighWaterMark) (ctxErr : Option ContextError) :
    List (List Op × Option ContextError) → Option (Except ContextError Unit) × HighWaterMark
  | [] =>
    if h.current < offset then (ctxErr.map .error, h) else (some (.ok ()), h)
  | (ops, ctxErr') :: waits =>
    if h.current < offset then
      match ctxErr with
      | some e => (some (.error e), h)
      | none => waitFor offset (h.run ops) ctxErr' waits
    else (some (.ok ()), h)

/-- Self is tracked, and no replica twice. -/
structure Sound (selfID : String) (h : HighWaterMark) : Prop where
  selfID_eq : h.selfID = selfID
  tracked : selfID ∈ h.replicas
  nodup : h.replicas.Nodup

section Calls

variable {selfID : String}

theorem mem_of_lookup (hl : h.offsets.lookup id = some k) : (id, k) ∈ h.offsets := by
  obtain ⟨l₁, l₂, heq, -⟩ := List.lookup_eq_some_iff.mp hl
  simp [heq]

theorem Sound.lookup (hs : h.Sound selfID) (hmem : (id, k) ∈ h.offsets) :
    h.offsets.lookup id = some k := by
  cases hl : h.offsets.lookup id with
  | none => simpa using List.lookup_eq_none_iff.mp hl (id, k) hmem
  | some k' =>
    have heq := List.inj_on_of_nodup_map hs.nodup (mem_of_lookup hl) hmem rfl
    rw [(Prod.mk.inj heq).2]

/-- `SetReplicas` keeps the offset of a replica that was tracked. -/
theorem mem_setReplicas_iff {ids : List String} :
    (id, k) ∈ (h.setReplicas ids).offsets ↔
      (id = h.selfID ∨ id ∈ ids) ∧ k = (h.offsets.lookup id).getD 0 := by
  simp only [setReplicas, withOffsets, List.mem_map, List.mem_dedup, List.mem_cons, Prod.mk.injEq]
  constructor
  · rintro ⟨id', hid, rfl, rfl⟩
    exact ⟨hid, rfl⟩
  · rintro ⟨hid, rfl⟩
    exact ⟨id, hid, rfl, rfl⟩

/-- `Update` records the larger of the two offsets, for the replica it is about. -/
theorem Sound.offsets_update (hs : h.Sound selfID) (replicaID : String) (offset : ℕ) :
    (h.update replicaID offset).offsets = h.offsets.map fun p =>
      (p.1, ((Op.update replicaID offset).ack p.1).elim p.2 (max p.2)) := by
  -- an update that is not recorded is no larger, or about a replica that is not tracked
  have hsame (hle : ∀ cur, (replicaID, cur) ∈ h.offsets → offset ≤ cur) :
      h.offsets = h.offsets.map fun p =>
        (p.1, ((Op.update replicaID offset).ack p.1).elim p.2 (max p.2)) := by
    refine ((List.map_congr_left fun p hp => ?_).trans (List.map_id _)).symm
    by_cases hid : replicaID = p.1
    · have hp' : offset ≤ p.2 := hle p.2 (hid ▸ hp)
      simp [Op.ack, hid, hp']
    · simp [Op.ack, hid]
  cases hl : h.offsets.lookup replicaID with
  | none =>
    simp only [update, hl]
    refine hsame fun cur hcur => ?_
    simp [hs.lookup hcur] at hl
  | some cur =>
    simp only [update, hl]
    split
    · rename_i hlt
      refine List.map_congr_left fun p hp => ?_
      by_cases hid : p.1 = replicaID
      · have hcur : p.2 = cur := by
          subst hid
          exact Option.some.inj ((hs.lookup hp).symm.trans hl)
        simp [Op.ack, hid, hcur, hlt.le]
      · simp [Op.ack, hid, Ne.symm hid]
    · rename_i hlt
      refine hsame fun cur' hcur => ?_
      rw [Option.some.inj ((hs.lookup hcur).symm.trans hl)]
      exact not_lt.mp hlt

theorem Sound.mem_update_iff (hs : h.Sound selfID) {replicaID : String} {offset : ℕ} :
    (id, k) ∈ (h.update replicaID offset).offsets ↔
      ∃ k₀, (id, k₀) ∈ h.offsets ∧ k = ((Op.update replicaID offset).ack id).elim k₀ (max k₀) := by
  rw [hs.offsets_update, List.mem_map]
  constructor
  · rintro ⟨⟨id', k₀⟩, hmem, heq⟩
    cases heq
    exact ⟨k₀, hmem, rfl⟩
  · rintro ⟨k₀, hmem, rfl⟩
    exact ⟨(id, k₀), hmem, rfl⟩

theorem sound_new (selfID : String) : (new selfID).Sound selfID :=
  ⟨rfl, by simp [new, replicas], by simp [new, replicas]⟩

/-- **Self stays tracked, and no replica is tracked twice.** -/
theorem Sound.step (hs : h.Sound selfID) (op : Op) : (h.step op).Sound selfID := by
  cases op with
  | setReplicas ids =>
    refine ⟨hs.selfID_eq, mem_replicas_setReplicas.mpr (.inl hs.selfID_eq.symm), ?_⟩
    simp only [HighWaterMark.step, setReplicas, withOffsets, replicas, List.map_map]
    simpa [Function.comp_def] using List.nodup_dedup _
  | update replicaID offset =>
    refine ⟨(selfID_update ..).trans hs.selfID_eq, ?_, ?_⟩
    · simpa [HighWaterMark.step] using hs.tracked
    · simpa [HighWaterMark.step] using hs.nodup

theorem Sound.run (hs : h.Sound selfID) (ops : List Op) : (h.run ops).Sound selfID := by
  induction ops generalizing h with
  | nil => exact hs
  | cons op ops ih => exact ih (hs.step op)

/-! ## The mark -/

theorem lowest_mem {ps : List (String × ℕ)} (hne : ps ≠ []) : ∃ p ∈ ps, p.2 = lowest ps := by
  have hfold (qs : List (String × ℕ)) (p : String × ℕ) :
      ∃ q ∈ p :: qs, q.2 = qs.foldl (fun low q => min low q.2) p.2 := by
    induction qs generalizing p with
    | nil => exact ⟨p, by simp, rfl⟩
    | cons q qs ih =>
      obtain ⟨r, hr, heq⟩ := ih (if p.2 ≤ q.2 then p else q)
      refine ⟨r, ?_, ?_⟩
      · rcases List.mem_cons.mp hr with rfl | hr
        · split <;> simp
        · simp [hr]
      · rw [heq, List.foldl_cons]
        congr 1
        split <;> omega
  obtain ⟨p, qs, rfl⟩ := List.exists_cons_of_ne_nil hne
  exact hfold qs p

/-- **The mark is the least offset.** -/
theorem Sound.isLeast_mark (hs : h.Sound selfID) :
    IsLeast {k | ∃ id, (id, k) ∈ h.offsets} h.mark := by
  constructor
  · have hne : h.offsets ≠ [] := by
      intro hnil
      simpa [replicas, hnil] using hs.tracked
    obtain ⟨⟨id, k⟩, hmem, heq⟩ := lowest_mem hne
    refine ⟨id, ?_⟩
    rw [mark, h.current_eq, ← heq]
    exact hmem
  · rintro k ⟨id, hmem⟩
    exact current_le_of_mem hmem

/-- **The mark falls only when a replica is added.** -/
theorem Sound.mark_le_step (hs : h.Sound selfID) (op : Op) (hlt : (h.step op).mark < h.mark) :
    ∃ ids, op = .setReplicas ids ∧ ∃ id ∈ ids, id ∉ h.replicas := by
  by_contra hnone
  -- every offset after the call is at least one from before
  obtain ⟨id, hmem⟩ := (hs.step op).isLeast_mark.1
  have hold : ∃ k₀, (id, k₀) ∈ h.offsets ∧ k₀ ≤ (h.step op).mark := by
    cases op with
    | setReplicas ids =>
      obtain ⟨hid, heq⟩ := mem_setReplicas_iff.mp hmem
      have htracked : id ∈ h.replicas := by
        rcases hid with rfl | hid
        · exact hs.selfID_eq ▸ hs.tracked
        · by_contra hnot
          exact hnone ⟨ids, rfl, id, hid, hnot⟩
      obtain ⟨⟨id', k₀⟩, hk₀, rfl⟩ := List.mem_map.mp htracked
      rw [hs.lookup hk₀] at heq
      exact ⟨k₀, hk₀, heq.ge⟩
    | update replicaID offset =>
      obtain ⟨k₀, hk₀, heq⟩ := hs.mem_update_iff.mp hmem
      refine ⟨k₀, hk₀, ?_⟩
      rw [heq]
      cases (Op.update replicaID offset).ack id with
      | none => exact le_rfl
      | some o => exact le_max_left ..
  obtain ⟨k₀, hk₀, hle⟩ := hold
  exact absurd hlt (not_lt.mpr ((hs.isLeast_mark.2 ⟨id, hk₀⟩).trans hle))

/-! ## The history of a replica -/

/-- The replica is tracked after the first `n` calls and after each one since, and it was not
tracked before the last of them. -/
structure TrackedSince (selfID : String) (ops : List Op) (id : String) (n : ℕ) : Prop where
  le_length : n ≤ ops.length
  tracked : ∀ m, n ≤ m → m ≤ ops.length → id ∈ ((new selfID).run (ops.take m)).replicas
  added : n = 0 ∨ id ∉ ((new selfID).run (ops.take (n - 1))).replicas

/-- The largest acknowledgement of a replica, 0 when there is none. -/
def largestAck (id : String) (ops : List Op) : ℕ := (ops.filterMap (Op.ack id)).foldl max 0

theorem largestAck_append (id : String) (ops : List Op) (op : Op) :
    largestAck id (ops ++ [op]) =
      (op.ack id).elim (largestAck id ops) (max (largestAck id ops)) := by
  rw [largestAck, List.filterMap_append, List.foldl_append]
  cases hack : op.ack id with
  | none => simp [hack, largestAck]
  | some o => simp [hack, largestAck]

section History

variable {ops : List Op} {op : Op} {n : ℕ}

theorem mem_replicas (hmem : (id, k) ∈ h.offsets) : id ∈ h.replicas :=
  List.mem_map_of_mem (f := Prod.fst) hmem

theorem TrackedSince.snoc (ht : TrackedSince selfID ops id n)
    (hmem : id ∈ ((new selfID).run (ops ++ [op])).replicas) :
    TrackedSince selfID (ops ++ [op]) id n := by
  have hlen := ht.le_length
  refine ⟨by simp; omega, fun m hn hm => ?_, ?_⟩
  · by_cases hm' : m ≤ ops.length
    · rw [List.take_append_of_le_length hm']
      exact ht.tracked m hn hm'
    · rwa [List.take_of_length_le (by simp; omega)]
  · rw [List.take_append_of_le_length (by omega)]
    exact ht.added

theorem trackedSince_added (hnot : id ∉ ((new selfID).run ops).replicas)
    (hmem : id ∈ ((new selfID).run (ops ++ [op])).replicas) :
    TrackedSince selfID (ops ++ [op]) id (ops.length + 1) := by
  refine ⟨by simp, fun m hn hm => ?_, .inr (by simpa using hnot)⟩
  rwa [List.take_of_length_le (by simp; omega)]

/-- **The offset of a replica is its largest acknowledgement since it was last added.** -/
theorem exists_trackedSince (selfID : String) (ops : List Op) {id : String} {k : ℕ}
    (hmem : (id, k) ∈ ((new selfID).run ops).offsets) :
    ∃ n, TrackedSince selfID ops id n ∧ k = largestAck id (ops.drop n) := by
  induction ops using List.reverseRecOn generalizing id k with
  | nil =>
    obtain ⟨rfl, rfl⟩ : id = selfID ∧ k = 0 := by simpa [HighWaterMark.run, new] using hmem
    refine ⟨0, ⟨le_rfl, fun m _ _ => ?_, .inl rfl⟩, rfl⟩
    simp [HighWaterMark.run, new, replicas]
  | append_singleton ops op ih =>
    have hs := (sound_new selfID).run ops
    have htracked := mem_replicas hmem
    have hstep : (new selfID).run (ops ++ [op]) = ((new selfID).run ops).step op := by
      simp [HighWaterMark.run]
    by_cases hold : id ∈ ((new selfID).run ops).replicas
    · -- the replica stays, and its offset takes this call's acknowledgement
      obtain ⟨⟨id', k₀⟩, hk₀, rfl⟩ := List.mem_map.mp hold
      obtain ⟨n, ht, heq⟩ := ih hk₀
      refine ⟨n, ht.snoc htracked, ?_⟩
      rw [List.drop_append_of_le_length ht.le_length, largestAck_append, ← heq]
      rw [hstep] at hmem
      cases op with
      | setReplicas ids =>
        rw [(mem_setReplicas_iff.mp hmem).2, hs.lookup hk₀]
        rfl
      | update replicaID offset =>
        obtain ⟨k₁, hk₁, heq₁⟩ := hs.mem_update_iff.mp hmem
        have hkk := (hs.lookup hk₁).symm.trans (hs.lookup hk₀)
        rw [heq₁, Option.some.inj hkk]
    · refine ⟨ops.length + 1, trackedSince_added hold htracked, ?_⟩
      rw [List.drop_of_length_le (by simp)]
      rw [hstep] at hmem htracked
      cases op with
      | setReplicas ids =>
        rw [(mem_setReplicas_iff.mp hmem).2]
        cases hl : ((new selfID).run ops).offsets.lookup id with
        | none => rfl
        | some k₀ => exact absurd (mem_replicas (mem_of_lookup hl)) hold
      | update replicaID offset =>
        exact absurd (by simpa [HighWaterMark.step] using htracked) hold

end History

/-! ## Waiting for the mark -/

/-- **A publisher is let through only when the mark has reached its offset.** -/
theorem waitFor_ok {offset : ℕ} {h' : HighWaterMark} {ctxErr : Option ContextError}
    {waits : List (List Op × Option ContextError)}
    (hw : waitFor offset h ctxErr waits = (some (.ok ()), h')) : offset ≤ h'.mark := by
  induction waits generalizing h ctxErr with
  | nil =>
    simp only [waitFor] at hw
    split at hw
    · cases ctxErr <;> simp at hw
    · rename_i hle
      cases hw
      exact not_lt.mp hle
  | cons wait waits ih =>
    simp only [waitFor] at hw
    split at hw
    · cases ctxErr with
      | none => exact ih hw
      | some e => simp at hw
    · rename_i hle
      cases hw
      exact not_lt.mp hle

end Calls

/-- **The law of the high-water mark.**  After any calls self is tracked, the mark is the least of
the offsets, each offset is the largest acknowledgement since its replica was last added, only a
`SetReplicas` that adds a replica lowers the mark, and `WaitFor` returns without an error only in a
state in which every replica has reached the offset. -/
theorem high_water_mark_law (selfID : String) (ops : List Op) :
    let h := (new selfID).run ops
    selfID ∈ h.replicas ∧
      IsLeast {k | ∃ id, (id, k) ∈ h.offsets} h.mark ∧
      (∀ id k, (id, k) ∈ h.offsets →
        ∃ n, TrackedSince selfID ops id n ∧ k = largestAck id (ops.drop n)) ∧
      (∀ op, (h.step op).mark < h.mark →
        ∃ ids, op = .setReplicas ids ∧ ∃ id ∈ ids, id ∉ h.replicas) ∧
      ∀ offset ctxErr waits h', waitFor offset h ctxErr waits = (some (.ok ()), h') →
        ∀ id k, (id, k) ∈ h'.offsets → offset ≤ k := by
  intro h
  have hs : h.Sound selfID := (sound_new selfID).run ops
  refine ⟨hs.tracked, hs.isLeast_mark, fun id k => exists_trackedSince selfID ops,
    hs.mark_le_step, fun offset ctxErr waits h' hw id k hmem => ?_⟩
  exact (waitFor_ok hw).trans (current_le_of_mem hmem)

end HighWaterMark

end AgentBus.Cluster
