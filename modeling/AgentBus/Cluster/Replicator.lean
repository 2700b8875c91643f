import AgentBus.Cluster.HighWaterMark
import AgentBus.Lib.Machine
import Mathlib.Logic.Function.Basic

/-!
# The workers of a replicator

`internal/cluster/replicator/replicator.go` on one node.  `Add` cancels the worker of a shard, puts
a new one in its place and starts its goroutine.  The goroutine declares its replicas to the
high-water mark of the shard before it looks at its context, so a worker that was cancelled
declares them all the same; which of several goroutines comes last is up to the scheduler.

The state lists every worker ever started, the order in which their goroutines declared, and the
updates the marks have received, from followers and from the node itself.

## Main definitions

* `Replicator.add`, `Replicator.drop` — the calls.
* `Replicator.declare` — a goroutine reaches `SetReplicas`.
* `Replicator.step` — what can happen.
* `Tracks` — a mark covers the replicas of a worker, and no other.
-/

namespace AgentBus.Cluster

/-- `FollowerAddr`. -/
structure FollowerAddr where
  nodeID : String
  addr : String
  deriving DecidableEq, Repr

/-- `shardWorker`. -/
structure Worker where
  shardID : UInt32
  followers : List FollowerAddr
  cancelled : Bool
  deriving DecidableEq, Repr

/-- The followers of a worker, when it is a worker of the shard. -/
def Worker.setFor (shardID : UInt32) (w : Worker) : Option (List FollowerAddr) :=
  if w.shardID = shardID then some w.followers else none

/-- The replicas a goroutine declares. -/
def replicaIDs (selfID : String) (followers : List FollowerAddr) : List String :=
  selfID :: followers.map FollowerAddr.nodeID

/-- `Replicator`, with the marks of its manager. -/
structure Replicator where
  selfID : String
  /-- Every worker that was started, in the order of the `Add` calls. -/
  workers : List Worker
  /-- The worker in place for each shard. -/
  shards : UInt32 → Option ℕ
  hwms : UInt32 → HighWaterMark
  /-- The workers whose goroutine has declared its replicas, in that order. -/
  declared : List ℕ
  /-- The offsets reported to the marks: the shard, the replica and the offset. -/
  updates : List (UInt32 × String × ℕ)

namespace Replicator

/-- `New`, over a manager that has opened nothing. -/
def new (selfID : String) : Replicator where
  selfID := selfID
  workers := []
  shards := fun _ => none
  hwms := fun _ => .new selfID
  declared := []
  updates := []

/-- The context of the worker in place for a shard is cancelled. -/
def cancel (r : Replicator) (shardID : UInt32) : List Worker :=
  match r.shards shardID with
  | some i => r.workers.modify i fun w => { w with cancelled := true }
  | none => r.workers

/-- `Add`. -/
def add (r : Replicator) (shardID : UInt32) (followers : List FollowerAddr) : Replicator :=
  { r with
    workers := r.cancel shardID ++ [⟨shardID, followers, false⟩]
    shards := Function.update r.shards shardID (some r.workers.length) }

/-- `Drop`. -/
def drop (r : Replicator) (shardID : UInt32) : Replicator :=
  { r with workers := r.cancel shardID, shards := Function.update r.shards shardID none }

/-- The goroutine of worker `i` runs up to `SetReplicas`, whether it is cancelled or not. -/
def declare (r : Replicator) (i : ℕ) : Option Replicator :=
  match r.workers[i]? with
  | none => none
  | some w =>
    if i ∈ r.declared then none
    else
      some { r with
        hwms := Function.update r.hwms w.shardID
          ((r.hwms w.shardID).setReplicas (replicaIDs r.selfID w.followers))
        declared := r.declared ++ [i] }

/-- A goroutine reports an offset to the mark of a shard. -/
def update (r : Replicator) (shardID : UInt32) (replicaID : String) (offset : ℕ) : Replicator :=
  { r with
    hwms := Function.update r.hwms shardID ((r.hwms shardID).update replicaID offset)
    updates := r.updates ++ [(shardID, replicaID, offset)] }

/-- What can happen. -/
inductive Act where
  | add (shardID : UInt32) (followers : List FollowerAddr)
  | drop (shardID : UInt32)
  | declare (i : ℕ)
  | update (shardID : UInt32) (replicaID : String) (offset : ℕ)
  deriving DecidableEq, Repr

def step (r : Replicator) : Act → Option Replicator
  | .add shardID followers => some (r.add shardID followers)
  | .drop shardID => some (r.drop shardID)
  | .declare i => r.declare i
  | .update shardID replicaID offset => some (r.update shardID replicaID offset)

/-- The followers of each `Add` for a shard, in the order of the calls. -/
def addedOf (shardID : UInt32) (acts : List Act) : List (List FollowerAddr) :=
  acts.filterMap fun
    | .add s followers => if s = shardID then some followers else none
    | _ => none

/-- What each goroutine of a shard has declared, in that order. -/
def declaredOf (r : Replicator) (shardID : UInt32) : List (List FollowerAddr) :=
  r.declared.filterMap fun i => r.workers[i]?.bind (Worker.setFor shardID)

/-- The followers of the worker in place for a shard. -/
def serving (r : Replicator) (shardID : UInt32) : Option (List FollowerAddr) :=
  (r.shards shardID).bind fun i => r.workers[i]?.bind (Worker.setFor shardID)

/-- Every goroutine started for a shard has reached `SetReplicas`. -/
def AllDeclared (r : Replicator) (shardID : UInt32) : Prop :=
  ∀ i (_ : i < r.workers.length), r.workers[i].shardID = shardID → i ∈ r.declared

instance (r : Replicator) (shardID : UInt32) : Decidable (r.AllDeclared shardID) :=
  inferInstanceAs (Decidable (∀ i (_ : i < r.workers.length),
    r.workers[i].shardID = shardID → i ∈ r.declared))

/-- The mark of a shard covers the node itself and these followers, and no other replica. -/
def Tracks (r : Replicator) (shardID : UInt32) (followers : List FollowerAddr) : Prop :=
  ∀ id, id ∈ (r.hwms shardID).replicas ↔ id ∈ replicaIDs r.selfID followers

variable {r r' : Replicator} {s shardID : UInt32} {i : ℕ} {followers : List FollowerAddr}

/-! ### The workers -/

/-- Cancelling a worker leaves its shard and its followers. -/
@[simp] theorem cancel_map :
    (r.cancel shardID).map (Worker.setFor s) = r.workers.map (Worker.setFor s) := by
  unfold cancel
  split
  · apply List.ext_getElem?
    intro i
    rw [List.getElem?_map, List.getElem?_modify, List.getElem?_map]
    cases r.workers[i]? with
    | none => rfl
    | some w =>
      simp only [Option.map_eq_map, Option.map_some, Option.some_inj]
      split <;> rfl
  · rfl

theorem cancel_setFor (i : ℕ) :
    ((r.cancel shardID)[i]?).bind (Worker.setFor s) = r.workers[i]?.bind (Worker.setFor s) := by
  have h : ∀ l : List Worker,
      l[i]?.bind (Worker.setFor s) = (l.map (Worker.setFor s))[i]?.bind id := by
    intro l
    rw [List.getElem?_map, Option.bind_map, Function.id_comp]
  rw [h, cancel_map, ← h]

theorem cancel_filterMap :
    (r.cancel shardID).filterMap (Worker.setFor s) = r.workers.filterMap (Worker.setFor s) := by
  have h : ∀ l : List Worker,
      l.filterMap (Worker.setFor s) = (l.map (Worker.setFor s)).filterMap id := by
    intro l
    rw [List.filterMap_map, Function.id_comp]
  rw [h, cancel_map, ← h]

@[simp] theorem length_cancel (r : Replicator) (shardID : UInt32) :
    (r.cancel shardID).length = r.workers.length := by
  unfold cancel
  split
  · exact List.length_modify ..
  · rfl

/-- A worker keeps its shard and its followers, whether it is cancelled or not. -/
theorem add_setFor (h : i < r.workers.length) :
    ((r.add shardID followers).workers[i]?).bind (Worker.setFor s) =
      r.workers[i]?.bind (Worker.setFor s) := by
  rw [show (r.add shardID followers).workers = r.cancel shardID ++ [⟨shardID, followers, false⟩]
    from rfl, List.getElem?_append_left (by rwa [length_cancel]), cancel_setFor]

@[simp] theorem serving_add_self : (r.add shardID followers).serving shardID = some followers := by
  refine Option.bind_eq_some_iff.mpr ⟨r.workers.length, Function.update_self .., ?_⟩
  rw [show (r.add shardID followers).workers = r.cancel shardID ++ [⟨shardID, followers, false⟩]
    from rfl, ← r.length_cancel shardID, List.getElem?_concat_length]
  exact if_pos rfl

@[simp] theorem serving_add_of_ne (hne : s ≠ shardID) {fs : List FollowerAddr}
    (h : r.serving s = some fs) : (r.add shardID followers).serving s = some fs := by
  obtain ⟨i, hi, hw⟩ := Option.bind_eq_some_iff.mp h
  obtain ⟨w, hget, -⟩ := Option.bind_eq_some_iff.mp hw
  refine Option.bind_eq_some_iff.mpr ⟨i, (Function.update_of_ne hne ..).trans hi, ?_⟩
  rw [add_setFor (List.getElem?_eq_some_iff.mp hget).1]
  exact hw

@[simp] theorem serving_drop_of_ne (hne : s ≠ shardID) {fs : List FollowerAddr}
    (h : r.serving s = some fs) : (r.drop shardID).serving s = some fs := by
  obtain ⟨i, hi, hw⟩ := Option.bind_eq_some_iff.mp h
  refine Option.bind_eq_some_iff.mpr ⟨i, (Function.update_of_ne hne ..).trans hi, ?_⟩
  exact (cancel_setFor i).trans hw

/-! ### What the marks cover -/

/-- The marks cover what was declared last, and record nothing that was not reported. -/
structure Sound (r : Replicator) : Prop where
  self : ∀ s, (r.hwms s).selfID = r.selfID
  declared : ∀ i ∈ r.declared, i < r.workers.length
  tracked : ∀ s, r.Tracks s ((r.declaredOf s).getLast?.getD [])
  reported : ∀ s id k, (id, k) ∈ (r.hwms s).offsets → k = 0 ∨ (s, id, k) ∈ r.updates

theorem sound_new (selfID : String) : (new selfID).Sound where
  self _ := rfl
  declared i hi := absurd hi List.not_mem_nil
  tracked s id := by rfl
  reported s id k hmem := by
    rw [show ((new selfID).hwms s).offsets = [(selfID, 0)] from rfl, List.mem_singleton] at hmem
    exact .inl (congrArg Prod.snd hmem)

/-- A step that leaves the marks alone and keeps what every worker declares. -/
theorem Sound.of_workers (hr : r.Sound) (hself : r'.selfID = r.selfID) (hhwms : r'.hwms = r.hwms)
    (hdeclared : r'.declared = r.declared) (hupdates : r'.updates = r.updates)
    (hlen : r.workers.length ≤ r'.workers.length)
    (hset : ∀ i s, i < r.workers.length →
      r'.workers[i]?.bind (Worker.setFor s) = r.workers[i]?.bind (Worker.setFor s)) :
    r'.Sound := by
  have hof : ∀ s, r'.declaredOf s = r.declaredOf s := by
    intro s
    unfold declaredOf
    rw [hdeclared]
    exact List.filterMap_congr fun i hi => hset i s (hr.declared i hi)
  constructor
  · intro s
    rw [hhwms, hself]
    exact hr.self s
  · intro i hi
    exact lt_of_lt_of_le (hr.declared i (hdeclared ▸ hi)) hlen
  · intro s id
    rw [hhwms, hself, hof]
    exact hr.tracked s id
  · intro s id k hmem
    rw [hupdates]
    exact hr.reported s id k (hhwms ▸ hmem)

theorem Sound.add (hr : r.Sound) : (r.add shardID followers).Sound := by
  refine hr.of_workers rfl rfl rfl rfl ?_ fun i s hi => add_setFor hi
  simp [Replicator.add]

theorem Sound.drop (hr : r.Sound) : (r.drop shardID).Sound :=
  hr.of_workers rfl rfl rfl rfl (length_cancel ..).ge fun i _ _ => cancel_setFor i

/-- What the goroutine of worker `w` does at `SetReplicas`. -/
structure Declares (r : Replicator) (i : ℕ) (w : Worker) (r' : Replicator) : Prop where
  worker : r.workers[i]? = some w
  selfID : r'.selfID = r.selfID
  workers : r'.workers = r.workers
  shards : r'.shards = r.shards
  updates : r'.updates = r.updates
  declared : r'.declared = r.declared ++ [i]
  hwms : ∀ s, r'.hwms s =
    if s = w.shardID then (r.hwms s).setReplicas (replicaIDs r.selfID w.followers) else r.hwms s

theorem declare_spec (h : r.declare i = some r') : ∃ w, r.Declares i w r' := by
  unfold declare at h
  split at h
  · cases h
  · rename_i w hw
    split at h
    · cases h
    · cases h
      refine ⟨w, hw, rfl, rfl, rfl, rfl, rfl, ?_⟩
      intro s
      by_cases hs : s = w.shardID
      · subst hs
        simp
      · simp [hs]

theorem Declares.declaredOf {w : Worker} (h : r.Declares i w r') :
    r'.declaredOf s = r.declaredOf s ++ (w.setFor s).toList := by
  unfold Replicator.declaredOf
  rw [h.workers, h.declared, List.filterMap_append]
  refine congrArg _ ?_
  rw [List.filterMap_cons, h.worker, Option.bind_some]
  cases w.setFor s <;> rfl

theorem Declares.tracked {w : Worker} (h : r.Declares i w r') (hr : r.Sound) :
    r'.Tracks s ((r'.declaredOf s).getLast?.getD []) := by
  intro id
  rw [h.declaredOf, h.hwms, h.selfID]
  by_cases hs : s = w.shardID
  · rw [if_pos hs, show w.setFor s = some w.followers from if_pos hs.symm, Option.toList_some,
      List.getLast?_concat, Option.getD_some, HighWaterMark.mem_replicas_setReplicas, hr.self]
    simp [replicaIDs]
  · rw [if_neg hs, show w.setFor s = none from if_neg (Ne.symm hs), Option.toList_none,
      List.append_nil]
    exact hr.tracked s id

theorem Sound.declare (hr : r.Sound) (h : r.declare i = some r') : r'.Sound := by
  obtain ⟨w, h⟩ := declare_spec h
  constructor
  · intro s
    rw [h.hwms, h.selfID]
    split
    · exact hr.self s
    · exact hr.self s
  · intro j hj
    rw [h.declared] at hj
    rw [h.workers]
    rcases List.mem_append.mp hj with hj | hj
    · exact hr.declared j hj
    · rw [List.mem_singleton.mp hj]
      exact (List.getElem?_eq_some_iff.mp h.worker).1
  · exact fun s => h.tracked hr
  · intro s id k hmem
    rw [h.hwms] at hmem
    rw [h.updates]
    split at hmem
    · rcases HighWaterMark.mem_setReplicas hmem with rfl | hmem
      · exact .inl rfl
      · exact hr.reported s id k hmem
    · exact hr.reported s id k hmem

section Update

variable {replicaID : String} {offset : ℕ}

@[simp] theorem hwms_update : (r.update shardID replicaID offset).hwms s =
    if s = shardID then (r.hwms s).update replicaID offset else r.hwms s := by
  by_cases hs : s = shardID
  · subst hs
    simp [update]
  · simp [update, hs]

theorem Sound.update (hr : r.Sound) : (r.update shardID replicaID offset).Sound := by
  constructor
  · intro s
    rw [hwms_update]
    split
    · exact (HighWaterMark.selfID_update ..).trans (hr.self s)
    · exact hr.self s
  · exact hr.declared
  · intro s id
    rw [hwms_update]
    split
    · rw [HighWaterMark.replicas_update]
      exact hr.tracked s id
    · exact hr.tracked s id
  · intro s id k hmem
    rw [hwms_update] at hmem
    split at hmem
    · rename_i hs
      subst hs
      rcases HighWaterMark.mem_update hmem with hmem | ⟨rfl, rfl⟩
      · exact (hr.reported s id k hmem).imp_right (List.mem_append_left _)
      · exact .inr (List.mem_append_right _ (List.mem_singleton_self _))
    · exact (hr.reported s id k hmem).imp_right (List.mem_append_left _)

end Update

theorem Sound.step {a : Act} (hr : r.Sound) (h : r.step a = some r') : r'.Sound := by
  cases a with
  | add shardID followers =>
    cases h
    exact hr.add
  | drop shardID =>
    cases h
    exact hr.drop
  | declare i => exact hr.declare h
  | update shardID replicaID offset =>
    cases h
    exact hr.update

/-! ### The last set wins, or does not -/

theorem addedOf_step {a : Act} (h : r.step a = some r') :
    r'.workers.filterMap (Worker.setFor s) =
      r.workers.filterMap (Worker.setFor s) ++ addedOf s [a] := by
  cases a with
  | add shardID followers =>
    cases h
    rw [show (r.add shardID followers).workers =
      r.cancel shardID ++ [⟨shardID, followers, false⟩] from rfl, List.filterMap_append,
      cancel_filterMap]
    rfl
  | drop shardID =>
    cases h
    exact cancel_filterMap.trans (List.append_nil _).symm
  | declare i =>
    obtain ⟨w, h⟩ := declare_spec h
    rw [h.workers]
    exact (List.append_nil _).symm
  | update shardID replicaID offset =>
    cases h
    exact (List.append_nil _).symm

/-- The workers of a shard are those its `Add` calls have started. -/
theorem addedOf_run {acts : List Act} (h : Machine.run step r acts = some r') :
    r'.workers.filterMap (Worker.setFor s) =
      r.workers.filterMap (Worker.setFor s) ++ addedOf s acts := by
  induction acts generalizing r with
  | nil =>
    cases h
    exact (List.append_nil _).symm
  | cons a acts ih =>
    obtain ⟨r₁, h₁, h⟩ := Option.bind_eq_some_iff.mp h
    rw [ih h, addedOf_step h₁, List.append_assoc]
    exact congrArg _ (List.filterMap_append (l := [a])).symm

/-- Once every goroutine of a shard has declared, one of them was the last to do so. -/
theorem exists_declaredOf (hall : r.AllDeclared s)
    (hadd : r.workers.filterMap (Worker.setFor s) ≠ []) :
    ∃ last, (r.declaredOf s).getLast? = some last := by
  obtain ⟨fs, hfs⟩ := List.exists_mem_of_ne_nil _ hadd
  obtain ⟨w, hw, hset⟩ := List.mem_filterMap.mp hfs
  obtain ⟨i, hi, rfl⟩ := List.mem_iff_getElem.mp hw
  have hshard : r.workers[i].shardID = s := by
    by_contra hne
    rw [Worker.setFor, if_neg hne] at hset
    cases hset
  have hmem : fs ∈ r.declaredOf s := by
    refine List.mem_filterMap.mpr ⟨i, hall i hi hshard, ?_⟩
    rw [List.getElem?_eq_getElem hi]
    exact hset
  exact ⟨_, List.getLast?_eq_getLast_of_ne_nil (List.ne_nil_of_mem hmem)⟩

theorem selfID_step {a : Act} (h : r.step a = some r') : r'.selfID = r.selfID := by
  cases a with
  | declare i =>
    obtain ⟨w, h⟩ := declare_spec h
    exact h.selfID
  | add | drop | update =>
    cases h
    rfl

/-- **What the mark of a shard covers once every goroutine has declared.**  It covers the node and
the followers of the last `Add` exactly when the goroutine that was last to declare, which need
not be the one of the last `Add`, declared the same replicas. -/
theorem tracks_last_add_iff {selfID : String} {acts : List Act} {followers : List FollowerAddr}
    (h : Machine.run step (new selfID) acts = some r) (hall : r.AllDeclared s)
    (hlast : (addedOf s acts).getLast? = some followers) :
    ∃ last, (r.declaredOf s).getLast? = some last ∧
      (r.Tracks s followers ↔
        ∀ id, id ∈ replicaIDs selfID last ↔ id ∈ replicaIDs selfID followers) := by
  have hself : r.selfID = selfID :=
    Machine.run_invariant (I := fun r => r.selfID = selfID)
      (fun _ _ _ hs hstep => (selfID_step hstep).trans hs) rfl h
  have hsound : r.Sound :=
    Machine.run_invariant (fun _ _ _ hs hstep => hs.step hstep) (sound_new selfID) h
  have hne : r.workers.filterMap (Worker.setFor s) ≠ [] := by
    rw [addedOf_run h]
    intro hnil
    rw [(List.append_eq_nil_iff.mp hnil).2] at hlast
    cases hlast
  obtain ⟨last, hdecl⟩ := exists_declaredOf hall hne
  refine ⟨last, hdecl, ?_⟩
  have htracked := hsound.tracked s
  rw [hdecl, Option.getD_some] at htracked
  rw [← hself]
  exact forall_congr' fun id => iff_congr (htracked id) Iff.rfl

/-- Two calls: first with follower `b`, then with follower `c`. -/
def twoAdds : List Act := [.add 0 [⟨"b", "b:1"⟩], .add 0 [⟨"c", "c:1"⟩]]

theorem tracks_last_add_in_order :
    ∃ r, Machine.run step (new "a") (twoAdds ++ [.declare 0, .declare 1]) = some r ∧
      r.AllDeclared 0 ∧ r.Tracks 0 [⟨"c", "c:1"⟩] := by
  refine ⟨_, rfl, by decide, ?_⟩
  obtain ⟨last, hlast, hiff⟩ := tracks_last_add_iff (s := 0)
    (show Machine.run step (new "a") (twoAdds ++ [.declare 0, .declare 1]) = some _ from rfl)
    (by decide) rfl
  cases hlast
  exact hiff.mpr fun id => Iff.rfl

/-- The goroutine of the first call runs last: the mark covers `b`, which was replaced, and not
`c`. -/
theorem replaced_worker_declares_last :
    ∃ r, Machine.run step (new "a") (twoAdds ++ [.declare 1, .declare 0]) = some r ∧
      r.AllDeclared 0 ∧ ¬ r.Tracks 0 [⟨"c", "c:1"⟩] := by
  refine ⟨_, rfl, by decide, ?_⟩
  intro htracks
  exact absurd ((htracks "c").mpr (by decide)) (by decide)

end Replicator
end AgentBus.Cluster
