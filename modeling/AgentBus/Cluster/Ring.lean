import AgentBus.Broker.Broker
import AgentBus.Lib.Clockwise
import AgentBus.Lib.Maps
import Mathlib.Data.List.Infix

/-!
# The consistent-hash ring

`internal/cluster/ring/ring.go`: every node is put at several positions of a circle, and a shard
belongs to the node at the next position from its hash on.

Two nodes may hash to the same position.  The one that came last has it then, and when that one is
removed the position goes with it.  Even so a node that is added takes shards only for itself, and
one that is removed gives up only its own (`minimal_movement`); but what the ring looks like depends
on the order of the calls (`leader_depends_on_order`), unless no two nodes share a position
(`leader_of_membership`).

The hash function is a parameter; `hashVNode` is the one of the source.

## Main definitions

* `Ring`, `Ring.addNode`, `Ring.removeNode`, `Ring.leaderFor` — the ring.
* `Ring.Op`, `Ring.run` — sequences of calls.
* `Ring.Sound` — what every call keeps.
* `Ring.Apart` — no two nodes share a position.
-/

namespace AgentBus.Cluster

open Broker Clockwise Maps

instance instLinearOrderUInt32 : LinearOrder UInt32 where
  le_refl := UInt32.le_refl
  le_trans _ _ _ := UInt32.le_trans
  le_antisymm _ _ := UInt32.le_antisymm
  le_total := UInt32.le_total
  lt_iff_le_not_ge a b := by
    simp only [UInt32.lt_iff_toNat_lt, UInt32.le_iff_toNat_le]
    omega
  toDecidableLE := inferInstance

/-- `hashVNode`: the hash of the seed, in little-endian order, and the text. -/
def hashVNode (domain : String) (seed : UInt32) : UInt32 :=
  fnv32a ([seed.toUInt8, (seed >>> 8).toUInt8, (seed >>> 16).toUInt8, (seed >>> 24).toUInt8] ++
    stringBytes domain)

/-- `Ring`. -/
structure Ring where
  vnodes : ℕ
  positions : List UInt32
  owners : AList fun _ : UInt32 => String
  nodes : List String

namespace Ring

/-- `New`. -/
def new (vnodes : ℤ) : Ring where
  vnodes := if vnodes ≤ 0 then 128 else vnodes.toNat
  positions := []
  owners := ∅
  nodes := []

/-- `rebuildPositions`. -/
def rebuildPositions (r : Ring) : Ring :=
  { r with positions := r.owners.keys.insertionSort (· ≤ ·) }

variable (hash : String → UInt32 → UInt32)

/-- The positions of the virtual nodes of a node. -/
def vnodePositions (vnodes : ℕ) (nodeID : String) : List UInt32 :=
  (List.range vnodes).map fun i => hash nodeID (UInt32.ofNat i)

/-- `AddNode`. -/
def addNode (r : Ring) (nodeID : String) : Ring :=
  if nodeID ∈ r.nodes then r
  else
    rebuildPositions { r with
      nodes := nodeID :: r.nodes
      owners := insertAll nodeID (vnodePositions hash r.vnodes nodeID) r.owners }

/-- `RemoveNode`. -/
def removeNode (r : Ring) (nodeID : String) : Ring :=
  if nodeID ∉ r.nodes then r
  else
    rebuildPositions { r with
      nodes := r.nodes.filter (· ≠ nodeID)
      owners := keeping (· ≠ nodeID) r.owners }

/-- `LeaderFor`: empty when there is no position. -/
def leaderFor (r : Ring) (shardID : UInt32) : String :=
  if r.positions = [] then ""
  else
    let idx := nextIndex r.positions (hash "shard" shardID)
    (r.positions[idx]?.bind fun p => r.owners.lookup p).getD ""

/-- A call that changes the ring. -/
inductive Op where
  | add (nodeID : String)
  | remove (nodeID : String)
  deriving DecidableEq, Repr

def step (r : Ring) : Op → Ring
  | .add nodeID => r.addNode hash nodeID
  | .remove nodeID => r.removeNode nodeID

/-- Calls one after the other. -/
def run (r : Ring) (ops : List Op) : Ring := ops.foldl (step hash) r

/-- The positions are those that have an owner, in order, and an owner is registered. -/
structure Sound (r : Ring) : Prop where
  positions : r.positions = r.owners.keys.insertionSort (· ≤ ·)
  owner : ∀ p n, r.owners.lookup p = some n → n ∈ r.nodes

/-- The positions that have an owner. -/
def owned (r : Ring) : Set UInt32 := {p | (r.owners.lookup p).isSome}

/-! ## What every call keeps -/

section Calls

variable {hash} {r : Ring} {n : String}

theorem sound_new (vnodes : ℤ) : (new vnodes).Sound where
  positions := rfl
  owner p n h := by simp [new] at h

theorem lookup_addNode (hn : n ∉ r.nodes) (p : UInt32) :
    (r.addNode hash n).owners.lookup p =
      if p ∈ vnodePositions hash r.vnodes n then some n else r.owners.lookup p := by
  simp [addNode, hn, rebuildPositions]

theorem lookup_removeNode (hn : n ∈ r.nodes) (p : UInt32) :
    (r.removeNode n).owners.lookup p = (r.owners.lookup p).filter (· ≠ n) := by
  simp [removeNode, hn, rebuildPositions]

@[simp] theorem mem_nodes_addNode {m : String} :
    m ∈ (r.addNode hash n).nodes ↔ m = n ∨ m ∈ r.nodes := by
  by_cases hn : n ∈ r.nodes
  · simp only [addNode, hn, if_true]
    exact ⟨.inr, fun h => h.elim (fun h => h ▸ hn) id⟩
  · simp [addNode, hn, rebuildPositions]

@[simp] theorem mem_nodes_removeNode {m : String} :
    m ∈ (r.removeNode n).nodes ↔ m ≠ n ∧ m ∈ r.nodes := by
  by_cases hn : n ∈ r.nodes
  · simp [removeNode, hn, rebuildPositions, and_comm]
  · simp only [removeNode, hn, not_false_eq_true, if_true]
    refine ⟨fun h => ⟨?_, h⟩, And.right⟩
    rintro rfl
    exact hn h

theorem Sound.addNode (h : r.Sound) (n : String) : (r.addNode hash n).Sound := by
  by_cases hn : n ∈ r.nodes
  · simpa [Ring.addNode, hn] using h
  · refine ⟨by simp [Ring.addNode, hn, rebuildPositions], ?_⟩
    intro p m hm
    rw [lookup_addNode hn] at hm
    rw [mem_nodes_addNode]
    split at hm
    · exact .inl (Option.some.inj hm).symm
    · exact .inr (h.owner p m hm)

theorem Sound.removeNode (h : r.Sound) (n : String) : (r.removeNode n).Sound := by
  by_cases hn : n ∈ r.nodes
  · refine ⟨by simp [Ring.removeNode, hn, rebuildPositions], ?_⟩
    intro p m hm
    rw [lookup_removeNode hn, Option.filter_eq_some_iff] at hm
    exact mem_nodes_removeNode.mpr ⟨of_decide_eq_true hm.2, h.owner p m hm.1⟩
  · simpa [Ring.removeNode, hn] using h

/-- **Every call keeps the ring in order.** -/
theorem Sound.step (h : r.Sound) (op : Op) : (r.step hash op).Sound := by
  cases op with
  | add n => exact h.addNode n
  | remove n => exact h.removeNode n

theorem Sound.run (h : r.Sound) (ops : List Op) : (r.run hash ops).Sound := by
  induction ops generalizing r with
  | nil => exact h
  | cons op ops ih => exact ih (h.step op)

/-! ## The leader of a shard -/

theorem Sound.mem_positions (h : r.Sound) {p : UInt32} : p ∈ r.positions ↔ p ∈ r.owned := by
  rw [h.positions, List.mem_insertionSort, owned, Set.mem_ofPred_eq, ← AList.mem_keys,
    AList.lookup_isSome]

theorem Sound.sorted (h : r.Sound) : r.positions.SortedLT := by
  have hperm := List.perm_insertionSort (· ≤ ·) r.owners.keys
  rw [← h.positions] at hperm
  refine List.SortedLE.sortedLT_of_nodup ?_ (hperm.nodup_iff.mpr r.owners.keys_nodup)
  rw [h.positions]
  exact (List.pairwise_insertionSort (· ≤ ·) _).sortedLE

/-- **The leader is the owner of the next position.** -/
theorem Sound.leaderFor (h : r.Sound) (hash : String → UInt32 → UInt32) (s : UInt32)
    (hne : r.positions ≠ []) :
    ∃ p, IsNext r.owned (hash "shard" s) p ∧ r.owners.lookup p = some (r.leaderFor hash s) := by
  obtain ⟨p, hp, hnext⟩ := exists_isNext_search (k := hash "shard" s) h.sorted.sortedLE hne
  have hset : {q | q ∈ r.positions} = r.owned := Set.ext fun q => h.mem_positions
  rw [hset] at hnext
  obtain ⟨n, hn⟩ := Option.isSome_iff_exists.mp hnext.mem
  refine ⟨p, hnext, ?_⟩
  simp [Ring.leaderFor, hne, hp, hn]

@[simp] theorem leaderFor_of_empty (hash : String → UInt32 → UInt32) (h : r.positions = [])
    (s : UInt32) : r.leaderFor hash s = "" := by
  simp [Ring.leaderFor, h]

theorem Sound.positions_eq_nil {r' : Ring} (h : r.Sound) (h' : r'.Sound)
    (hsub : r.owned ⊆ r'.owned) (hnil : r'.positions = []) : r.positions = [] := by
  refine List.eq_nil_iff_forall_not_mem.mpr fun p hp => ?_
  have hmem := h'.mem_positions.mpr (hsub (h.mem_positions.mp hp))
  simp [hnil] at hmem

theorem Sound.leaderFor_eq (h : r.Sound) {s p : UInt32} {m : String}
    (hp : IsNext r.owned (hash "shard" s) p) (hm : r.owners.lookup p = some m) :
    r.leaderFor hash s = m := by
  have hne : r.positions ≠ [] := List.ne_nil_of_mem (h.mem_positions.mpr hp.mem)
  obtain ⟨q, hq, hlookup⟩ := h.leaderFor hash s hne
  rw [hq.unique hp, hm] at hlookup
  exact (Option.some.inj hlookup).symm

theorem Sound.leaderFor_mem (h : r.Sound) (s : UInt32) :
    r.leaderFor hash s ∈ r.nodes ∨ (r.positions = [] ∧ r.leaderFor hash s = "") := by
  by_cases hne : r.positions = []
  · exact .inr ⟨hne, leaderFor_of_empty hash hne s⟩
  · obtain ⟨p, -, hp⟩ := h.leaderFor hash s hne
    exact .inl (h.owner p _ hp)

theorem owned_subset_addNode (hn : n ∉ r.nodes) : r.owned ⊆ (r.addNode hash n).owned := by
  intro p hp
  simp only [owned, Set.mem_ofPred_eq, lookup_addNode hn]
  split
  · rfl
  · exact hp

theorem owned_removeNode_subset (hn : n ∈ r.nodes) : (r.removeNode n).owned ⊆ r.owned := by
  intro p hp
  simp only [owned, Set.mem_ofPred_eq, lookup_removeNode hn] at hp ⊢
  exact Option.isSome_of_isSome_filter _ _ hp

/-- A node that is added takes shards only for itself. -/
theorem Sound.leaderFor_addNode (h : r.Sound) (n : String) (s : UInt32) :
    (r.addNode hash n).leaderFor hash s = r.leaderFor hash s ∨
      (r.addNode hash n).leaderFor hash s = n := by
  by_cases hn : n ∈ r.nodes
  · simp [Ring.addNode, hn]
  have hsub : r.owned ⊆ (r.addNode hash n).owned := owned_subset_addNode hn
  by_cases hne : (r.addNode hash n).positions = []
  · refine .inl ?_
    rw [leaderFor_of_empty hash hne,
      leaderFor_of_empty hash (h.positions_eq_nil (h.addNode n) hsub hne)]
  obtain ⟨p, hp, hlookup⟩ := (h.addNode n).leaderFor hash s hne
  rw [lookup_addNode hn] at hlookup
  split at hlookup
  · exact .inr (Option.some.inj hlookup).symm
  · have hmem : p ∈ r.owned := by simp [owned, hlookup]
    exact .inl (h.leaderFor_eq (hp.of_subset hsub hmem) hlookup).symm

/-- A node that is removed gives up only its own shards. -/
theorem Sound.leaderFor_removeNode (h : r.Sound) (n : String) (s : UInt32)
    (hs : r.leaderFor hash s ≠ n) :
    (r.removeNode n).leaderFor hash s = r.leaderFor hash s := by
  by_cases hn : n ∈ r.nodes
  · have hsub := owned_removeNode_subset hn
    by_cases hne : r.positions = []
    · rw [leaderFor_of_empty hash hne,
        leaderFor_of_empty hash ((h.removeNode n).positions_eq_nil h hsub hne)]
    obtain ⟨p, hp, hlookup⟩ := h.leaderFor hash s hne
    have hkept : (r.removeNode n).owners.lookup p = some (r.leaderFor hash s) := by
      simp [lookup_removeNode hn, hlookup, hs]
    have hmem : p ∈ (r.removeNode n).owned := by simp [owned, hkept]
    exact (h.removeNode n).leaderFor_eq (hp.of_subset hsub hmem) hkept
  · simp [Ring.removeNode, hn]

end Calls

/-- **Minimal movement.**  After any calls the positions are the keys of the owners in order, a
shard belongs to the owner of the next position, a node that is added takes shards only for itself,
a node that is removed gives up only its own, and a shard belongs to a registered node unless there
is no position at all. -/
theorem minimal_movement (vnodes : ℤ) (ops : List Op) :
    let r := run hash (new vnodes) ops
    (r.positions.SortedLT ∧ ∀ p, p ∈ r.positions ↔ p ∈ r.owners.keys) ∧
      (∀ s, r.positions ≠ [] →
        ∃ p, IsNext {q | q ∈ r.positions} (hash "shard" s) p ∧
          r.owners.lookup p = some (r.leaderFor hash s)) ∧
      (∀ n s, (r.addNode hash n).leaderFor hash s = r.leaderFor hash s ∨
        (r.addNode hash n).leaderFor hash s = n) ∧
      (∀ n s, r.leaderFor hash s ≠ n →
        (r.removeNode n).leaderFor hash s = r.leaderFor hash s) ∧
      ∀ s, r.leaderFor hash s ∈ r.nodes ∨ (r.positions = [] ∧ r.leaderFor hash s = "") := by
  intro r
  have hr : r.Sound := (sound_new vnodes).run ops
  refine ⟨⟨hr.sorted, fun p => ?_⟩, fun s hne => ?_, hr.leaderFor_addNode,
    hr.leaderFor_removeNode, hr.leaderFor_mem⟩
  · rw [hr.positions, List.mem_insertionSort]
  · have hset : {q | q ∈ r.positions} = r.owned := Set.ext fun q => hr.mem_positions
    rw [hset]
    exact hr.leaderFor hash s hne

/-! ## What the order of the calls decides -/

/-- No two of the nodes have a position in common. -/
def Apart (vnodes : ℕ) (nodes : List String) : Prop :=
  ∀ a ∈ nodes, ∀ b ∈ nodes, a ≠ b →
    ∀ p ∈ vnodePositions hash vnodes a, p ∉ vnodePositions hash vnodes b

-- Only the positions of the nodes are tried; left to itself Lean may try all 2 ^ 32.
instance decidableApart (vnodes : ℕ) (nodes : List String) : Decidable (Apart hash vnodes nodes) :=
  decidable_of_iff
    ((nodes.all fun a => nodes.all fun b => a = b ||
      (vnodePositions hash vnodes a).all fun p => p ∉ vnodePositions hash vnodes b) = true)
    (by simp [Apart, or_iff_not_imp_left])

/-- No two nodes that are registered at the same time have a position in common. -/
def AlwaysApart (r : Ring) (ops : List Op) : Prop :=
  ∀ pre, pre <+: ops → Apart hash r.vnodes (run hash r pre).nodes

/-- The positions of the registered nodes belong to them, and no others. -/
def Exact (r : Ring) : Prop :=
  ∀ p n, r.owners.lookup p = some n ↔ n ∈ r.nodes ∧ p ∈ vnodePositions hash r.vnodes n

section Membership

variable {hash} {r : Ring}

@[simp] theorem vnodes_step (op : Op) : (r.step hash op).vnodes = r.vnodes := by
  cases op with
  | add n =>
    simp only [step, addNode]
    split <;> rfl
  | remove n =>
    simp only [step, removeNode]
    split <;> rfl

@[simp] theorem vnodes_run (ops : List Op) : (r.run hash ops).vnodes = r.vnodes := by
  induction ops generalizing r with
  | nil => rfl
  | cons op ops ih => exact ih.trans (vnodes_step op)

theorem Exact.step (h : r.Exact hash) (op : Op)
    (hapart : Apart hash r.vnodes (r.step hash op).nodes) : (r.step hash op).Exact hash := by
  intro p m
  rw [vnodes_step]
  cases op with
  | add n =>
    by_cases hn : n ∈ r.nodes
    · simpa [Ring.step, addNode, hn] using h p m
    · simp only [Ring.step, lookup_addNode hn, mem_nodes_addNode] at hapart ⊢
      split
      · rename_i hp
        -- the position is new, so no other node has it
        refine ⟨fun hm => ?_, fun hm => ?_⟩
        · rw [← Option.some.inj hm]
          exact ⟨.inl rfl, hp⟩
        · by_contra hne
          exact hapart n (mem_nodes_addNode.mpr (.inl rfl)) m (mem_nodes_addNode.mpr hm.1)
            (fun heq => hne (by rw [heq])) p hp hm.2
      · rename_i hp
        rw [h p m]
        refine ⟨fun hm => ⟨.inr hm.1, hm.2⟩, fun hm => ⟨hm.1.resolve_left ?_, hm.2⟩⟩
        rintro rfl
        exact hp hm.2
  | remove n =>
    by_cases hn : n ∈ r.nodes
    · simp only [Ring.step, lookup_removeNode hn, mem_nodes_removeNode,
        Option.filter_eq_some_iff, h p m, decide_eq_true_eq]
      tauto
    · simpa [Ring.step, removeNode, hn] using h p m

theorem Exact.run (h : r.Exact hash) (ops : List Op) (hapart : AlwaysApart hash r ops) :
    (r.run hash ops).Exact hash := by
  induction ops generalizing r with
  | nil => exact h
  | cons op ops ih =>
    refine ih (h.step op (hapart [op] (by simp))) fun pre hpre => ?_
    rw [vnodes_step]
    exact hapart (op :: pre) (List.cons_prefix_cons.mpr ⟨rfl, hpre⟩)

theorem exact_new (vnodes : ℤ) : (new vnodes).Exact hash := by
  intro p n
  simp [new]

/-- Two rings whose positions belong to the same nodes have the same leaders. -/
theorem Sound.leaderFor_congr {r' : Ring} (h : r.Sound) (h' : r'.Sound)
    (heq : ∀ p, r.owners.lookup p = r'.owners.lookup p) (s : UInt32) :
    r.leaderFor hash s = r'.leaderFor hash s := by
  have howned : r.owned = r'.owned := by simp [owned, heq]
  by_cases hne : r'.positions = []
  · rw [leaderFor_of_empty hash hne,
      leaderFor_of_empty hash (h.positions_eq_nil h' howned.subset hne)]
  · obtain ⟨p, hp, hlookup⟩ := h'.leaderFor hash s hne
    exact h.leaderFor_eq (howned ▸ hp) ((heq p).trans hlookup)

end Membership

/-- Where no two nodes that are registered at the same time have a position in common, the leaders
depend only on which nodes are registered in the end. -/
theorem leader_of_membership (vnodes : ℤ) (ops ops' : List Op)
    (hapart : AlwaysApart hash (new vnodes) ops) (hapart' : AlwaysApart hash (new vnodes) ops')
    (hsame : ∀ n, n ∈ (run hash (new vnodes) ops).nodes ↔ n ∈ (run hash (new vnodes) ops').nodes)
    (s : UInt32) :
    (run hash (new vnodes) ops).leaderFor hash s =
      (run hash (new vnodes) ops').leaderFor hash s := by
  refine ((sound_new vnodes).run ops).leaderFor_congr ((sound_new vnodes).run ops') (fun p => ?_) s
  apply Option.ext
  intro n
  rw [(exact_new vnodes).run ops hapart p n, (exact_new vnodes).run ops' hapart' p n, hsame n]
  simp only [vnodes_run]

/-- Two nodes with no position in common, added in either order. -/
theorem leader_of_two_nodes :
    (run hashVNode (new 3) [.add "node1", .add "node2"]).leaderFor hashVNode 7 =
      (run hashVNode (new 3) [.add "node2", .add "node1"]).leaderFor hashVNode 7 := by
  refine leader_of_membership hashVNode 3 _ _ ?_ ?_ ?_ 7
  · intro pre hpre
    rw [← List.mem_inits] at hpre
    revert pre
    decide +kernel
  · intro pre hpre
    rw [← List.mem_inits] at hpre
    revert pre
    decide +kernel
  · intro n
    simp [run, step, new, or_comm]

/-- Two nodes whose fifth virtual nodes share a position: the one that was added last has it. -/
theorem leader_depends_on_order :
    (∀ n, n ∈ (run hashVNode (new 5) [.add "node75", .add "node2600"]).nodes ↔
        n ∈ (run hashVNode (new 5) [.add "node2600", .add "node75"]).nodes) ∧
      (run hashVNode (new 5) [.add "node75", .add "node2600"]).leaderFor hashVNode 11 =
        "node2600" ∧
      (run hashVNode (new 5) [.add "node2600", .add "node75"]).leaderFor hashVNode 11 =
        "node75" := by
  refine ⟨fun n => ?_, by decide +kernel, by decide +kernel⟩
  simp [run, step, new, or_comm]

end Ring

end AgentBus.Cluster
