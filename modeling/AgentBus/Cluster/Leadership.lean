import AgentBus.Cluster.Replicator
import Mathlib.Data.List.AList

/-!
# Which replicas a write waits for

`internal/cluster/cluster.go` with the metadata state machine of `internal/cluster/metadata/fsm.go`
on one node.  Once a second the node reads the shard leaders and the member records from the
state machine and the alive members from the gossip layer, and starts a replication worker with
the followers it finds.  An alive member without a record, or whose record has no client address,
is left out of the followers; the mark of the shard then does not wait for it.

The metadata log and the gossip layer are the environment: any command may be committed and any
list of members may be alive, at any time.  A tick of the loop is one step, and may visit the
shards in any order.

## Main definitions

* `FSM.apply` — a committed command.
* `FSM.followerAddrsFor`, `aliveFollowers` — the followers of a tick.
* `Node.tick` — one round of `refreshShardLeadershipLoop`.
* `Node.step` — what can happen.
-/

namespace AgentBus.Leadership

open Cluster

/-- `Member`. -/
structure Member where
  nodeID : String
  raftAddr : String
  clientAddr : String
  deriving DecidableEq, Repr

/-- `Op`. -/
inductive Op where
  | addMember
  | registerMember
  | removeMember
  | setShardLeader
  | setShardCount
  /-- Any other text. -/
  | other (name : String)
  deriving DecidableEq, Repr

/-- `Command`. -/
structure Command where
  op : Op
  nodeID : String
  addr : String
  clientAddr : String
  shard : UInt32
  deriving DecidableEq, Repr

/-- What `FSM.Apply` may answer. -/
inductive ApplyError where
  /-- `<op>: empty node_id`. -/
  | emptyNodeID (op : Op)
  /-- `unknown op <name>`. -/
  | unknownOp (name : String)
  deriving DecidableEq, Repr

/-- `FSM`. -/
structure FSM where
  members : AList fun _ : String => Member
  shardLeaders : AList fun _ : UInt32 => String
  shardCount : UInt32

namespace FSM

/-- `NewFSM`. -/
def new : FSM := ⟨∅, ∅, 0⟩

/-- `MemberAt`. -/
def memberAt (f : FSM) (nodeID : String) : Option Member := f.members.lookup nodeID

/-- The shard leaders other than one node. -/
def leadersBut (f : FSM) (nodeID : String) : AList fun _ : UInt32 => String :=
  ⟨f.shardLeaders.entries.filter fun e => e.2 ≠ nodeID,
    f.shardLeaders.nodupKeys.sublist List.filter_sublist⟩

/-- `Apply`. -/
def apply (f : FSM) (cmd : Command) : FSM × Option ApplyError :=
  match cmd.op with
  | .addMember =>
    if cmd.nodeID = "" then (f, some (.emptyNodeID cmd.op))
    else
      let clientAddr := ((f.memberAt cmd.nodeID).map Member.clientAddr).getD ""
      ({ f with members := f.members.insert cmd.nodeID ⟨cmd.nodeID, cmd.addr, clientAddr⟩ }, none)
  | .registerMember =>
    if cmd.nodeID = "" then (f, some (.emptyNodeID cmd.op))
    else
      ({ f with members := f.members.insert cmd.nodeID ⟨cmd.nodeID, cmd.addr, cmd.clientAddr⟩ },
        none)
  | .removeMember =>
    ({ f with members := f.members.erase cmd.nodeID, shardLeaders := f.leadersBut cmd.nodeID },
      none)
  | .setShardLeader =>
    if cmd.nodeID = "" then (f, some (.emptyNodeID cmd.op))
    else ({ f with shardLeaders := f.shardLeaders.insert cmd.shard cmd.nodeID }, none)
  | .setShardCount => ({ f with shardCount := cmd.shard }, none)
  | .other name => (f, some (.unknownOp name))

/-- A command that is refused changes nothing. -/
theorem apply_error {f : FSM} {cmd : Command} (h : (f.apply cmd).2 ≠ none) :
    (f.apply cmd).1 = f := by
  obtain ⟨op, nodeID, addr, clientAddr, shard⟩ := cmd
  cases op with
  | removeMember | setShardCount => exact absurd rfl h
  | other name => rfl
  | addMember | registerMember | setShardLeader =>
    by_cases hid : nodeID = ""
    · simp [apply, hid]
    · simp [apply, hid] at h

/-- The shards whose leader is the node. -/
def ledBy (f : FSM) (nodeID : String) : List UInt32 :=
  (f.shardLeaders.entries.filter fun e => e.2 = nodeID).map Sigma.fst

/-- A member that a follower can be dialled at. -/
def Reachable (f : FSM) (nodeID : String) : Prop :=
  ∃ m, f.memberAt nodeID = some m ∧ m.clientAddr ≠ ""

/-- `followerAddrsFor`. -/
def followerAddrsFor (f : FSM) (nodeIDs : List String) : List FollowerAddr :=
  nodeIDs.filterMap fun nid =>
    match f.memberAt nid with
    | none => none
    | some m => if m.clientAddr = "" then none else some ⟨nid, m.clientAddr⟩

theorem mem_followerAddrsFor {f : FSM} {nodeIDs : List String} {id : String} :
    id ∈ (f.followerAddrsFor nodeIDs).map FollowerAddr.nodeID ↔
      id ∈ nodeIDs ∧ f.Reachable id := by
  constructor
  · intro h
    obtain ⟨a, ha, rfl⟩ := List.mem_map.mp h
    obtain ⟨nid, hnid, hsome⟩ := List.mem_filterMap.mp ha
    split at hsome
    · cases hsome
    · rename_i m hm
      split at hsome
      · cases hsome
      · rename_i haddr
        cases hsome
        exact ⟨hnid, m, hm, haddr⟩
  · intro ⟨hid, m, hm, haddr⟩
    refine List.mem_map.mpr ⟨⟨id, m.clientAddr⟩, List.mem_filterMap.mpr ⟨id, hid, ?_⟩, rfl⟩
    rw [hm]
    exact if_neg haddr

end FSM

/-- `aliveFollowers`. -/
def aliveFollowers (selfID : String) (alive : List String) : List String :=
  alive.filter fun nid => nid ≠ selfID

/-- `followerSetKey`. -/
def followerSetKey (addrs : List FollowerAddr) : String :=
  addrs.foldl (fun key a => key ++ (a.nodeID ++ "=" ++ a.addr ++ ";")) ""

/-- A node: what it sees of the cluster, and the state of its refresh loop. -/
structure Node where
  fsm : FSM
  /-- `Alive` of the gossip layer. -/
  alive : List String
  owned : List UInt32
  lastFollowerKey : String
  replicator : Replicator

namespace Node

/-- A node before its first tick. -/
def start (selfID : String) (fsm : FSM) (alive : List String) : Node :=
  ⟨fsm, alive, [], "", .new selfID⟩

/-- The followers a tick would find. -/
def followers (n : Node) : List FollowerAddr :=
  n.fsm.followerAddrsFor (aliveFollowers n.replicator.selfID n.alive)

/-- The replicator once the shards the node no longer leads are dropped. -/
def afterDrops (n : Node) : Replicator :=
  (n.owned.filter fun s => s ∉ n.fsm.ledBy n.replicator.selfID).foldl Replicator.drop n.replicator

/-- The shards a tick starts a worker for: the new ones, or all when the followers changed. -/
def started (n : Node) (order : List UInt32) : List UInt32 :=
  order.filter fun s => s ∉ n.owned ∨ followerSetKey n.followers ≠ n.lastFollowerKey

/-- One round of `refreshShardLeadershipLoop`, which visits the shards the node leads in the
order the map of the source gives them. -/
def tick (n : Node) (order : List UInt32) : Option Node :=
  if order.isPerm (n.fsm.ledBy n.replicator.selfID) then
    some { n with
      owned := order
      lastFollowerKey := followerSetKey n.followers
      replicator := (n.started order).foldl (fun r s => r.add s n.followers) n.afterDrops }
  else none

/-- What can happen. -/
inductive Act where
  | commit (cmd : Command)
  /-- A snapshot of the metadata is restored. -/
  | restore (fsm : FSM)
  | gossip (alive : List String)
  | tick (order : List UInt32)
  | declare (i : ℕ)
  | update (shardID : UInt32) (replicaID : String) (offset : ℕ)

def step (n : Node) : Act → Option Node
  | .commit cmd => some { n with fsm := (n.fsm.apply cmd).1 }
  | .restore fsm => some { n with fsm := fsm }
  | .gossip alive => some { n with alive := alive }
  | .tick order => n.tick order
  | .declare i => (n.replicator.declare i).map fun r => { n with replicator := r }
  | .update shardID replicaID offset =>
    some { n with replicator := n.replicator.update shardID replicaID offset }

/-- A replica has reported an offset past `o`: all records up to `o` are on its disk. -/
def Acknowledged (n : Node) (shardID : UInt32) (id : String) (o : ℕ) : Prop :=
  ∃ k, o < k ∧ (shardID, id, k) ∈ n.replicator.updates

/-- `WaitQuorum` returns without an error for this offset. -/
def Quorum (n : Node) (shardID : UInt32) (o : ℕ) : Prop :=
  o + 1 ≤ (n.replicator.hwms shardID).current

instance (n : Node) (shardID : UInt32) (o : ℕ) : Decidable (n.Quorum shardID o) :=
  inferInstanceAs (Decidable (o + 1 ≤ (n.replicator.hwms shardID).current))

variable {n n' : Node} {a : Act} {s : UInt32}

/-! ### Ticks -/

theorem sound_tick {order : List UInt32} (hn : n.replicator.Sound) (h : n.tick order = some n') :
    n'.replicator.Sound ∧ n'.replicator.selfID = n.replicator.selfID := by
  unfold tick at h
  split at h
  · cases h
    have hdrops : n.afterDrops.Sound ∧ n.afterDrops.selfID = n.replicator.selfID := by
      refine List.foldlRecOn (motive := fun r : Replicator =>
        r.Sound ∧ r.selfID = n.replicator.selfID) _ _ ⟨hn, rfl⟩ ?_
      exact fun r hr s _ => ⟨hr.1.drop, hr.2⟩
    refine List.foldlRecOn (motive := fun r : Replicator =>
      r.Sound ∧ r.selfID = n.replicator.selfID) _ _ hdrops ?_
    exact fun r hr s _ => ⟨hr.1.add, hr.2⟩
  · cases h

/-- The workers of the shards that are kept stay in place. -/
theorem serving_afterDrops (hs : s ∈ n.fsm.ledBy n.replicator.selfID) {fs : List FollowerAddr}
    (h : n.replicator.serving s = some fs) : n.afterDrops.serving s = some fs := by
  refine List.foldlRecOn (motive := fun r : Replicator => r.serving s = some fs) _ _ h ?_
  intro r hr s' hs'
  refine Replicator.serving_drop_of_ne ?_ hr
  rintro rfl
  exact absurd hs (of_decide_eq_true (List.mem_filter.mp hs').2)

/-- Starting workers for some shards: each of them is served by a new worker, the others by the
worker they had. -/
theorem serving_foldl_add (addrs : List FollowerAddr) (shards : List UInt32) {r : Replicator}
    {fs : List FollowerAddr} (h : s ∈ shards ∧ fs = addrs ∨ s ∉ shards ∧ r.serving s = some fs) :
    (shards.foldl (fun r s => r.add s addrs) r).serving s = some fs := by
  induction shards generalizing r with
  | nil =>
    rcases h with ⟨hs, -⟩ | ⟨-, hr⟩
    · exact absurd hs List.not_mem_nil
    · exact hr
  | cons t shards ih =>
    rw [List.foldl_cons]
    apply ih
    rcases h with ⟨hs, rfl⟩ | ⟨hs, hr⟩
    · by_cases hmem : s ∈ shards
      · exact .inl ⟨hmem, rfl⟩
      · obtain rfl := (List.mem_cons.mp hs).resolve_right hmem
        exact .inr ⟨hmem, Replicator.serving_add_self⟩
    · rw [List.mem_cons, not_or] at hs
      exact .inr ⟨hs.2, Replicator.serving_add_of_ne hs.1 hr⟩

/-- Every shard the node leads is served by a worker whose followers have the key of the last
tick. -/
def Served (n : Node) : Prop :=
  ∀ s ∈ n.owned, ∃ fs, n.replicator.serving s = some fs ∧ followerSetKey fs = n.lastFollowerKey

theorem served_tick {order : List UInt32} (hn : n.Served) (h : n.tick order = some n') :
    n'.Served := by
  unfold tick at h
  split at h
  · rename_i hperm
    cases h
    intro s hs
    have hled := (List.isPerm_iff.mp hperm).mem_iff.mp hs
    by_cases hstart : s ∈ n.started order
    · exact ⟨n.followers, serving_foldl_add _ _ (.inl ⟨hstart, rfl⟩), rfl⟩
    · have hkept : s ∈ n.owned ∧ followerSetKey n.followers = n.lastFollowerKey := by
        by_contra hno
        refine hstart (List.mem_filter.mpr ⟨hs, decide_eq_true ?_⟩)
        by_cases howned : s ∈ n.owned
        · exact .inr fun hkey => hno ⟨howned, hkey⟩
        · exact .inl howned
      obtain ⟨fs, hfs, hkey⟩ := hn s hkept.1
      refine ⟨fs, serving_foldl_add _ _ (.inr ⟨hstart, serving_afterDrops hled hfs⟩), ?_⟩
      exact hkey.trans hkept.2.symm
  · cases h

/-! ### Runs -/

/-- What holds along every run. -/
structure Sound (selfID : String) (n : Node) : Prop where
  self : n.replicator.selfID = selfID
  replicator : n.replicator.Sound
  served : n.Served

theorem sound_start (selfID : String) (fsm : FSM) (alive : List String) :
    Sound selfID (start selfID fsm alive) where
  self := rfl
  replicator := Replicator.sound_new selfID
  served _ hs := absurd hs List.not_mem_nil

theorem Sound.step {selfID : String} (hn : Sound selfID n) (h : n.step a = some n') :
    Sound selfID n' := by
  cases a with
  | commit | restore | gossip =>
    cases h
    exact ⟨hn.self, hn.replicator, hn.served⟩
  | tick order =>
    obtain ⟨hsound, hself⟩ := sound_tick hn.replicator h
    exact ⟨hself.trans hn.self, hsound, served_tick hn.served h⟩
  | declare i =>
    obtain ⟨r, hr, rfl⟩ := Option.map_eq_some_iff.mp h
    obtain ⟨w, hdecl⟩ := Replicator.declare_spec hr
    refine ⟨hdecl.selfID.trans hn.self, hn.replicator.declare hr, ?_⟩
    intro s hs
    obtain ⟨fs, hfs, hkey⟩ := hn.served s hs
    refine ⟨fs, ?_, hkey⟩
    rw [Replicator.serving, hdecl.shards, hdecl.workers]
    exact hfs
  | update shardID replicaID offset =>
    cases h
    exact ⟨hn.self, hn.replicator.update, hn.served⟩

/-- What the mark has reached, every replica it covers has reported. -/
theorem acknowledged_of_quorum (hn : n.replicator.Sound) {o : ℕ} (hq : n.Quorum s o) {id : String}
    (hid : id ∈ (n.replicator.hwms s).replicas) : n.Acknowledged s id o := by
  obtain ⟨⟨id, k⟩, hmem, rfl⟩ := List.mem_map.mp hid
  have hk : o < k := lt_of_lt_of_le hq (HighWaterMark.current_le_of_mem hmem)
  rcases hn.reported s id k hmem with rfl | hrep
  · omega
  · exact ⟨k, hk, hrep⟩

/-- **Which alive members a write waits for.**  The worker in place for a shard has the followers
of a tick, and no goroutine has declared another set since.  Then the mark covers every member
that was alive at that tick, and a write that passes the quorum has been acknowledged by every one
of them, exactly when every alive member other than the node has a record with a client address. -/
theorem quorum_covers_alive_iff {selfID : String} {fsm₀ : FSM} {alive₀ : List String}
    {acts : List Act} (h : Machine.run step (start selfID fsm₀ alive₀) acts = some n)
    (fsm : FSM) (alive : List String)
    (hserving : n.replicator.serving s =
      some (fsm.followerAddrsFor (aliveFollowers selfID alive)))
    (hdeclared : (n.replicator.declaredOf s).getLast? = n.replicator.serving s) :
    ((∀ id ∈ alive, id ∈ (n.replicator.hwms s).replicas) ∧
        ∀ o, n.Quorum s o → ∀ id ∈ alive, n.Acknowledged s id o) ↔
      ∀ id ∈ alive, id ≠ selfID → fsm.Reachable id := by
  have hn : Sound selfID n :=
    Machine.run_invariant (fun _ _ _ hs hstep => hs.step hstep)
      (sound_start selfID fsm₀ alive₀) h
  have htracks : ∀ id, id ∈ (n.replicator.hwms s).replicas ↔
      id = selfID ∨ (id ∈ alive ∧ id ≠ selfID) ∧ fsm.Reachable id := by
    intro id
    have := hn.replicator.tracked s id
    rw [hdeclared, hserving, Option.getD_some, replicaIDs, List.mem_cons,
      FSM.mem_followerAddrsFor, hn.self] at this
    rw [this, aliveFollowers, List.mem_filter, decide_eq_true_iff]
  constructor
  · rintro ⟨hcovers, -⟩ id hid hne
    exact (((htracks id).mp (hcovers id hid)).resolve_left hne).2
  · intro hreach
    have hcovers : ∀ id ∈ alive, id ∈ (n.replicator.hwms s).replicas := by
      intro id hid
      by_cases hself : id = selfID
      · exact (htracks id).mpr (.inl hself)
      · exact (htracks id).mpr (.inr ⟨⟨hid, hself⟩, hreach id hid hself⟩)
    exact ⟨hcovers, fun o hq id hid => acknowledged_of_quorum hn.replicator hq (hcovers id hid)⟩

/-- Nodes `a` and `b` are registered and `a` leads shard 0; its goroutine declares the followers
among the members that are alive. -/
def leadWith (alive : List String) : List Act :=
  [.commit ⟨.registerMember, "a", "a:7", "a:9", 0⟩, .commit ⟨.registerMember, "b", "b:7", "b:9", 0⟩,
    .commit ⟨.setShardLeader, "a", "", "", 0⟩, .gossip alive, .tick [0], .declare 0]

theorem quorum_covers_registered :
    ∃ n, Machine.run step (start "a" .new ["a"]) (leadWith ["a", "b"]) = some n ∧
      ∀ id ∈ ["a", "b"], id ∈ (n.replicator.hwms 0).replicas := by
  refine ⟨_, rfl, ?_⟩
  refine ((quorum_covers_alive_iff (s := 0)
    (show Machine.run step (start "a" .new ["a"]) (leadWith ["a", "b"]) = some _ from rfl)
    (((FSM.new.apply ⟨.registerMember, "a", "a:7", "a:9", 0⟩).1.apply
      ⟨.registerMember, "b", "b:7", "b:9", 0⟩).1) ["a", "b"] rfl rfl).mpr ?_).1
  intro id hid hne
  obtain rfl : id = "b" := by simpa [hne] using hid
  exact ⟨_, rfl, by decide⟩

/-- Member `c` is alive but not registered: offset 0 passes the quorum of shard 0 without it. -/
theorem quorum_without_unregistered :
    ∃ n, Machine.run step (start "a" .new ["a"])
        (leadWith ["a", "b", "c"] ++ [.update 0 "a" 1, .update 0 "b" 1]) = some n ∧
      n.fsm.shardLeaders.lookup 0 = some "a" ∧ "c" ∈ n.alive ∧
      n.replicator.serving 0 = some n.followers ∧
      (n.replicator.declaredOf 0).getLast? = n.replicator.serving 0 ∧
      n.Quorum 0 0 ∧ "c" ∉ (n.replicator.hwms 0).replicas ∧ ¬ n.Acknowledged 0 "c" 0 := by
  refine ⟨_, rfl, by decide, by decide, by decide, by decide, by decide, by decide, ?_⟩
  rintro ⟨k, -, hk⟩
  have hk : ((0 : UInt32), "c", k) ∈ [((0 : UInt32), "a", 1), (0, "b", 1)] := hk
  simp at hk

end Node
end AgentBus.Leadership
