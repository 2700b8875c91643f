import AgentBus.Cluster.Assigner
import AgentBus.Grpcapi.ShardPublish

/-!
# Routing to the leader of a shard

`RouteSession` of `internal/cluster/router/router.go` over the metadata state machine: a node that
does not lead the shard of a session answers with the client address of the member that does.

The address is in the member record, and nothing ties the shard leaders to the member records: a
plan takes its nodes from the gossip layer, and a node is alive there before it is registered
(`plan_leaves_unregistered`).  The commands that break the tie are exactly those that
`FSM.Keeps` leaves out (`leadersReachable_apply_iff`); without them every leader can be reached
(`leaders_routable`).

## Main definitions

* `Router`, `Router.routeSession` — the source.
* `Change`, `FSM.changes` — committed commands and plans, in order.
* `FSM.LeadersReachable` — every shard leader is a member with a client address.
* `FSM.Keeps`, `FSM.KeepsAll` — what commands and plans must respect for that.
-/

namespace AgentBus.Leadership

open AgentStream Grpcapi

/-- `Decision`. -/
structure Decision where
  shardID : UInt32
  leaderNodeID : String
  leaderClientAddr : String
  isLocal : Bool
  deriving DecidableEq, Repr

/-- `Router`. -/
structure Router where
  selfNodeID : String
  fsm : FSM
  isAlive : String → Bool

/-- `RouteSession`. -/
def Router.routeSession (rt : Router) (tenant project sessionID : String) : Decision :=
  let count := rt.fsm.shardCount
  if count = 0 then ⟨0, "", "", false⟩
  else
    let shard := hashToShard (sessionKey tenant project sessionID) count
    let leader := rt.fsm.shardLeader shard
    if leader = "" ∨ ¬ rt.isAlive leader then ⟨shard, "", "", false⟩
    else if leader = rt.selfNodeID then ⟨shard, leader, "", true⟩
    else
      match rt.fsm.memberAt leader with
      | none => ⟨shard, leader, "", false⟩
      | some m => ⟨shard, leader, m.clientAddr, false⟩

/-- What changes the metadata. -/
inductive Change where
  /-- A log entry is committed. -/
  | commit (entry : Option Command)
  /-- `Plan` runs, and its commands are committed. -/
  | plan (live : Liveness)

namespace FSM

def change (f : FSM) : Change → FSM
  | .commit entry => (f.applyLog entry).1
  | .plan live => (Leadership.plan f live FSM.apply f).1

/-- Changes one after the other. -/
def changes (f : FSM) (cs : List Change) : FSM := cs.foldl change f

/-- Every shard leader is a member with a client address. -/
def LeadersReachable (f : FSM) : Prop :=
  ∀ s id, f.shardLeaders.lookup s = some id → id ≠ "" ∧ f.Reachable id

/-- A node that is made a leader has a client address, and a leader is not registered without
one. -/
def Keeps (f : FSM) (cmd : Command) : Prop :=
  match cmd.op with
  | .setShardLeader => cmd.nodeID ≠ "" → f.Reachable cmd.nodeID
  | .registerMember => cmd.clientAddr = "" → ∀ s, f.shardLeaders.lookup s ≠ some cmd.nodeID
  | _ => True

/-- A change whose commands do. -/
def KeepsChange (f : FSM) : Change → Prop
  | .commit entry => ∀ cmd ∈ entry, f.Keeps cmd
  | .plan live => ∀ cmd ∈ planCommands f live, f.Keeps cmd

/-- Changes that do, each in the state it meets. -/
def KeepsAll (f : FSM) : List Change → Prop
  | [] => True
  | c :: cs => f.KeepsChange c ∧ (f.change c).KeepsAll cs

variable {f g : FSM}

/-! ## One command -/

@[simp] theorem memberAt_insert (f : FSM) (id : String) (m : Member) (id' : String) :
    ({ f with members := f.members.insert id m } : FSM).memberAt id' =
      if id' = id then some m else f.memberAt id' := by
  by_cases hid : id' = id
  · subst hid
    simp [memberAt]
  · simp [memberAt, hid]

theorem reachable_insert {id id' : String} {m : Member} :
    ({ f with members := f.members.insert id m } : FSM).Reachable id' ↔
      if id' = id then m.clientAddr ≠ "" else f.Reachable id' := by
  rw [Reachable, memberAt_insert]
  split
  · simp
  · rfl

/-- A member record that leaves a leader its client address. -/
theorem LeadersReachable.insert (h : f.LeadersReachable) {id : String} {m : Member}
    (hm : ∀ s, f.shardLeaders.lookup s = some id → m.clientAddr ≠ "") :
    ({ f with members := f.members.insert id m } : FSM).LeadersReachable := by
  intro s id' hl
  obtain ⟨hne, hreach⟩ := h s id' hl
  refine ⟨hne, reachable_insert.mpr ?_⟩
  split
  · rename_i hid
    exact hm s (hid ▸ hl)
  · exact hreach

theorem LeadersReachable.removeMember (h : f.LeadersReachable) (id : String) :
    ({ f with members := f.members.erase id, shardLeaders := f.leadersBut id } :
      FSM).LeadersReachable := by
  intro s id' hl
  rw [lookup_leadersBut, Option.filter_eq_some_iff] at hl
  obtain ⟨hne, m, hm, haddr⟩ := h s id' hl.1
  refine ⟨hne, m, ?_, haddr⟩
  rw [memberAt, AList.lookup_erase_ne (of_decide_eq_true hl.2)]
  exact hm

theorem LeadersReachable.register_iff (h : f.LeadersReachable) (id addr clientAddr : String) :
    ({ f with members := f.members.insert id ⟨id, addr, clientAddr⟩ } : FSM).LeadersReachable ↔
      (clientAddr = "" → ∀ s, f.shardLeaders.lookup s ≠ some id) := by
  constructor
  · intro h' haddr s hl
    have hreach := (h' s id hl).2
    rw [reachable_insert, if_pos rfl] at hreach
    exact hreach haddr
  · exact fun hkeep => h.insert fun s hl haddr => hkeep haddr s hl

theorem LeadersReachable.setLeader_iff (h : f.LeadersReachable) {id : String} (hid : id ≠ "")
    (s : UInt32) :
    ({ f with shardLeaders := f.shardLeaders.insert s id } : FSM).LeadersReachable ↔
      f.Reachable id := by
  constructor
  · intro h'
    exact (h' s id (AList.lookup_insert _)).2
  · intro hreach s' id' hl
    by_cases hs : s' = s
    · subst hs
      rw [AList.lookup_insert] at hl
      cases hl
      exact ⟨hid, hreach⟩
    · rw [AList.lookup_insert_ne hs] at hl
      exact h s' id' hl

/-- **The commands that keep the leaders reachable.** -/
theorem leadersReachable_apply_iff (h : f.LeadersReachable) (cmd : Command) :
    (f.apply cmd).1.LeadersReachable ↔ f.Keeps cmd := by
  obtain ⟨op, nodeID, addr, clientAddr, shard⟩ := cmd
  cases op with
  | addMember =>
    simp only [Keeps, iff_true, apply]
    split
    · exact h
    · refine h.insert fun s hl => ?_
      obtain ⟨-, m, hm, haddr⟩ := h s nodeID hl
      simpa [hm] using haddr
  | registerMember =>
    by_cases hid : nodeID = ""
    · -- such a command is refused, and no leader has that name
      simp only [apply, hid, if_true, Keeps]
      exact iff_of_true h fun _ s hl => (h s "" hl).1 rfl
    · simp only [apply, hid, if_false, Keeps]
      exact h.register_iff nodeID addr clientAddr
  | removeMember =>
    simp only [Keeps, iff_true, apply]
    exact h.removeMember nodeID
  | setShardLeader =>
    by_cases hid : nodeID = ""
    · simp only [apply, hid, if_true, Keeps]
      exact iff_of_true h fun hne => absurd rfl hne
    · simp only [apply, hid, if_false, Keeps, ne_eq, not_false_eq_true, true_implies]
      exact h.setLeader_iff hid shard
  | setShardCount =>
    simp only [Keeps, iff_true, apply]
    exact h
  | other name =>
    simp only [Keeps, iff_true, apply]
    exact h

/-! ## Runs -/

theorem keeps_setLeader_congr {f g : FSM} (h : g.members = f.members) (s : UInt32) (id : String) :
    g.Keeps (.setLeader s id) ↔ f.Keeps (.setLeader s id) := by
  simp only [Keeps, Command.setLeader, Reachable, memberAt, h]

@[simp] theorem members_apply_setLeader (f : FSM) (s : UInt32) (id : String) :
    (f.apply (.setLeader s id)).1.members = f.members := by
  by_cases hid : id = ""
  · simp [apply, Command.setLeader, hid]
  · simp [apply, Command.setLeader, hid]

/-- Commands of a plan, one by one. -/
theorem LeadersReachable.applyEach (h : f.LeadersReachable) {pairs : List (UInt32 × String)}
    (hkeeps : ∀ p ∈ pairs, f.Keeps (.setLeader p.1 p.2)) (issued : ℕ) :
    (applyEach FSM.apply (pairs.map fun p => .setLeader p.1 p.2) issued f).1.LeadersReachable := by
  induction pairs generalizing f issued with
  | nil => exact h
  | cons p pairs ih =>
    have hnext := (leadersReachable_apply_iff h _).mpr (hkeeps p (by simp))
    have hrest : ∀ q ∈ pairs, (f.apply (.setLeader p.1 p.2)).1.Keeps (.setLeader q.1 q.2) :=
      fun q hq => (keeps_setLeader_congr (members_apply_setLeader ..) ..).mpr
        (hkeeps q (List.mem_cons_of_mem _ hq))
    simp only [List.map_cons, Leadership.applyEach]
    split
    · rename_i f' heq
      rw [heq] at hnext hrest
      exact ih hnext hrest _
    · rename_i f' err heq
      rw [heq] at hnext hrest
      exact ih hnext hrest _

/-- A plan keeps the leaders reachable where the nodes it sees alive have client addresses. -/
theorem keepsChange_plan {live : Liveness} (h : ∀ id ∈ live.aliveMembers, f.Reachable id) :
    f.KeepsChange (.plan live) := by
  intro cmd hcmd
  obtain ⟨p, hp, rfl⟩ := List.mem_map.mp hcmd
  exact fun _ => h p.2 (snd_mem_of_mem_assignments hp)

theorem LeadersReachable.change (h : f.LeadersReachable) {c : Change} (hkeeps : f.KeepsChange c) :
    (f.change c).LeadersReachable := by
  cases c with
  | commit entry =>
    cases entry with
    | none => exact h
    | some cmd => exact (leadersReachable_apply_iff h cmd).mpr (hkeeps cmd rfl)
  | plan live =>
    rw [FSM.change, plan_eq]
    exact h.applyEach (fun p hp => hkeeps _ (List.mem_map_of_mem hp)) 0

theorem LeadersReachable.changes (h : f.LeadersReachable) {cs : List Change}
    (hkeeps : f.KeepsAll cs) : (f.changes cs).LeadersReachable := by
  induction cs generalizing f with
  | nil => exact h
  | cons c cs ih => exact ih (h.change hkeeps.1) hkeeps.2

/-! ## Routes -/

theorem LeadersReachable.routeSession (h : f.LeadersReachable) (rt : Router) (hrt : rt.fsm = f)
    (tenant project sessionID : String) {id : String} (hcount : f.shardCount ≠ 0)
    (hl : f.shardLeaders.lookup
      (hashToShard (sessionKey tenant project sessionID) f.shardCount) = some id)
    (halive : rt.isAlive id) (hself : id ≠ rt.selfNodeID) :
    ∃ m, f.memberAt id = some m ∧ m.clientAddr ≠ "" ∧
      rt.routeSession tenant project sessionID =
        ⟨hashToShard (sessionKey tenant project sessionID) f.shardCount, id, m.clientAddr,
          false⟩ := by
  obtain ⟨hne, m, hm, haddr⟩ := h _ id hl
  subst hrt
  refine ⟨m, hm, haddr, ?_⟩
  simp [Router.routeSession, hcount, FSM.shardLeader, hl, hne, halive, hself, hm]

end FSM

/-- Where a node is made a leader only while it is registered with a client address, and no leader
is registered without one, every shard leader is a member, and any other node that sees it alive
answers with its client address. -/
theorem leaders_routable (cs : List Change) (hkeeps : FSM.new.KeepsAll cs) :
    let f := FSM.new.changes cs
    (∀ s id, f.shardLeaders.lookup s = some id → (f.memberAt id).isSome) ∧
      ∀ (rt : Router) (tenant project sessionID id : String), rt.fsm = f → f.shardCount ≠ 0 →
        f.shardLeaders.lookup
          (hashToShard (sessionKey tenant project sessionID) f.shardCount) = some id →
        rt.isAlive id → id ≠ rt.selfNodeID →
        ∃ m, f.memberAt id = some m ∧ m.clientAddr ≠ "" ∧
          rt.routeSession tenant project sessionID =
            ⟨hashToShard (sessionKey tenant project sessionID) f.shardCount, id, m.clientAddr,
              false⟩ := by
  intro f
  have hnew : FSM.new.LeadersReachable := fun s id hl => by simp [FSM.new] at hl
  have h : f.LeadersReachable := hnew.changes hkeeps
  refine ⟨fun s id hl => ?_, fun rt tenant project sessionID id hrt hcount hl halive hself => ?_⟩
  · obtain ⟨-, m, hm, -⟩ := h s id hl
    simp [hm]
  · exact h.routeSession rt hrt tenant project sessionID hcount hl halive hself

/-- A node is registered before a plan makes it the leader. -/
theorem leaders_routable_registered :
    let live : Liveness := ⟨fun id => id = "n1", ["n1"]⟩
    let cs : List Change :=
      [.commit (some ⟨.registerMember, "n1", "n1:7000", "n1:9000", 0⟩),
        .commit (some ⟨.setShardCount, "", "", "", 1⟩), .plan live]
    (FSM.new.changes cs).shardLeaders.lookup 0 = some "n1" ∧
      ((FSM.new.changes cs).memberAt "n1").isSome := by
  intro live cs
  have hleader : (FSM.new.changes cs).shardLeaders.lookup 0 = some "n1" := by decide +kernel
  have hkeeps : FSM.new.KeepsAll cs := by
    refine ⟨?_, ?_, ?_, trivial⟩
    · rintro cmd ⟨⟩
      simp [FSM.Keeps]
    · rintro cmd ⟨⟩
      trivial
    · refine FSM.keepsChange_plan fun id hid => ?_
      obtain rfl := List.mem_singleton.mp hid
      exact ⟨⟨"n1", "n1:7000", "n1:9000"⟩, by decide +kernel, by decide⟩
  exact ⟨hleader, (leaders_routable cs hkeeps).1 0 "n1" hleader⟩

/-- A node that is alive and not registered yet is made the leader of the only shard: another node
knows the leader and cannot tell its address. -/
theorem plan_leaves_unregistered :
    let live : Liveness := ⟨fun id => id = "n1", ["n1"]⟩
    let f := FSM.new.changes [.commit (some ⟨.setShardCount, "", "", "", 1⟩), .plan live]
    f.shardLeaders.lookup 0 = some "n1" ∧ f.memberAt "n1" = none ∧
      (⟨"n2", f, live.isAlive⟩ : Router).routeSession "acme" "p" "s" = ⟨0, "n1", "", false⟩ := by
  decide +kernel

end AgentBus.Leadership
