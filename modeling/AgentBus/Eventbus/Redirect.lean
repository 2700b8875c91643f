import AgentBus.Cluster.Router
import AgentBus.Eventbus.Client
import AgentBus.Lib.Pool

/-!
# Publishing to a cluster through the SDK

In a cluster `PublishAgentTo` of `eventbus/publish.go` calls the node it is connected to, and once
more the node at the address it is redirected to (`eventbus/redirect.go`).  A node admits an event
if its own copy of the metadata says that it leads the shard of the session.

The copies follow one committed log at their own pace, the nodes disagree about who is alive, and
addresses move.  Every event that gets into a shard log is put down to the metadata its node had
when it let the event in: a node that led the shard by then, and for events of one session the same
node wherever the calls came in, as long as the metadata is the same.

In the state a plan leaves, once everybody has applied it, a publish through any node succeeds.

## Main definitions

* `Site`, `Nodes`, `Nodes.router` — the nodes of a cluster.
* `checkRoute` — the route check of `PublishAgent`.
* `Publish`, `publishes` — calls of `PublishAgentTo`.
* `Record` — where an event was let in.
-/

namespace AgentBus.Eventbus

open AgentStream Grpcapi Leadership Pool

/-! ## The nodes -/

/-- How many entries of the committed log a node has applied, and who is alive in its eyes. -/
structure Site where
  applied : ℕ
  isAlive : String → Bool

/-- The committed log of the metadata, the nodes, and who listens at an address. -/
structure Nodes where
  entries : List (Option Command)
  site : String → Site
  listens : String → Option String

/-- The metadata after `n` entries. -/
def metadataAt (entries : List (Option Command)) (n : ℕ) : FSM :=
  (FSM.new.applyAll (entries.take n)).1

namespace Nodes

/-- Nothing is committed, and nobody has heard of anybody. -/
def init : Nodes := ⟨[], fun _ => ⟨0, fun _ => false⟩, fun _ => none⟩

/-- The router of a node. -/
def router (s : Nodes) (node : String) : Router :=
  ⟨node, metadataAt s.entries (s.site node).applied, (s.site node).isAlive⟩

end Nodes

/-- The route check of `PublishAgent`: the shard, or the hint of the error. -/
def checkRoute (rt : Router) (ev : AgentEvent) : Except String UInt32 :=
  if ev.tenant ≠ "" ∧ ev.project ≠ "" ∧ ev.sessionID ≠ "" then
    let d := rt.routeSession ev.tenant ev.project ev.sessionID
    if d.isLocal then .ok d.shardID else .error d.leaderClientAddr
  else .ok 0

/-! ## A call -/

/-- The node that let an event into a shard, and how much of the metadata it had applied. -/
structure Record where
  node : String
  shard : UInt32
  applied : ℕ
  deriving DecidableEq, Repr

/-- What `PublishAgentTo` answers. -/
inductive PublishAnswer where
  | ok
  /-- The SDK refuses the event. -/
  | invalid (msg : String)
  /-- `NotLeaderError`. -/
  | notLeader (hint : String)
  /-- Any other error of the call, of the server or of the connection. -/
  | failed
  deriving DecidableEq, Repr

/-- A call of `PublishAgentTo`. -/
inductive Publish where
  | start (node : String) (ev : AgentEvent)
  /-- The request goes to a node, for the second time if `again`. -/
  | calling (node : String) (ev : AgentEvent) (again : Bool)
  /-- The first node has answered with an address. -/
  | redirected (ev : AgentEvent) (hint : String)
  /-- The handler is about to append to the shard. -/
  | appending (ev : AgentEvent) (r : Record)
  /-- The event is in the shard: the quorum, the log and the topic. -/
  | appended (ev : AgentEvent) (r : Record)
  | done (ev : AgentEvent) (answer : PublishAnswer) (r : Option Record)

/-- How a step goes: on, or it fails. -/
inductive PublishChoice where
  | go
  | fail
  deriving DecidableEq, Repr

namespace Publish

/-- What the SDK makes of the answer of a route check. -/
def onRoute (s : Nodes) (node : String) (ev : AgentEvent) (again : Bool) :
    Except String UInt32 → Publish
  | .ok shard => .appending ev ⟨node, shard, (s.site node).applied⟩
  | .error hint =>
    -- A redirect without an address is an error, and so is a second redirect.
    if again ∨ hint = "" then .done ev (.notLeader hint) none else .redirected ev hint

def step (now : Time) (s : Nodes) : Publish → PublishChoice → Option Publish
  | start node ev, .go =>
    match validateAgentEvent ev with
    | .error msg => some (.done ev (.invalid msg) none)
    | .ok _ =>
      match encodeAgentEvent now ev with
      | .error msg => some (.done ev (.invalid msg) none)
      | .ok _ => some (.calling node ev false)
  | calling node ev again, .go => some (onRoute s node ev again (checkRoute (s.router node) ev))
  -- The rate limiter, or a node that does not answer.
  | calling _ ev _, .fail => some (.done ev .failed none)
  | redirected ev hint, .go =>
    match s.listens hint with
    | some node => some (.calling node ev true)
    | none => some (.done ev .failed none)
  | redirected ev hint, .fail => some (.done ev (.notLeader hint) none)
  | appending ev r, .go => some (.appended ev r)
  -- A failed append may leave the event in the file.
  | appending ev r, .fail => some (.done ev .failed (some r))
  | appended ev r, .go => some (.done ev .ok (some r))
  | appended ev r, .fail => some (.done ev .failed (some r))
  | start _ _, .fail => none
  | done _ _ _, _ => none

/-- The event that is published. -/
def event : Publish → AgentEvent
  | start _ ev | calling _ ev _ | redirected ev _ | appending ev _ | appended ev _
  | done ev _ _ => ev

/-- Where the event was put into the log of a shard. -/
def record? : Publish → Option Record
  | appended _ r => some r
  | done _ _ r => r
  | _ => none

end Publish

/-! ## Runs -/

/-- What happens to the nodes. -/
inductive NodesStep where
  /-- An entry of the metadata is committed. -/
  | commit (entry : Option Command)
  /-- A node applies its next entry. -/
  | apply (node : String)
  /-- A node starts over. -/
  | restart (node : String)
  /-- A node hears who is alive. -/
  | gossip (node : String) (alive : List String)
  /-- Another node listens at an address, or nobody does. -/
  | listen (addr : String) (node : Option String)

/-- Another site for a node. -/
def Nodes.set (s : Nodes) (node : String) (x : Site) : Nodes :=
  { s with site := Function.update s.site node x }

def Nodes.step (s : Nodes) : NodesStep → Option Nodes
  | .commit entry => some { s with entries := s.entries ++ [entry] }
  | .apply node =>
    if (s.site node).applied < s.entries.length then
      some (s.set node { s.site node with applied := (s.site node).applied + 1 })
    else none
  | .restart node => some (s.set node { s.site node with applied := 0 })
  | .gossip node alive => some (s.set node { s.site node with isAlive := fun id => id ∈ alive })
  | .listen addr node => some { s with listens := Function.update s.listens addr node }

/-- Calls through any nodes at the time `now`. -/
def publishes (now : Time) :
    Program Nodes Publish (String × AgentEvent) PublishChoice NodesStep where
  entry r := .start r.1 r.2
  thread s t l := (t.step now s l).map fun t' => (s, t')
  env := Nodes.step

/-! ## Where events are let in -/

/-- The shard of a session. -/
def AgentEvent.shardOf (ev : AgentEvent) (f : FSM) : UInt32 :=
  hashToShard (sessionKey ev.tenant ev.project ev.sessionID) f.shardCount

/-- The node that let the event in led the shard of its session. -/
structure Record.Led (entries : List (Option Command)) (ev : AgentEvent) (r : Record) : Prop where
  applied : r.applied ≤ entries.length
  shard : r.shard = ev.shardOf (metadataAt entries r.applied)
  leader : (metadataAt entries r.applied).shardLeader r.shard = r.node

/-- No name of the session is missing. -/
abbrev AgentEvent.Named (ev : AgentEvent) : Prop :=
  ev.tenant ≠ "" ∧ ev.project ≠ "" ∧ ev.sessionID ≠ ""

variable {ev : AgentEvent} {entries : List (Option Command)} {r : Record} {s : Nodes} {t : Publish}

theorem named_of_validate (h : validateAgentEvent ev = .ok ()) : ev.Named := by
  have hblank : trimSpace "" = "" := by decide
  unfold validateAgentEvent at h
  split_ifs at h with htype htenant hproject hsession hagent
  refine ⟨fun hnil => htenant ?_, fun hnil => hproject ?_, fun hnil => hsession ?_⟩
  all_goals rw [hnil, hblank]

theorem metadataAt_append {n : ℕ} (h : n ≤ entries.length) (entry : Option Command) :
    metadataAt (entries ++ [entry]) n = metadataAt entries n := by
  rw [metadataAt, metadataAt, List.take_append_of_le_length h]

theorem Record.Led.append (h : r.Led entries ev) (entry : Option Command) :
    r.Led (entries ++ [entry]) ev where
  applied := by
    rw [List.length_append]
    exact Nat.le_add_right_of_le h.applied
  shard := by rw [metadataAt_append h.applied]; exact h.shard
  leader := by rw [metadataAt_append h.applied]; exact h.leader

/-- A session is local to the leader of its shard only. -/
theorem routeSession_local {rt : Router} {tenant project sessionID : String}
    (h : (rt.routeSession tenant project sessionID).isLocal = true) :
    (rt.routeSession tenant project sessionID).shardID =
        hashToShard (sessionKey tenant project sessionID) rt.fsm.shardCount ∧
      rt.fsm.shardLeader (hashToShard (sessionKey tenant project sessionID) rt.fsm.shardCount) =
        rt.selfNodeID := by
  unfold Router.routeSession at h ⊢
  dsimp only at h ⊢
  split_ifs at h ⊢ with hcount halive hself
  · exact ⟨rfl, hself⟩
  · split at h <;> cases h

theorem led_of_checkRoute {node : String} {shard : UInt32}
    (hle : (s.site node).applied ≤ s.entries.length) (hnamed : ev.Named)
    (h : checkRoute (s.router node) ev = .ok shard) :
    Record.Led s.entries ev ⟨node, shard, (s.site node).applied⟩ := by
  unfold checkRoute at h
  rw [if_pos hnamed] at h
  dsimp only at h
  split at h
  · rename_i hlocal
    cases h
    obtain ⟨hshard, hleader⟩ := routeSession_local hlocal
    exact ⟨hle, hshard, by rw [hshard]; exact hleader⟩
  · cases h

/-! ## Along a run -/

/-- Nobody has applied what is not committed. -/
def Nodes.Behind (s : Nodes) : Prop := ∀ node, (s.site node).applied ≤ s.entries.length

/-- What is known of a call: the SDK has accepted the event, and where it was let in. -/
def Publish.Sound (entries : List (Option Command)) : Publish → Prop
  | .start _ _ => True
  | .calling _ ev _ | .redirected ev _ => ev.Named
  | .appending ev r | .appended ev r => r.Led entries ev
  | .done ev answer r =>
    (∀ r' ∈ r, r'.Led entries ev) ∧
      match answer with
      | .ok => r.isSome
      | .invalid _ | .notLeader _ => r = none
      | .failed => True

theorem Publish.Sound.append (h : t.Sound entries) (entry : Option Command) :
    t.Sound (entries ++ [entry]) := by
  cases t with
  | start node ev => trivial
  | calling node ev again => exact h
  | redirected ev hint => exact h
  | appending ev r => exact Record.Led.append h entry
  | appended ev r => exact Record.Led.append h entry
  | done ev answer r => exact ⟨fun r' hr' => (h.1 r' hr').append entry, h.2⟩

/-- A call that leaves no record does not answer that all is well. -/
theorem Publish.sound_done (ev : AgentEvent) {answer : PublishAnswer} (h : answer ≠ .ok) :
    (Publish.done ev answer none).Sound entries := by
  refine ⟨fun r' hr' => (Option.not_mem_none r' hr').elim, ?_⟩
  cases answer with
  | ok => exact absurd rfl h
  | invalid msg => rfl
  | notLeader hint => rfl
  | failed => trivial

theorem Publish.Sound.step {now : Time} (hs : s.Behind) {t' : Publish} {l : PublishChoice}
    (ht : t.Sound s.entries) (h : t.step now s l = some t') : t'.Sound s.entries := by
  unfold Publish.step at h
  split at h
  · split at h
    · cases h
      exact sound_done _ (by simp)
    · rename_i hvalid
      split at h
      · cases h
        exact sound_done _ (by simp)
      · cases h
        exact named_of_validate hvalid
  · rename_i node ev again
    cases h
    cases hcheck : checkRoute (s.router node) ev with
    | ok shard => exact led_of_checkRoute (hs node) ht hcheck
    | error hint =>
      unfold Publish.onRoute
      dsimp only
      split
      · exact sound_done ev (by simp)
      · exact ht
  · cases h
    exact sound_done _ (by simp)
  · split at h
    · cases h
      exact ht
    · cases h
      exact sound_done _ (by simp)
  · cases h
    exact sound_done _ (by simp)
  · cases h
    exact ht
  · cases h
    exact ⟨fun r' hr' => Option.mem_some_iff.mp hr' ▸ ht, trivial⟩
  · cases h
    exact ⟨fun r' hr' => Option.mem_some_iff.mp hr' ▸ ht, rfl⟩
  · cases h
    exact ⟨fun r' hr' => Option.mem_some_iff.mp hr' ▸ ht, trivial⟩
  · cases h
  · cases h

theorem Nodes.Behind.set (h : s.Behind) {node : String} {x : Site}
    (hx : x.applied ≤ s.entries.length) : (s.set node x).Behind := by
  intro node'
  unfold Nodes.set
  dsimp only
  by_cases hnode : node' = node
  · subst hnode
    rwa [Function.update_self]
  · rw [Function.update_of_ne hnode]
    exact h node'

theorem publishes_sound {now : Time} {w : World Nodes Publish}
    (h : (publishes now).Reach Guard.all Nodes.init w) :
    Holds Nodes.Behind (fun s t => t.Sound s.entries) (fun _ _ => True) w := by
  refine Program.Reach.local_invariant (fun _ _ _ => trivial) (fun _ => Nat.le_refl 0) ?_ ?_ ?_ h
  · intro s r _
    exact ⟨trivial, fun _ _ => trivial⟩
  · intro s t l s' t' hs ht _ hstep
    obtain ⟨t'', ht'', heq⟩ := Option.map_eq_some_iff.mp hstep
    cases heq
    exact ⟨⟨hs, ht.step hs ht''⟩, fun u hu _ => ⟨hu, trivial⟩⟩
  · intro s e s' hs _ hstep
    cases e with
    | commit entry =>
      cases hstep
      refine ⟨fun node => ?_, fun u hu => hu.append entry⟩
      rw [List.length_append]
      exact Nat.le_add_right_of_le (hs node)
    | apply node =>
      simp only [publishes, Nodes.step] at hstep
      split at hstep
      · rename_i hlt
        cases hstep
        exact ⟨hs.set hlt, fun u hu => hu⟩
      · cases hstep
    | restart node =>
      cases hstep
      exact ⟨hs.set (Nat.zero_le _), fun u hu => hu⟩
    | gossip node alive =>
      cases hstep
      exact ⟨hs.set (hs node), fun u hu => hu⟩
    | listen addr node =>
      cases hstep
      exact ⟨hs, fun u hu => hu⟩

theorem Publish.Sound.record (h : t.Sound entries) (hr : r ∈ t.record?) :
    r.Led entries t.event := by
  cases t with
  | appended ev q => exact Option.mem_some_iff.mp hr ▸ h
  | done ev answer q => exact h.1 r hr
  | start | calling | redirected | appending => exact (Option.not_mem_none r hr).elim

/-- What is known of two records of one session, made on the same metadata. -/
theorem Record.Led.unique {ev' : AgentEvent} {r' : Record}
    (h : r.Led entries ev) (h' : r'.Led entries ev')
    (hkey : sessionKey ev.tenant ev.project ev.sessionID =
      sessionKey ev'.tenant ev'.project ev'.sessionID)
    (happlied : r.applied = r'.applied) : r = r' := by
  obtain ⟨node, shard, applied⟩ := r
  obtain ⟨node', shard', applied'⟩ := r'
  cases happlied
  have hshard : shard = shard' := by
    have hr : shard = _ := h.shard
    have hr' : shard' = _ := h'.shard
    rw [hr, hr', AgentEvent.shardOf, AgentEvent.shardOf, hkey]
  cases hshard
  have hnode : node = node' := h.leader.symm.trans h'.leader
  rw [hnode]

/-- **Events are let in by the leader of their shard.**  In every run, a call leaves its event in
the log of at most one node.  That node led the shard of the session by the metadata it had applied,
and two events of one session that were let in on the same metadata were let in by the same node.
A call that reports success has left its event there, and one that reports that it found no leader
has not. -/
theorem publish_at_leader {now : Time} {w : World Nodes Publish}
    (h : (publishes now).Reach Guard.all Nodes.init w) :
    (∀ t ∈ w.threads, ∀ r ∈ t.record?, r.Led w.shared.entries t.event) ∧
      (∀ t ∈ w.threads, ∀ u ∈ w.threads, ∀ r ∈ t.record?, ∀ q ∈ u.record?,
        sessionKey t.event.tenant t.event.project t.event.sessionID =
            sessionKey u.event.tenant u.event.project u.event.sessionID →
          r.applied = q.applied → r = q) ∧
      (∀ ev r, Publish.done ev .ok r ∈ w.threads → r.isSome) ∧
      ∀ ev hint r, Publish.done ev (.notLeader hint) r ∈ w.threads → r = none := by
  have hsound := publishes_sound h
  refine ⟨fun t ht r hr => (hsound.of_mem ht).record hr, ?_, ?_, ?_⟩
  · intro t ht u hu r hr q hq hkey happlied
    exact ((hsound.of_mem ht).record hr).unique ((hsound.of_mem hu).record hq) hkey happlied
  · intro ev r hr
    exact (hsound.of_mem hr).2
  · intro ev hint r hr
    exact (hsound.of_mem hr).2

/-- An event of the session `s`. -/
def stepTaken : AgentEvent where
  tenant := "t"
  project := "p"
  sessionID := "s"
  agentID := "a"
  type := "step"
  step := ""
  attempt := 1
  payload := []
  version := ""
  createdAt := 0
  attempt_ge := by decide
  attempt_lt := by decide

/-- One shard, and one node that is registered. -/
def oneNode : List (Option Command) :=
  [some ⟨.setShardCount, "", "", "", 1⟩, some ⟨.registerMember, "n1", "r1", "a1", 0⟩]

/-- The node leads the shard. -/
def oneLeader : List (Option Command) := oneNode ++ [some (.setLeader 0 "n1")]

/-- A call through another node is redirected to the leader. -/
def redirectedOnce : List (Act (String × AgentEvent) PublishChoice NodesStep) :=
  (oneLeader.flatMap fun entry => [.env (.commit entry), .env (.apply "n1"), .env (.apply "n2")]) ++
    [.env (.gossip "n1" ["n1"]), .env (.gossip "n2" ["n1"]), .env (.listen "a1" (some "n1")),
      .spawn ("n2", stepTaken)] ++ List.replicate 6 (.run 0 .go)

theorem publish_at_leader_redirected :
    ∃ w r, (publishes 0).Reach Guard.all Nodes.init w ∧
      .done stepTaken .ok (some r) ∈ w.threads ∧ r.node = "n1" ∧
      r.Led w.shared.entries stepTaken := by
  have hrun : ((publishes 0).exec ⟨Nodes.init, []⟩ redirectedOnce).map World.threads =
      some [.done stepTaken .ok (some ⟨"n1", 0, 3⟩)] := rfl
  obtain ⟨w, hw, hthreads⟩ := Program.exists_reach hrun
  have hmem : .done stepTaken .ok (some ⟨"n1", 0, 3⟩) ∈ w.threads := by simp [hthreads]
  exact ⟨w, _, hw, hmem, rfl, (publish_at_leader hw).1 _ hmem _ rfl⟩

/-! ## After a plan -/

/-- Everybody has applied the plan and has the same nodes for alive, and these listen where the
metadata says. -/
structure Nodes.Planned (s : Nodes) (f : FSM) (live : Liveness) : Prop where
  metadata : ∀ node, (s.router node).fsm = (plan f live FSM.apply f).1
  alive : ∀ node, (s.router node).isAlive = live.isAlive
  listens : ∀ id ∈ live.aliveMembers, ∀ m ∈ f.memberAt id, s.listens m.clientAddr = some id

@[simp] theorem memberAt_assign (f : FSM) (pairs : List (UInt32 × String)) (id : String) :
    (f.assign pairs).memberAt id = f.memberAt id := by
  induction pairs generalizing f with
  | nil => rfl
  | cons p pairs ih => exact ih { f with shardLeaders := f.shardLeaders.insert p.1 p.2 }

/-- The leader of a session lets it in, and the other nodes answer with an address. -/
theorem Nodes.Planned.checkRoute {f : FSM} {live : Liveness} (h : s.Planned f live)
    (hlive : live.Consistent) (hcount : f.shardCount ≠ 0)
    (hreach : ∀ id ∈ live.aliveMembers, f.Reachable id) (hnamed : ev.Named) :
    ∃ leader ∈ live.aliveMembers, ∃ hint, hint ≠ "" ∧ s.listens hint = some leader ∧
      ∀ node, Eventbus.checkRoute (s.router node) ev =
        if node = leader then .ok (ev.shardOf f) else .error hint := by
  have hlt : ev.shardOf f < f.shardCount := UInt32.mod_lt _ (UInt32.pos_iff_ne_zero.mpr hcount)
  have hplan : (plan f live FSM.apply f).1 = f.assign (assignments f live) :=
    congrArg Prod.fst hlive.plan_apply
  obtain ⟨leader, hleader, hlookup⟩ : ∃ id ∈ live.aliveMembers,
      (f.assign (assignments f live)).shardLeaders.lookup (ev.shardOf f) = some id := by
    by_contra hnone
    simp only [not_exists, not_and] at hnone
    exact hlive.not_orphaned hlt (hlive.orphaned_iff.mpr hnone)
  obtain ⟨m, hm, haddr⟩ := hreach leader hleader
  refine ⟨leader, hleader, m.clientAddr, haddr, h.listens leader hleader m hm, ?_⟩
  intro node
  have hne : leader ≠ "" := fun hnil => hlive.named (hnil ▸ hleader)
  have halive : live.isAlive leader = true := (hlive.isAlive_iff leader).mpr hleader
  have hroute : (s.router node).routeSession ev.tenant ev.project ev.sessionID =
      if node = leader then ⟨ev.shardOf f, leader, "", true⟩
      else ⟨ev.shardOf f, leader, m.clientAddr, false⟩ := by
    have hshard : hashToShard (sessionKey ev.tenant ev.project ev.sessionID) f.shardCount =
        ev.shardOf f := rfl
    have hlead : (f.assign (assignments f live)).shardLeader (ev.shardOf f) = leader := by
      rw [FSM.shardLeader, hlookup, Option.getD_some]
    unfold Router.routeSession
    rw [h.metadata node, h.alive node, hplan, FSM.shardCount_assign]
    dsimp only
    rw [if_neg hcount, hshard, hlead, if_neg (by simp [hne, halive]), memberAt_assign, hm]
    have hself : leader = (s.router node).selfNodeID ↔ node = leader := eq_comm
    simp only [hself]
  unfold Eventbus.checkRoute
  rw [if_pos hnamed, hroute]
  split <;> rfl

/-- **After a plan every publish succeeds.**  Some nodes are alive and registered with an address,
and the plan for them has reached everybody.  A valid event is then let in by an alive node
whichever node the call goes to, after at most one redirect. -/
theorem planned_publish {now : Time} {w : World Nodes Publish} {f : FSM} {live : Liveness}
    (hlive : live.Consistent) (hcount : f.shardCount ≠ 0)
    (hreach : ∀ id ∈ live.aliveMembers, f.Reachable id) (hs : w.shared.Planned f live) {i : ℕ}
    {node : String} {ev : AgentEvent} (hi : w.threads[i]? = some (.start node ev))
    (hvalid : validateAgentEvent ev = .ok ()) {bs : List UInt8}
    (hencode : encodeAgentEvent now ev = .ok bs) :
    ∃ n ≤ 6, ∃ w' r,
      (publishes now).exec w (List.replicate n (.run i .go)) = some w' ∧
        w'.threads[i]? = some (.done ev .ok (some r)) ∧ r.node ∈ live.aliveMembers := by
  obtain ⟨leader, hleader, hint, hne, hlistens, hcheck⟩ :=
    hs.checkRoute hlive hcount hreach (named_of_validate hvalid)
  obtain ⟨hlt, -⟩ := List.getElem?_eq_some_iff.mp hi
  by_cases hnode : node = leader
  · have hsolo : (publishes now).solo w.shared (.start node ev) (List.replicate 4 .go) =
        some (w.shared, .done ev .ok
          (some ⟨node, ev.shardOf f, (w.shared.site node).applied⟩)) := by
      simp [Program.solo, publishes, Publish.step, hvalid, hencode, hcheck, hnode, Publish.onRoute]
    have hexec := Program.exec_solo hi hsolo
    rw [List.map_replicate] at hexec
    exact ⟨4, by decide, _, _, hexec, List.getElem?_set_self hlt, hnode ▸ hleader⟩
  · have hsolo : (publishes now).solo w.shared (.start node ev) (List.replicate 6 .go) =
        some (w.shared, .done ev .ok
          (some ⟨leader, ev.shardOf f, (w.shared.site leader).applied⟩)) := by
      simp [Program.solo, publishes, Publish.step, hvalid, hencode, hcheck, hnode, hne, hlistens,
        Publish.onRoute]
    have hexec := Program.exec_solo hi hsolo
    rw [List.map_replicate] at hexec
    exact ⟨6, le_rfl, _, _, hexec, List.getElem?_set_self hlt, hleader⟩

theorem planned_publish_other :
    let s : Nodes := ⟨oneLeader, fun _ => ⟨3, fun id => id = "n1"⟩, fun _ => some "n1"⟩
    ∃ n ≤ 6, ∃ w' r,
      (publishes 0).exec ⟨s, [.start "n2" stepTaken]⟩ (List.replicate n (.run 0 .go)) = some w' ∧
        w'.threads[0]? = some (.done stepTaken .ok (some r)) ∧ r.node ∈ ["n1"] := by
  intro s
  have hlive : Liveness.Consistent ⟨fun id => id = "n1", ["n1"]⟩ :=
    ⟨by simp, by simp, by decide, by simp⟩
  have hplanned : s.Planned (metadataAt oneNode 2) ⟨fun id => id = "n1", ["n1"]⟩ :=
    ⟨fun _ => rfl, fun _ => rfl, by simp [s]⟩
  have hencode : ∃ bs, encodeAgentEvent 0 stepTaken = .ok bs := ⟨_, rfl⟩
  obtain ⟨bs, hbs⟩ := hencode
  have hreach : ∀ id ∈ ["n1"], (metadataAt oneNode 2).Reachable id := by
    intro id hid
    rw [List.mem_singleton.mp hid]
    exact ⟨⟨"n1", "r1", "a1"⟩, rfl, by decide⟩
  have hvalid : validateAgentEvent stepTaken = .ok () := rfl
  exact planned_publish (w := ⟨s, [.start "n2" stepTaken]⟩) hlive (by decide) hreach hplanned rfl
    hvalid hbs

end AgentBus.Eventbus
