import AgentBus.AgentStream.Codec
import AgentBus.Broker.Broker
import Mathlib.Data.List.AList

/-!
# The control plane

`internal/controlplane`: a read-side consumer of the agent events.  It keeps a registry of agents,
a run state per session and an inbox per agent, and one event at a time it marks the agent busy,
advances the session's state machine and routes handoffs and escalations.

The optional metrics sink is left out; a sequence of calls is one at a time, as the poller makes
them.

## Main definitions

* `RunState`, `SessionStore.apply`, `SessionStore.escalate` — the state machine of a session.
* `Inboxes.open`, `Inboxes.deliver` — bounded queues that never block.
* `ControlPlane.ingest` — what one event does.
* `ControlPlane.message` — what the poller does with one message.
-/

namespace AgentBus.Controlplane

open AgentStream Broker

/-! ## Agents -/

/-- `AgentStatus`. -/
inductive AgentStatus where
  | idle
  | busy
  | offline
  deriving DecidableEq, Repr

/-- `AgentInfo`. -/
structure AgentInfo where
  id : String
  status : AgentStatus
  capabilities : List String
  currentSession : String
  lastSeen : Time
  deriving DecidableEq, Repr

/-- `Registry`. -/
structure Registry where
  agents : AList (fun _ : String => AgentInfo)
  ttl : ℤ

/-- `Register`; `caps` is absent when an inbox is opened. -/
def Registry.register (now : Time) (r : Registry) (id : String) (caps : Option (List String)) :
    Registry :=
  if id = "" then r
  else
    let a := (r.agents.lookup id).getD ⟨id, .idle, [], "", 0⟩
    let a := { a with
      capabilities := caps.getD a.capabilities
      status := if a.status = .offline then .idle else a.status
      lastSeen := now }
    { r with agents := r.agents.insert id a }

/-- `Touch`. -/
def Registry.touch (now : Time) (r : Registry) (id session : String) : Registry :=
  if id = "" then r
  else
    let a := (r.agents.lookup id).getD ⟨id, .busy, [], "", 0⟩
    let a := { a with status := .busy, currentSession := session, lastSeen := now }
    { r with agents := r.agents.insert id a }

/-! ## Sessions -/

/-- `RunStatus`. -/
inductive RunStatus where
  | running
  | waiting
  | failed
  | completed
  deriving DecidableEq, Repr

/-- `RunState`. -/
structure RunState where
  sessionKey : String
  activeAgent : String
  /-- Set after a handoff, until the target agent picks up. -/
  pendingAgent : String
  stepCount : ℕ
  status : RunStatus
  lastEventAt : Time
  deriving DecidableEq, Repr

/-- The event types that are interpreted, and the one that is made up. -/
def eventHandoff : String := "handoff"
def eventError : String := "error"
def eventComplete : String := "complete"
def eventEscalation : String := "escalation"

/-- Any event of the pending agent claims the active role. -/
def RunState.pickup (agentID : String) (rs : RunState) : RunState :=
  if rs.pendingAgent ≠ "" ∧ agentID = rs.pendingAgent then
    { rs with activeAgent := agentID, pendingAgent := "", status := .running }
  else rs

/-- The switch over the type of the event. -/
def RunState.advance (e : Event) (toAgent : String) (rs : RunState) : RunState :=
  if e.type = eventHandoff then
    if toAgent ≠ "" then
      { rs with pendingAgent := toAgent, status := .waiting, stepCount := rs.stepCount + 1 }
    else { rs with stepCount := rs.stepCount + 1 }
  else if e.type = eventError then
    { rs with status := .failed, stepCount := rs.stepCount + 1 }
  else if e.type = eventComplete then
    { rs with status := .completed, stepCount := rs.stepCount + 1 }
  else
    { rs with
      status := if rs.status ≠ .failed ∧ rs.status ≠ .completed then .running else rs.status
      activeAgent := if rs.activeAgent = "" then e.agentID else rs.activeAgent
      stepCount := rs.stepCount + 1 }

/-- `SessionStore`. -/
structure SessionStore where
  sessions : AList (fun _ : String => RunState)

/-- The state of a session: a new one is running, with the agent of its first event. -/
def SessionStore.entry (s : SessionStore) (e : Event) : RunState :=
  (s.sessions.lookup e.key).getD ⟨e.key, e.agentID, "", 0, .running, 0⟩

/-- `Apply`. -/
def SessionStore.apply (now : Time) (s : SessionStore) (e : Event) (toAgent : String) :
    SessionStore :=
  if e.key = "//" then s
  else
    let rs := { s.entry e with lastEventAt := now }
    ⟨s.sessions.insert e.key ((rs.pickup e.agentID).advance e toAgent)⟩

/-- `Get`. -/
def SessionStore.get (s : SessionStore) (key : String) : Option RunState := s.sessions.lookup key

/-- `Escalate`. -/
def SessionStore.escalate (now : Time) (s : SessionStore) (key toAgent : String) : SessionStore :=
  match s.sessions.lookup key with
  | none => s
  | some rs =>
    ⟨s.sessions.insert key
      { rs with pendingAgent := toAgent, status := .waiting, lastEventAt := now }⟩

/-! ## Inboxes -/

/-- `RoutedEvent`. -/
structure RoutedEvent where
  sessionKey : String
  type : String
  payload : List UInt8
  deriving DecidableEq, Repr

/-- `Inboxes`: the open ones, each a channel that buffers up to `size` events. -/
structure Inboxes where
  boxes : String → Option (List RoutedEvent)
  size : ℕ
  size_pos : 0 < size
  bounded : ∀ agent q, boxes agent = some q → q.length ≤ size

/-- `NewInboxes`. -/
def Inboxes.new (size : ℤ) : Inboxes where
  boxes := fun _ => none
  size := if size ≤ 0 then 1 else size.toNat
  size_pos := by split <;> omega
  bounded := by simp

/-- The inboxes with the queue of one agent replaced. -/
def Inboxes.set (i : Inboxes) (agent : String) (q : List RoutedEvent) (h : q.length ≤ i.size) :
    Inboxes where
  boxes := Function.update i.boxes agent (some q)
  size := i.size
  size_pos := i.size_pos
  bounded := by
    intro agent' q' hq'
    rw [Function.update_apply] at hq'
    split at hq'
    · cases hq'
      exact h
    · exact i.bounded _ _ hq'

/-- `Open`. -/
def Inboxes.open (i : Inboxes) (agent : String) : Inboxes :=
  match i.boxes agent with
  | some _ => i
  | none => i.set agent [] (Nat.zero_le _)

/-- `Deliver`: whether the event was enqueued. -/
def Inboxes.deliver (i : Inboxes) (agent : String) (ev : RoutedEvent) : Inboxes × Bool :=
  match i.boxes agent with
  | none => (i, false)
  | some q =>
    if h : q.length < i.size then
      (i.set agent (q ++ [ev]) (by simpa using Nat.succ_le_of_lt h), true)
    else (i, false)

section
variable {i : Inboxes} {agent : String} {q : List RoutedEvent}

/-- An event that finds a place is at the end of the queue. -/
theorem Inboxes.deliver_of_room (h : i.boxes agent = some q) (hroom : q.length < i.size)
    (ev : RoutedEvent) :
    (i.deliver agent ev).2 = true ∧ (i.deliver agent ev).1.size = i.size ∧
      (i.deliver agent ev).1.boxes = Function.update i.boxes agent (some (q ++ [ev])) := by
  have hdeliver : i.deliver agent ev =
      (i.set agent (q ++ [ev]) (by rw [List.length_append]; exact hroom), true) := by
    simp only [Inboxes.deliver, h, dif_pos hroom]
  rw [hdeliver]
  exact ⟨rfl, rfl, rfl⟩

end

/-! ## Ingestion -/

/-- `ControlPlane`.  An empty escalation agent disables escalation. -/
structure ControlPlane where
  reg : Registry
  sessions : SessionStore
  inboxes : Inboxes
  escalationAgent : String

/-- `New` without options: an agent is stale after thirty seconds, and an inbox has 256 places. -/
def ControlPlane.new : ControlPlane :=
  ⟨⟨∅, 30 * Time.second⟩, ⟨∅⟩, Inboxes.new 256, ""⟩

/-- `parseToAgent`. -/
def parseToAgent (payload : RawMessage) : String :=
  ((payload.bind Json.members).bind fun ms =>
    Json.readField Json.readString "to_agent" "" ms).getD ""

/-- The bytes of a raw message.  An envelope has the value of its payload, not the text it was read
from: these are the bytes `Marshal` writes for it, where `Ingest` hands on those that came. -/
def rawBytes (payload : RawMessage) : List UInt8 :=
  (payload.map fun v => Utf8.encode (Json.print v)).getD []

/-- The payload of an escalation. -/
def escalationPayload (agentID : String) : List UInt8 :=
  stringBytes ("\x7b\"reason\":\"terminal error\",\"from_agent\":\"" ++ agentID ++ "\"\x7d")

/-- `escalate`. -/
def ControlPlane.escalate (now : Time) (cp : ControlPlane) (e : Event) : ControlPlane :=
  { cp with
    sessions := cp.sessions.escalate now e.key cp.escalationAgent
    inboxes := (cp.inboxes.deliver cp.escalationAgent
      ⟨e.key, eventEscalation, escalationPayload e.agentID⟩).1 }

/-- The target of an event: empty unless the event is a handoff. -/
def target (e : Event) : String := if e.type = eventHandoff then parseToAgent e.payload else ""

/-- A handoff goes to the inbox of its target. -/
def ControlPlane.route (cp : ControlPlane) (e : Event) : ControlPlane :=
  if e.type = eventHandoff ∧ target e ≠ "" then
    { cp with inboxes := (cp.inboxes.deliver (target e) ⟨e.key, e.type, rawBytes e.payload⟩).1 }
  else cp

/-- `Ingest`. -/
def ControlPlane.ingest (now : Time) (cp : ControlPlane) (e : Event) : ControlPlane :=
  let cp := { cp with
    reg := cp.reg.touch now e.agentID e.key
    sessions := cp.sessions.apply now e (target e) }
  let cp := cp.route e
  if e.type = eventError ∧ cp.escalationAgent ≠ "" ∧ cp.escalationAgent ≠ e.agentID then
    cp.escalate now e
  else cp

/-- `OpenInbox`; an agent that opens its inbox is present. -/
def ControlPlane.openInbox (now : Time) (cp : ControlPlane) (id : String) : ControlPlane :=
  { cp with reg := cp.reg.register now id none, inboxes := cp.inboxes.open id }

/-- `GetSession`. -/
def ControlPlane.getSession (cp : ControlPlane) (tenant project session : String) :
    Option RunState :=
  cp.sessions.get (sessionKey tenant project session)

/-- What `drainOnce` does with one message: an envelope is ingested, anything else is skipped. -/
def ControlPlane.message (now : Time) (cp : ControlPlane) (m : Message (List UInt8)) :
    ControlPlane :=
  match parseEvent m.payload with
  | some e => cp.ingest now e
  | none => cp

/-- An envelope is ingested. -/
theorem ControlPlane.message_of_parseEvent (now : Time) (cp : ControlPlane) {offset : ℤ}
    {bytes : List UInt8} {e : Event} (h : parseEvent bytes = some e) :
    cp.message now ⟨offset, bytes⟩ = cp.ingest now e := by
  simp only [ControlPlane.message, h]

/-! ## What an event does to a session -/

/-- An event that is applied advances its own session, and no other. -/
theorem SessionStore.get_apply (now : Time) (s : SessionStore) {e : Event} (toAgent : String)
    (hkey : e.key ≠ "//") (key : String) :
    (s.apply now e toAgent).get key =
      if key = e.key then
        some ((RunState.pickup e.agentID { s.entry e with lastEventAt := now }).advance e toAgent)
      else s.get key := by
  simp only [SessionStore.apply, if_neg hkey, SessionStore.get]
  split
  · rename_i h
    rw [h, AList.lookup_insert]
  · rename_i h
    rw [AList.lookup_insert_ne h]

/-- An escalation concerns its own session, and no other. -/
@[simp] theorem SessionStore.get_escalate_of_ne (now : Time) (s : SessionStore) {key k : String}
    (toAgent : String) (hk : k ≠ key) : (s.escalate now key toAgent).get k = s.get k := by
  unfold SessionStore.escalate
  split
  · rfl
  · exact AList.lookup_insert_ne hk

@[simp] theorem SessionStore.isSome_get_escalate (now : Time) (s : SessionStore)
    (key toAgent : String) :
    ((s.escalate now key toAgent).get key).isSome = (s.get key).isSome := by
  unfold SessionStore.escalate SessionStore.get
  split
  · rfl
  · rename_i rs hrs
    rw [AList.lookup_insert, hrs]
    rfl

@[simp] theorem ControlPlane.sessions_route (cp : ControlPlane) (e : Event) :
    (cp.route e).sessions = cp.sessions := by
  unfold ControlPlane.route
  split <;> rfl

/-- What an event does to the sessions: it is applied, and it may be escalated. -/
theorem ControlPlane.sessions_ingest (now : Time) (cp : ControlPlane) (e : Event) :
    (cp.ingest now e).sessions = cp.sessions.apply now e (target e) ∨
      ∃ agent, (cp.ingest now e).sessions =
        (cp.sessions.apply now e (target e)).escalate now e.key agent := by
  unfold ControlPlane.ingest
  dsimp only
  generalize hcp : ControlPlane.route _ e = cp'
  have hs : cp'.sessions = cp.sessions.apply now e (target e) := by
    rw [← hcp, ControlPlane.sessions_route]
  split
  · refine .inr ⟨cp'.escalationAgent, ?_⟩
    rw [← hs]
    rfl
  · exact .inl hs

/-- **An event does not touch other sessions.** -/
@[simp] theorem ControlPlane.get_ingest_of_ne (now : Time) (cp : ControlPlane) {e : Event}
    {k : String} (hk : k ≠ e.key) : (cp.ingest now e).sessions.get k = cp.sessions.get k := by
  have happly : (cp.sessions.apply now e (target e)).get k = cp.sessions.get k := by
    by_cases hkey : e.key = "//"
    · simp only [SessionStore.apply, if_pos hkey]
    · rw [SessionStore.get_apply now _ _ hkey, if_neg hk]
  rcases cp.sessions_ingest now e with heq | ⟨agent, heq⟩
  · rw [heq, happly]
  · rw [heq, SessionStore.get_escalate_of_ne now _ agent hk, happly]

/-- After an event there is a session. -/
@[simp] theorem ControlPlane.isSome_get_ingest (now : Time) (cp : ControlPlane) {e : Event}
    (hkey : e.key ≠ "//") : ((cp.ingest now e).sessions.get e.key).isSome = true := by
  have happly : ((cp.sessions.apply now e (target e)).get e.key).isSome = true := by
    rw [SessionStore.get_apply now _ _ hkey, if_pos rfl]
    rfl
  rcases cp.sessions_ingest now e with heq | ⟨agent, heq⟩
  · rw [heq, happly]
  · rw [heq, SessionStore.isSome_get_escalate, happly]

/-- A handoff without a target is an event of its session and nothing more. -/
theorem ControlPlane.ingest_of_no_target (now : Time) (cp : ControlPlane) {e : Event}
    (htype : e.type = eventHandoff) (hto : parseToAgent e.payload = "") :
    cp.ingest now e =
      { cp with
        reg := cp.reg.touch now e.agentID e.key
        sessions := cp.sessions.apply now e "" } := by
  have htarget : target e = "" := by rw [target, if_pos htype, hto]
  have herror : ¬ e.type = eventError := by rw [htype]; decide
  simp [ControlPlane.ingest, ControlPlane.route, htarget, herror]

/-- What such an event leaves of the agent a session waits for: it is gone exactly if the event is
its own. -/
theorem RunState.waits_iff {e : Event} (htype : e.type = eventHandoff) (rs : RunState)
    {agent : String} (hagent : agent ≠ "") :
    (((rs.pickup e.agentID).advance e "").pendingAgent = agent ∧
        ((rs.pickup e.agentID).advance e "").status = .waiting) ↔
      (rs.pendingAgent = agent ∧ rs.status = .waiting) ∧ e.agentID ≠ agent := by
  simp only [RunState.advance, htype, if_true, ne_eq, not_true_eq_false, if_false, RunState.pickup]
  split
  · rename_i h
    simp only [reduceCtorEq, and_false, false_iff, not_and, not_not]
    rintro ⟨rfl, -⟩
    exact h.2
  · rename_i h
    constructor
    · rintro ⟨hpending, hstatus⟩
      refine ⟨⟨hpending, hstatus⟩, ?_⟩
      rintro rfl
      exact h ⟨hpending ▸ hagent, hpending.symm⟩
    · rintro ⟨hwaits, -⟩
      exact hwaits

end AgentBus.Controlplane
