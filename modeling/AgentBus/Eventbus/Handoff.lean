import AgentBus.Controlplane.ControlPlane
import AgentBus.Eventbus.Client

/-!
# Handoffs from the SDK to the control plane

`PublishHandoff` of `eventbus/events.go` against `ControlPlane.Ingest`.  The SDK writes the target
of a handoff into the payload of its event; the server stores that event in an envelope of its own,
so the payload the control plane looks into is the envelope of the SDK, which has no member for the
target.  The control plane takes the handoff for one without a target: the session does not wait
for anybody, and no inbox gets anything.

## Main definitions

* `Handoff`, `publishHandoff` — publishing.
* `WaitsFor`, `Arrives` — what the publisher expects of the control plane.
* `handoff_arrives_iff` — when it happens nevertheless.
-/

namespace AgentBus.Eventbus

open AgentStream Broker Grpcapi Controlplane

/-- `Handoff`; the context is raw JSON. -/
structure Handoff where
  fromAgent : String
  toAgent : String
  reason : String
  context : List UInt8
  deriving DecidableEq, Repr

/-- The JSON value of a handoff; `none` if the context is not JSON. -/
def Handoff.body (h : Handoff) : Option Json := do
  let context ← if h.context = [] then some []
    else (Json.parse (Utf8.decode h.context)).map fun v => [("context", v)]
  some (.obj ([("from_agent", .str h.fromAgent), ("to_agent", .str h.toAgent)] ++
    (if h.reason = "" then [] else [("reason", .str h.reason)]) ++ context))

/-- The event of a handoff. -/
def handoffEvent (sess : SessionRef) (body : Json) : AgentEvent where
  tenant := sess.tenant
  project := sess.project
  sessionID := sess.sessionID
  agentID := sess.agentID
  type := "handoff"
  step := ""
  attempt := 0
  payload := Utf8.encode (Json.print body)
  version := ""
  createdAt := 0
  attempt_ge := by decide
  attempt_lt := by decide

/-- `PublishAgent`. -/
def publishAgent (sum : List UInt8 → UInt32) (now : Time) (s : Server) (ev : AgentEvent) :
    Server × Except ClientError (ℤ × ℕ) :=
  publishAgentTo sum now s defaultAgentTopic ev

/-- `PublishHandoff`; of the text of the error only the beginning is kept. -/
def publishHandoff (sum : List UInt8 → UInt32) (now : Time) (s : Server) (sess : SessionRef)
    (h : Handoff) : Server × Except ClientError (ℤ × ℕ) :=
  match h.body with
  | none => (s, .error (.invalid "json: error calling MarshalJSON for type json.RawMessage"))
  | some body => publishAgent sum now s (handoffEvent sess body)

/-- The session waits for an agent. -/
def WaitsFor (cp : ControlPlane) (sess : SessionRef) (agent : String) : Prop :=
  ∃ rs, cp.getSession sess.tenant sess.project sess.sessionID = some rs ∧
    rs.pendingAgent = agent ∧ rs.status = .waiting

/-- The inbox of an agent is open and has a free place. -/
def HasRoom (cp : ControlPlane) (agent : String) (q : List RoutedEvent) : Prop :=
  cp.inboxes.boxes agent = some q ∧ q.length < cp.inboxes.size

/-- What a publisher expects of a handoff: the session waits for the target, which finds the
handoff in its inbox if there is a place. -/
def Arrives (sess : SessionRef) (h : Handoff) (cp cp' : ControlPlane) : Prop :=
  WaitsFor cp' sess h.toAgent ∧
    ∀ q, HasRoom cp h.toAgent q →
      ∃ ev, ev.sessionKey = sessionKey sess.tenant sess.project sess.sessionID ∧
        ev.type = "handoff" ∧ cp'.inboxes.boxes h.toAgent = some (q ++ [ev])

/-! ## What the control plane reads -/

/-- No member of an envelope is the target of a handoff. -/
theorem to_agent_notMem : ∀ step attempt,
    Json.foldName "to_agent" ∉ (Event.names step attempt).map Json.foldName := by
  decide +kernel

/-- There is no target in an envelope. -/
@[simp] theorem parseToAgent_fields (e : Event) : parseToAgent (some (.obj e.fields)) = "" := by
  have hread : Json.readField Json.readString "to_agent" "" e.fields = some "" :=
    Json.readField_of_notMem _ _ _ (e.names_fields ▸ to_agent_notMem _ _)
  simp [parseToAgent, Json.members, hread]

/-- The payload of the event is the handoff. -/
@[simp] theorem body_handoffEvent (sess : SessionRef) (body : Json) :
    (handoffEvent sess body).body = some body := by
  have hne : (handoffEvent sess body).payload ≠ [] := encode_print_ne_nil body
  rw [AgentEvent.body, if_neg hne, handoffEvent, Utf8.decode_encode, Json.parse_print]

/-- What the control plane reads of a handoff. -/
theorem handoffEvent_stored (now : Time) (sess : SessionRef) (body : Json) :
    let e := ((handoffEvent sess body).wrapped now body).withDefaults now
    e.type = eventHandoff ∧ e.key = sessionKey sess.tenant sess.project sess.sessionID ∧
      e.agentID = sess.agentID ∧
      e.payload = some (.obj ((handoffEvent sess body).envelope now body).fields) :=
  ⟨rfl, rfl, rfl, rfl⟩

section
variable {sess : SessionRef} {e : Event} (htype : e.type = eventHandoff)
  (hto : parseToAgent e.payload = "")
  (hkey : e.key = sessionKey sess.tenant sess.project sess.sessionID) (hne : e.key ≠ "//")
include htype hto hkey hne

/-- **Who a session waits for after a handoff without a target.** -/
theorem waitsFor_ingest_iff (now : Time) (cp : ControlPlane) {agent : String}
    (hagent : agent ≠ "") :
    WaitsFor (cp.ingest now e) sess agent ↔ WaitsFor cp sess agent ∧ e.agentID ≠ agent := by
  have hget : (cp.ingest now e).getSession sess.tenant sess.project sess.sessionID =
      some ((RunState.pickup e.agentID
        { cp.sessions.entry e with lastEventAt := now }).advance e "") := by
    rw [cp.ingest_of_no_target now htype hto, ControlPlane.getSession,
      SessionStore.get_apply _ _ _ hne, if_pos hkey.symm]
  have hentry : cp.sessions.get e.key = some (cp.sessions.entry e) ∨
      (cp.sessions.get e.key = none ∧ (cp.sessions.entry e).pendingAgent = "") := by
    cases hlookup : cp.sessions.get e.key with
    | none => exact .inr ⟨rfl, by simp_all [SessionStore.get, SessionStore.entry]⟩
    | some rs => exact .inl (by simp_all [SessionStore.get, SessionStore.entry])
  unfold WaitsFor
  rw [hget, ControlPlane.getSession, ← hkey]
  simp only [Option.some.injEq, exists_eq_left', RunState.waits_iff htype _ hagent]
  rcases hentry with hsome | ⟨hnone, hpending⟩
  · simp [hsome]
  · simp [hnone, hpending, hagent.symm]

/-- **A handoff without a target arrives only where it makes no difference.** -/
theorem arrives_ingest_iff (now : Time) (cp : ControlPlane) {h : Handoff}
    (hagent : h.toAgent ≠ "") :
    Arrives sess h cp (cp.ingest now e) ↔
      WaitsFor cp sess h.toAgent ∧ e.agentID ≠ h.toAgent ∧ ∀ q, ¬ HasRoom cp h.toAgent q := by
  have hinboxes : (cp.ingest now e).inboxes = cp.inboxes := by
    rw [cp.ingest_of_no_target now htype hto]
  rw [Arrives, waitsFor_ingest_iff htype hto hkey hne now cp hagent, and_assoc, hinboxes]
  refine and_congr_right fun _ => and_congr_right fun _ => forall_congr' fun q => ?_
  refine ⟨?_, fun hroom hhas => absurd hhas hroom⟩
  intro hdelivered hroom
  obtain ⟨ev, -, -, hbox⟩ := hdelivered hroom
  rw [hroom.1] at hbox
  simp at hbox

end

/-- **What a handoff is stored as**: an event of its session and its agent, without a target. -/
theorem publishHandoff_stores {sum : List UInt8 → UInt32} {now : Time} {s : Server}
    {view : String → ℕ → List (List UInt8)} (hview : s.broker.ShowsAll view) {sess : SessionRef}
    {h : Handoff} {offset : ℤ} {p : ℕ}
    (hok : (publishHandoff sum now s sess h).2 = .ok (offset, p)) :
    ∃ bytes e,
      (publishHandoff sum now s sess h).1.broker.fetchPartition agentEventsTopic p offset 1 =
        some [⟨offset, bytes⟩] ∧ parseEvent bytes = some e ∧ e.type = eventHandoff ∧
      parseToAgent e.payload = "" ∧
      e.key = sessionKey sess.tenant sess.project sess.sessionID ∧ e.key ≠ "//" ∧
      e.agentID = sess.agentID := by
  cases hbody : h.body with
  | none => simp [publishHandoff, hbody] at hok
  | some body =>
    have hcall : publishHandoff sum now s sess h =
        publishAgentTo sum now s defaultAgentTopic (handoffEvent sess body) := by
      simp only [publishHandoff, hbody, publishAgent]
    rw [hcall] at hok ⊢
    obtain ⟨bytes, hparse, hp, hoff, -, hshows⟩ :=
      publishAgentTo_stores hview (body_handoffEvent sess body) hok
    have hlast := (hshows agentEventsTopic).fetchPartition_last hp (view agentEventsTopic p) bytes
      (by rw [Function.update_self, Function.update_self])
    obtain ⟨htype, hkey, hagent, hpayload⟩ := handoffEvent_stored now sess body
    generalize ((handoffEvent sess body).wrapped now body).withDefaults now = e at *
    obtain ⟨-, -, -, hvalid⟩ := parseEvent_eq_some hparse
    obtain ⟨-, htenant, -⟩ := Event.validate_eq_ok hvalid
    exact ⟨bytes, e, hoff ▸ hlast, hparse, htype, hpayload ▸ parseToAgent_fields _, hkey,
      sessionKey_ne_slashes htenant _ _, hagent⟩

/-- **When a handoff arrives.**  The message is stored and ingested, but as a handoff without a
target: the session waits for the target afterwards only if it did before and the event is not the
target's own, and the inbox gets nothing even if there is a place. -/
theorem handoff_arrives_iff (sum : List UInt8 → UInt32) (now : Time) (s : Server)
    (view : String → ℕ → List (List UInt8)) (hview : s.broker.ShowsAll view) (sess : SessionRef)
    (h : Handoff) (hto : h.toAgent ≠ "") (offset : ℤ) (p : ℕ)
    (hok : (publishHandoff sum now s sess h).2 = .ok (offset, p)) :
    ∃ m e, (publishHandoff sum now s sess h).1.broker.fetchPartition agentEventsTopic p offset 1 =
        some [m] ∧ parseEvent m.payload = some e ∧
      ∀ (cp : ControlPlane) (clock : Time), cp.message clock m = cp.ingest clock e ∧
        (Arrives sess h cp (cp.message clock m) ↔
          WaitsFor cp sess h.toAgent ∧ sess.agentID ≠ h.toAgent ∧
            ∀ q, ¬ HasRoom cp h.toAgent q) := by
  obtain ⟨bytes, e, hfetch, hparse, htype, htarget, hkey, hne, hagent⟩ :=
    publishHandoff_stores hview hok
  refine ⟨⟨offset, bytes⟩, e, hfetch, hparse, ?_⟩
  intro cp clock
  rw [cp.message_of_parseEvent clock hparse, ← hagent]
  exact ⟨rfl, arrives_ingest_iff htype htarget hkey hne clock cp hto⟩

/-! ## A handoff that is lost -/

/-- The session of the planner. -/
def plannerSession : SessionRef := ⟨"acme", "p", "s1", "planner"⟩

/-- The planner hands the session over. -/
def toEscalator : Handoff := ⟨"planner", "escalator", "", []⟩

/-- The handoff is accepted. -/
theorem publishHandoff_toEscalator :
    (publishHandoff Wal.crc32c 0 emptyServer plannerSession toEscalator).2 = .ok (0, 1) := by
  have hbody : toEscalator.body =
      some (.obj [("from_agent", .str "planner"), ("to_agent", .str "escalator")]) := by
    decide +kernel
  simp only [publishHandoff, hbody, publishAgent]
  rw [publishAgentTo_eq (by decide +kernel) (body_handoffEvent _ _)]
  decide +kernel

/-- The theorem at a concrete handoff. -/
theorem toEscalator_arrives_iff :
    ∃ m e, (publishHandoff Wal.crc32c 0 emptyServer plannerSession
        toEscalator).1.broker.fetchPartition agentEventsTopic (1 : ℕ) 0 1 = some [m] ∧
      parseEvent m.payload = some e ∧
      ∀ (cp : ControlPlane) (clock : Time), cp.message clock m = cp.ingest clock e ∧
        (Arrives plannerSession toEscalator cp (cp.message clock m) ↔
          WaitsFor cp plannerSession toEscalator.toAgent ∧
            plannerSession.agentID ≠ toEscalator.toAgent ∧
            ∀ q, ¬ HasRoom cp toEscalator.toAgent q) :=
  handoff_arrives_iff Wal.crc32c 0 emptyServer (fun _ _ => []) (Broker.showsAll_new 4)
    plannerSession toEscalator (by decide) 0 1 publishHandoff_toEscalator

/-- **A handoff that is lost.**  The escalator's inbox is open and empty; after the handoff of the
planner is published and ingested, the planner's session is running, without a pending agent, and
the inbox is as empty as before. -/
theorem toEscalator_lost :
    let cp := ControlPlane.new.openInbox 0 "escalator"
    HasRoom cp "escalator" [] ∧
      ∃ m, (publishHandoff Wal.crc32c 0 emptyServer plannerSession
          toEscalator).1.broker.fetchPartition agentEventsTopic (1 : ℕ) 0 1 = some [m] ∧
        (cp.message 0 m).getSession "acme" "p" "s1" =
          some ⟨"acme/p/s1", "planner", "", 1, .running, 0⟩ ∧
        (cp.message 0 m).inboxes.boxes "escalator" = some [] := by
  intro cp
  have hroom : HasRoom cp "escalator" [] := ⟨by decide +kernel, by decide⟩
  obtain ⟨bytes, e, hfetch, hparse, htype, htarget, hkey, hne, hagent⟩ :=
    publishHandoff_stores (Broker.showsAll_new 4) publishHandoff_toEscalator
  refine ⟨hroom, ⟨0, bytes⟩, hfetch, ?_, ?_⟩
  all_goals rw [cp.message_of_parseEvent 0 hparse, cp.ingest_of_no_target 0 htype htarget]
  · have hentry : cp.sessions.entry e = ⟨e.key, e.agentID, "", 0, .running, 0⟩ := rfl
    have hkey' : e.key = "acme/p/s1" := hkey.trans (by decide +kernel)
    have hsession : sessionKey "acme" "p" "s1" = e.key := hkey.symm
    simp only [ControlPlane.getSession, hsession, SessionStore.get_apply _ _ _ hne, if_true, hentry,
      RunState.pickup, RunState.advance, htype, hkey', hagent]
    rfl
  · exact hroom.1

end AgentBus.Eventbus
