import AgentBus.Grpcapi.Publish

/-!
# `PublishAgent`

The gRPC call by which agents publish (`Server.PublishAgent` in `internal/grpcapi/server.go`): the
fields of the request are put into an envelope and appended to the topic of agent events, under the
key of the session.  The request has no topic, no step and no attempt.

## Main definitions

* `AgentEvent`, `AgentEvent.marshal` — the request and the bytes it is stored as.
* `Server.publishAgent` — the call on a single node.
-/

namespace AgentBus.Grpcapi

open AgentStream Broker

/-- `AgentEvent` of `proto/goqueue.proto`.  An absent payload reads as no bytes. -/
structure AgentEvent where
  tenant : String
  project : String
  sessionID : String
  agentID : String
  type : String
  payload : List UInt8
  deriving DecidableEq, Repr

/-- The topic of agent events. -/
def agentEventsTopic : String := "agent-events"

/-- The key of the session. -/
def AgentEvent.key (ev : AgentEvent) : String := sessionKey ev.tenant ev.project ev.sessionID

/-- The envelope `PublishAgent` builds, around a payload. -/
def AgentEvent.envelope (ev : AgentEvent) (payload : RawMessage) : Event where
  version := ""
  type := ev.type
  tenant := ev.tenant
  project := ev.project
  sessionID := ev.sessionID
  agentID := ev.agentID
  step := ""
  attempt := 0
  createdAt := ""
  payload := payload

/-- The bytes that are stored.  A payload that is not JSON is refused, after the checks of the
envelope; of the text of that error only the beginning is kept. -/
def AgentEvent.marshal (now : Time) (ev : AgentEvent) : Except String (List UInt8) :=
  if ev.payload = [] then (ev.envelope none).marshal now
  else
    match Json.parse (Utf8.decode ev.payload) with
    | some v => (ev.envelope (some v)).marshal now
    | none =>
      match (ev.envelope none).validate with
      | .error msg => .error msg
      | .ok _ => .error "json: error calling MarshalJSON for type json.RawMessage"

/-- `PublishAgent` on a single node. -/
def Server.publishAgent (sum : List UInt8 → UInt32) (now : Time) (s : Server) (ev : AgentEvent) :
    Server × Except PublishError (ℤ × ℕ) :=
  match ev.marshal now with
  | .error msg => (s, .error (.invalidEnvelope msg))
  | .ok encoded => s.appendDurable sum now agentEventsTopic ev.key encoded

/-- A payload that is the text of a value is stored as that value. -/
theorem AgentEvent.marshal_of_payload (now : Time) {ev : AgentEvent} {v : Json}
    (h : ev.payload = Utf8.encode (Json.print v)) :
    ev.marshal now = (ev.envelope (some v)).marshal now := by
  have hparse : Json.parse (Utf8.decode ev.payload) = some v := by
    rw [h, Utf8.decode_encode, Json.parse_print]
  have hne : ev.payload ≠ [] := h ▸ encode_print_ne_nil v
  rw [AgentEvent.marshal, if_neg hne, hparse]

/-- Such a request publishes the envelope around the value. -/
theorem Server.publishAgent_of_payload (sum : List UInt8 → UInt32) (now : Time) (s : Server)
    (ev : AgentEvent) {v : Json} (h : ev.payload = Utf8.encode (Json.print v)) :
    s.publishAgent sum now ev =
      s.publishEnvelope sum now agentEventsTopic (ev.envelope (some v)) := by
  have hkey : (ev.envelope (some v)).key = ev.key := rfl
  have hmarshal := AgentEvent.marshal_of_payload now h
  cases hbytes : (ev.envelope (some v)).marshal now <;>
    simp only [Server.publishAgent, Server.publishEnvelope, hmarshal, hbytes, hkey]

end AgentBus.Grpcapi
