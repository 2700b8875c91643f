import AgentBus.Grpcapi.PublishAgent

/-!
# Publishing and reading agent events with the SDK

`eventbus/publish.go` and `eventbus/replay.go`, against a single node.  The SDK puts an event into
an envelope and sends that envelope as the *payload* of a `PublishAgent` request, next to those of
its fields the request has.  The server builds an envelope of its own around it, and appends it to
the topic of agent events whatever topic the caller asked for.

What a reader decodes is therefore the server's envelope: its payload is the whole envelope of the
SDK, never the payload that was passed in, and its step and attempt are empty
(`publishAgentTo_stores`, `published_never_comes_back`).

## Main definitions

* `AgentEvent`, `encodeAgentEvent`, `publishAgentTo` — publishing.
* `resolveSessionRouting`, `decodeEvent` — reading.
* `ComesBack` — what a publisher expects.
-/

namespace AgentBus.Eventbus

open AgentStream Broker Grpcapi

/-- `AgentEvent`.  The zero time stands for a time that is not set, and `attempt` is a 64-bit
integer. -/
structure AgentEvent where
  tenant : String
  project : String
  sessionID : String
  agentID : String
  type : String
  step : String
  attempt : ℤ
  payload : List UInt8
  version : String
  createdAt : Time
  attempt_ge : -2 ^ 63 ≤ attempt
  attempt_lt : attempt < 2 ^ 63
  deriving Repr

/-- `DefaultAgentTopic`. -/
def defaultAgentTopic : String := "agent-events"

/-- `validateAgentEvent`. -/
def validateAgentEvent (ev : AgentEvent) : Except String Unit :=
  if trimSpace ev.type = "" then .error "eventbus: AgentEvent.Type is required"
  else if trimSpace ev.tenant = "" then .error "eventbus: AgentEvent.Tenant is required"
  else if trimSpace ev.project = "" then .error "eventbus: AgentEvent.Project is required"
  else if trimSpace ev.sessionID = "" then .error "eventbus: AgentEvent.SessionID is required"
  else if trimSpace ev.agentID = "" then .error "eventbus: AgentEvent.AgentID is required"
  else .ok ()

/-- The JSON value of the payload: an empty object if there is none, `none` if it is not JSON. -/
def AgentEvent.body (ev : AgentEvent) : Option Json :=
  if ev.payload = [] then some (.obj []) else Json.parse (Utf8.decode ev.payload)

/-- The `envelope` of the SDK.  It has the fields of an envelope of the broker, in that order. -/
def AgentEvent.envelope (now : Time) (ev : AgentEvent) (body : Json) : Event where
  version := if ev.version = "" then "v1" else ev.version
  type := ev.type
  tenant := ev.tenant
  project := ev.project
  sessionID := ev.sessionID
  agentID := ev.agentID
  step := ev.step
  attempt := ev.attempt
  createdAt := (if ev.createdAt = 0 then now else ev.createdAt).format
  payload := some body

/-- `encodeAgentEvent`. -/
def encodeAgentEvent (now : Time) (ev : AgentEvent) : Except String (List UInt8) :=
  match ev.body with
  | none => .error "eventbus: AgentEvent.Payload must be valid JSON"
  | some body => .ok (Utf8.encode (Json.print (.obj (ev.envelope now body).fields)))

/-- The errors of a publish. -/
inductive ClientError where
  /-- The event is refused by the SDK. -/
  | invalid (msg : String)
  /-- The call fails. -/
  | rpc (err : PublishError)
  deriving DecidableEq, Repr

/-- The request `publishAgentOnce` sends. -/
def AgentEvent.request (ev : AgentEvent) (encoded : List UInt8) : Grpcapi.AgentEvent where
  tenant := ev.tenant
  project := ev.project
  sessionID := ev.sessionID
  agentID := ev.agentID
  type := ev.type
  payload := encoded

/-- `PublishAgentTo`, on a single node: the offset and the partition.  The topic is not used. -/
def publishAgentTo (sum : List UInt8 → UInt32) (now : Time) (s : Server) (_topic : String)
    (ev : AgentEvent) : Server × Except ClientError (ℤ × ℕ) :=
  match validateAgentEvent ev with
  | .error msg => (s, .error (.invalid msg))
  | .ok _ =>
    match encodeAgentEvent now ev with
    | .error msg => (s, .error (.invalid msg))
    | .ok encoded =>
      let r := s.publishAgent sum now (ev.request encoded)
      (r.1, r.2.mapError .rpc)

/-- `SessionRef`. -/
structure SessionRef where
  tenant : String
  project : String
  sessionID : String
  agentID : String
  deriving DecidableEq, Repr

/-- `resolveSessionRouting`. -/
def resolveSessionRouting (sess : SessionRef) (topic : String) (partitionCount : ℤ) :
    Except String (String × ℕ) :=
  if sess.tenant = "" ∨ sess.project = "" ∨ sess.sessionID = "" then
    .error "eventbus: SessionRef.Tenant/Project/SessionID are required"
  else
    let topic := if topic = "" then defaultAgentTopic else topic
    let count := if partitionCount ≤ 0 then 3 else partitionCount.toNat
    let key := sessionKey sess.tenant sess.project sess.sessionID
    .ok (topic, (fnv32a (stringBytes key) % UInt32.ofNat count).toNat)

/-- `DecodedEvent`, as `DecodeEvent` fills it. -/
structure DecodedEvent where
  version : String
  type : String
  tenant : String
  project : String
  sessionID : String
  agentID : String
  step : String
  attempt : ℤ
  createdAt : Time
  payload : RawMessage
  deriving DecidableEq

/-- `DecodeEvent`. -/
def decodeEvent (raw : List UInt8) : Option DecodedEvent := do
  let v ← Json.parse (Utf8.decode raw)
  let env ← Event.ofJson v
  if env.type = "" ∨ env.tenant = "" ∨ env.sessionID = "" then none
  else
    some ⟨env.version, env.type, env.tenant, env.project, env.sessionID, env.agentID, env.step,
      env.attempt, (Time.parse? env.createdAt).getD 0, env.payload⟩

/-! ## What is stored -/

/-- A call that succeeds with its errors renamed succeeds. -/
theorem mapError_eq_ok {α ε ε' : Type} {f : ε → ε'} {r : Except ε α} {a : α}
    (h : r.mapError f = .ok a) : r = .ok a := by
  cases r with
  | error err => cases h
  | ok b => exact congrArg Except.ok (Except.ok.inj h)

/-- A message was appended to a partition, at this offset. -/
def Appended (b b' : Broker (List UInt8)) (topic : String) (p : ℕ) (offset : ℤ)
    (bytes : List UInt8) : Prop :=
  b.fetchPartition topic p offset 1 = some [] ∧
    b'.fetchPartition topic p offset 1 = some [⟨offset, bytes⟩]

/-- What a publisher expects: the event is appended to the topic, on the partition a reader of the
session looks at, and is decoded as it was passed in. -/
def ComesBack (sum : List UInt8 → UInt32) (now : Time) (s : Server) (topic : String)
    (ev : AgentEvent) : Prop :=
  ∃ offset p bytes d, (publishAgentTo sum now s topic ev).2 = .ok (offset, p) ∧
    (resolveSessionRouting ⟨ev.tenant, ev.project, ev.sessionID, ev.agentID⟩ topic 0).map
      Prod.snd = .ok p ∧
    Appended s.broker (publishAgentTo sum now s topic ev).1.broker topic p offset bytes ∧
    decodeEvent bytes = some d ∧ d.type = ev.type ∧ d.tenant = ev.tenant ∧
    d.project = ev.project ∧ d.sessionID = ev.sessionID ∧ d.agentID = ev.agentID ∧
    d.step = ev.step ∧ d.attempt = ev.attempt ∧ ∃ body, ev.body = some body ∧ d.payload = some body

/-- The envelope the server builds around the envelope of the SDK. -/
def AgentEvent.wrapped (now : Time) (ev : AgentEvent) (body : Json) : Event :=
  (ev.request []).envelope (some (.obj (ev.envelope now body).fields))

/-- An event that is accepted is published in the topic of agent events, in two envelopes. -/
theorem publishAgentTo_eq {now : Time} {ev : AgentEvent} {body : Json}
    (hvalid : validateAgentEvent ev = .ok ()) (hbody : ev.body = some body)
    (sum : List UInt8 → UInt32) (s : Server) (topic : String) :
    publishAgentTo sum now s topic ev =
      ((s.publishEnvelope sum now agentEventsTopic (ev.wrapped now body)).1,
        (s.publishEnvelope sum now agentEventsTopic (ev.wrapped now body)).2.mapError .rpc) := by
  have hcall := s.publishAgent_of_payload sum now
    (ev.request (Utf8.encode (Json.print (.obj (ev.envelope now body).fields)))) rfl
  simp only [publishAgentTo, hvalid, encodeAgentEvent, hbody, hcall]
  rfl

/-- A publish that succeeds is one of an event that is accepted. -/
theorem accepted_of_publishAgentTo {sum : List UInt8 → UInt32} {now : Time} {s : Server}
    {topic : String} {ev : AgentEvent} {answer : ℤ × ℕ}
    (hok : (publishAgentTo sum now s topic ev).2 = .ok answer) :
    validateAgentEvent ev = .ok () ∧ ∃ body, ev.body = some body := by
  unfold publishAgentTo at hok
  cases hvalid : validateAgentEvent ev with
  | error msg =>
    rw [hvalid] at hok
    cases hok
  | ok u =>
    cases hbody : ev.body with
    | none => simp [hvalid, encodeAgentEvent, hbody] at hok
    | some body => exact ⟨rfl, body, rfl⟩

/-- **What a publish stores**: an envelope around the envelope of the SDK, in the topic of agent
events. -/
theorem publishAgentTo_stores {sum : List UInt8 → UInt32} {now : Time} {s : Server}
    {view : String → ℕ → List (List UInt8)} (h : s.broker.ShowsAll view) {topic : String}
    {ev : AgentEvent} {body : Json} (hbody : ev.body = some body) {offset : ℤ} {p : ℕ}
    (hok : (publishAgentTo sum now s topic ev).2 = .ok (offset, p)) :
    ∃ bytes, parseEvent bytes = some ((ev.wrapped now body).withDefaults now) ∧
      p < defaultTopicPartitions ∧ offset = (view agentEventsTopic p).length ∧
      (publishAgentTo sum now s topic ev).1.broker.capacity = s.broker.capacity ∧
      (publishAgentTo sum now s topic ev).1.broker.ShowsAll
        (Function.update view agentEventsTopic
          (Function.update (view agentEventsTopic) p (view agentEventsTopic p ++ [bytes]))) := by
  obtain ⟨hvalid, -⟩ := accepted_of_publishAgentTo hok
  rw [publishAgentTo_eq hvalid hbody] at hok ⊢
  cases hbytes : (ev.wrapped now body).marshal now with
  | error msg => simp [Server.publishEnvelope, hbytes, Except.mapError] at hok
  | ok bytes =>
    have hcall : s.publishEnvelope sum now agentEventsTopic (ev.wrapped now body) =
        s.appendDurable sum now agentEventsTopic (ev.wrapped now body).key bytes := by
      rw [Server.publishEnvelope, hbytes]
    have hkey : (ev.wrapped now body).key ≠ "" := sessionKey_ne _ _ _
    rw [hcall] at hok ⊢
    obtain ⟨hp, hoff, hcap, hshows⟩ := Server.appendDurable_eq_ok h hkey (mapError_eq_ok hok)
    have hattempt : (ev.wrapped now body).attempt = 0 := rfl
    obtain ⟨-, hparse⟩ := parseEvent_marshal_withDefaults (by rw [hattempt]; decide)
      (by rw [hattempt]; decide) hbytes
    exact ⟨bytes, hparse, hp ▸ keyPartition_lt (by decide) _, hoff, hcap, hshows⟩

/-- A member of an object is not the object. -/
theorem member_ne_obj {ms : List (String × Json)} {name : String} {v : Json}
    (h : (name, v) ∈ ms) : v ≠ .obj ms := by
  intro heq
  have hmember := List.sizeOf_lt_of_mem h
  have hobj : sizeOf v = 1 + sizeOf ms := by rw [heq, Json.obj.sizeOf_spec]
  simp only [Prod.mk.sizeOf_spec] at hmember
  omega

/-- What a reader decodes of an envelope that a broker parses. -/
theorem decodeEvent_of_parseEvent {bytes : List UInt8} {e : Event}
    (he : parseEvent bytes = some e) :
    decodeEvent bytes = some ⟨e.version, e.type, e.tenant, e.project, e.sessionID, e.agentID,
      e.step, e.attempt, (Time.parse? e.createdAt).getD 0, e.payload⟩ := by
  obtain ⟨v, hv, he', hvalid⟩ := parseEvent_eq_some he
  obtain ⟨htype, htenant, -, hsession, -⟩ := Event.validate_eq_ok hvalid
  have hne : ¬ (e.type = "" ∨ e.tenant = "" ∨ e.sessionID = "") := by
    rintro (h | h | h)
    · exact ne_empty_of_trimSpace htype h
    · exact ne_empty_of_trimSpace htenant h
    · exact ne_empty_of_trimSpace hsession h
  simp only [decodeEvent, hv, he', Option.bind_eq_bind, Option.bind_some, if_neg hne]

/-- **An event never comes back as it was published.**  Whatever the event, the topic and the state
of the server: another topic does not get the message, and the topic of agent events gets one whose
payload is the envelope of the SDK. -/
theorem published_never_comes_back (sum : List UInt8 → UInt32) (now : Time) (s : Server)
    (view : String → ℕ → List (List UInt8)) (h : s.broker.ShowsAll view) (topic : String)
    (ev : AgentEvent) : ¬ ComesBack sum now s topic ev := by
  rintro ⟨offset, p, bytes, d, hok, -, ⟨hbefore, hafter⟩, hd, -, -, -, -, -, -, -, body, hbody,
    hpayload⟩
  obtain ⟨bytes', hparse, hp, hoff, hcap, hshows⟩ := publishAgentTo_stores h hbody hok
  by_cases htopic : topic = agentEventsTopic
  · -- The payload that is decoded has the one that was published among its members.
    subst htopic
    have hlast := (hshows agentEventsTopic).fetchPartition_last hp (view agentEventsTopic p) bytes'
      (by rw [Function.update_self, Function.update_self])
    rw [hoff, hlast] at hafter
    have hbytes : bytes' = bytes := by simpa using hafter
    rw [hbytes] at hparse
    rw [decodeEvent_of_parseEvent hparse] at hd
    cases hd
    have hmember : ("payload", body) ∈ (ev.envelope now body).fields := by
      simp [AgentEvent.envelope, Event.fields]
    exact member_ne_obj hmember (Option.some.inj hpayload).symm
  · -- The topic is as it was.
    have hsame := (hshows topic).fetchPartition hp offset (show (0 : ℤ) ≤ 1 by decide)
    rw [Function.update_of_ne htopic, hcap, ← (h topic).fetchPartition hp offset (by decide),
      hbefore, hafter] at hsame
    cases hsame

/-! ## An event and what is read of it -/

/-- The payload of a tool call. -/
def toolCallBody : Json := .obj [("id", .num (.ofInt 42))]

/-- A tool call, with a step, an attempt and a payload. -/
def toolCall : AgentEvent :=
  ⟨"acme", "p", "s1", "planner", "tool.call", "search", 2, Utf8.encode (Json.print toolCallBody),
    "", 0, by decide, by decide⟩

/-- The server on an empty log. -/
def emptyServer : Server := ⟨[], Broker.new 4⟩

/-- The tool call is accepted, and the topic it is for makes no difference. -/
theorem publishAgentTo_toolCall (topic : String) :
    (publishAgentTo Wal.crc32c 0 emptyServer topic toolCall).2 = .ok (0, 1) := by
  have hbody : toolCall.body = some toolCallBody := by decide +kernel
  rw [publishAgentTo_eq (by decide +kernel) hbody]
  decide +kernel

/-- The theorem at a concrete event. -/
theorem toolCall_never_comes_back :
    (publishAgentTo Wal.crc32c 0 emptyServer "agent-events" toolCall).2 = .ok (0, 1) ∧
      ¬ ComesBack Wal.crc32c 0 emptyServer "agent-events" toolCall :=
  ⟨publishAgentTo_toolCall _, published_never_comes_back Wal.crc32c 0 emptyServer (fun _ _ => [])
    (Broker.showsAll_new 4) "agent-events" toolCall⟩

/-- **What is read back**: the topic that was asked for is empty, and in the topic of agent events
the step and the attempt are gone and the payload is another object. -/
theorem toolCall_read_back :
    (publishAgentTo Wal.crc32c 0 emptyServer "agent-events.dlq" toolCall).2 = .ok (0, 1) ∧
      (publishAgentTo Wal.crc32c 0 emptyServer "agent-events.dlq" toolCall).1.broker.fetchPartition
        "agent-events.dlq" 1 0 1 = some [] ∧
      ∃ bytes d,
        (publishAgentTo Wal.crc32c 0 emptyServer "agent-events.dlq"
          toolCall).1.broker.fetchPartition "agent-events" 1 0 1 = some [⟨0, bytes⟩] ∧
        decodeEvent bytes = some d ∧ d.step = "" ∧ d.attempt = 0 ∧ d.payload ≠ toolCall.body := by
  have hbody : toolCall.body = some toolCallBody := by decide +kernel
  have hok := publishAgentTo_toolCall "agent-events.dlq"
  obtain ⟨bytes, hparse, hp, -, hcap, hshows⟩ :=
    publishAgentTo_stores (Broker.showsAll_new 4) hbody hok
  refine ⟨hok, ?_, bytes, _, ?_, decodeEvent_of_parseEvent hparse, rfl, rfl, ?_⟩
  · have hfetch := (hshows "agent-events.dlq").fetchPartition hp 0 (show (0 : ℤ) ≤ 1 by decide)
    have hnil : Topic.log ([] : List (List UInt8)) = [] := rfl
    rw [Function.update_of_ne (by decide), hnil, List.drop_nil, List.take_nil] at hfetch
    exact hfetch
  · exact (hshows agentEventsTopic).fetchPartition_last hp [] bytes
      (by rw [Function.update_self, Function.update_self])
  · rw [hbody]
    decide +kernel

end AgentBus.Eventbus
