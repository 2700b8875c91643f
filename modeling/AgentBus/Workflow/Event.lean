import AgentBus.AgentStream.Envelope
import AgentBus.Lib.Rfc3339

/-!
# Workflow events

`internal/workflow/event.go`: the seven event types of the execution layer, their
payloads, and the envelope that carries them.  A payload is written by one function
and read by another; the `unmarshal_marshal` theorems say that the second undoes the
first.
-/

namespace AgentBus.Workflow

open AgentStream Json

/-- `Topic`: the log topic workflow events are appended to. -/
def topic : String := "workflow-events"

/-- `CoordinatorAgentID` marks events synthesized by the coordinator itself. -/
def coordinatorAgentID : String := "wf-coordinator"

/-- The event types. -/
inductive EventType where
  | submitted
  | leased
  | heartbeat
  | completed
  | failed
  | retry
  | dead
  deriving DecidableEq, Repr, Inhabited

namespace EventType

/-- The type as an envelope spells it. -/
def text : EventType → String
  | submitted => "wf.submitted"
  | leased => "wf.leased"
  | heartbeat => "wf.heartbeat"
  | completed => "wf.completed"
  | failed => "wf.failed"
  | retry => "wf.retry"
  | dead => "wf.dead"

/-- The type an envelope spells, if it is one of this layer (`IsWorkflowEvent`). -/
def ofText? (s : String) : Option EventType :=
  if s = "wf.submitted" then some submitted
  else if s = "wf.leased" then some leased
  else if s = "wf.heartbeat" then some heartbeat
  else if s = "wf.completed" then some completed
  else if s = "wf.failed" then some failed
  else if s = "wf.retry" then some retry
  else if s = "wf.dead" then some dead
  else none

@[simp] theorem ofText?_text (ty : EventType) : ofText? ty.text = some ty := by
  cases ty <;> decide

end EventType

/-- The event type of an envelope, `none` when it is not a workflow event. -/
def eventType (e : Event) : Option EventType := EventType.ofText? e.type

/-! ## Payloads -/

/-- `SubmitPayload`: the payload of a wf.submitted event. -/
structure SubmitPayload where
  taskType : String
  input : List UInt8
  maxAttempts : ℤ
  leaseTTLMS : ℤ
  deriving DecidableEq, Repr, Inhabited

/-- `LeasePayload`: the payload of wf.leased and wf.heartbeat events. -/
structure LeasePayload where
  workerID : String
  deriving DecidableEq, Repr, Inhabited

/-- `CompletePayload`: the payload of a wf.completed event. -/
structure CompletePayload where
  workerID : String
  result : List UInt8
  deriving DecidableEq, Repr, Inhabited

/-- `FailPayload`: the payload of a wf.failed event. -/
structure FailPayload where
  workerID : String
  error : String
  retryable : Bool
  deriving DecidableEq, Repr, Inhabited

/-- `ReasonPayload`: the payload of wf.retry and wf.dead events. -/
structure ReasonPayload where
  reason : String
  deriving DecidableEq, Repr, Inhabited

/-- A byte-string member that is left out when empty. -/
def omitEmpty (name : String) (bs : List UInt8) : List (String × Json) :=
  if bs = [] then [] else [(name, ofBytes bs)]

def SubmitPayload.marshal (p : SubmitPayload) : Json :=
  .obj ([("task_type", .str p.taskType)] ++ omitEmpty "input" p.input ++
    [("max_attempts", .num (Number.ofInt p.maxAttempts)),
      ("lease_ttl_ms", .num (Number.ofInt p.leaseTTLMS))])

def LeasePayload.marshal (p : LeasePayload) : Json := .obj [("worker_id", .str p.workerID)]

def CompletePayload.marshal (p : CompletePayload) : Json :=
  .obj ([("worker_id", .str p.workerID)] ++ omitEmpty "result" p.result)

def FailPayload.marshal (p : FailPayload) : Json :=
  .obj [("worker_id", .str p.workerID), ("error", .str p.error), ("retryable", .bool p.retryable)]

def ReasonPayload.marshal (p : ReasonPayload) : Json := .obj [("reason", .str p.reason)]

def SubmitPayload.unmarshal (raw : RawMessage) : Option SubmitPayload := do
  let ms ← (← raw).members
  let taskType ← readField readString "task_type" "" ms
  let input ← readField readBytes "input" [] ms
  let maxAttempts ← readField readInt64 "max_attempts" 0 ms
  let leaseTTLMS ← readField readInt64 "lease_ttl_ms" 0 ms
  some ⟨taskType, input, maxAttempts, leaseTTLMS⟩

def LeasePayload.unmarshal (raw : RawMessage) : Option LeasePayload := do
  let ms ← (← raw).members
  let workerID ← readField readString "worker_id" "" ms
  some ⟨workerID⟩

def CompletePayload.unmarshal (raw : RawMessage) : Option CompletePayload := do
  let ms ← (← raw).members
  let workerID ← readField readString "worker_id" "" ms
  let result ← readField readBytes "result" [] ms
  some ⟨workerID, result⟩

def FailPayload.unmarshal (raw : RawMessage) : Option FailPayload := do
  let ms ← (← raw).members
  let workerID ← readField readString "worker_id" "" ms
  let error ← readField readString "error" "" ms
  let retryable ← readField readBool "retryable" false ms
  some ⟨workerID, error, retryable⟩

def ReasonPayload.unmarshal (raw : RawMessage) : Option ReasonPayload := do
  let ms ← (← raw).members
  let reason ← readField readString "reason" "" ms
  some ⟨reason⟩

theorem readField_omitEmpty_ne {α : Type} (read : α → Json → Option α) (name other : String)
    (zero : α) (bs : List UInt8) (ms : List (String × Json))
    (h : foldName other ≠ foldName name) :
    readField read name zero (omitEmpty other bs ++ ms) = readField read name zero ms := by
  by_cases hbs : bs = []
  · simp [omitEmpty, hbs]
  · simp only [omitEmpty, hbs, if_false, List.cons_append, List.nil_append]
    exact readField_cons_ne read name zero _ ms h

theorem readField_omitEmpty_self (name : String) (bs : List UInt8) (ms : List (String × Json)) :
    readField readBytes name [] (omitEmpty name bs ++ ms) = readField readBytes name bs ms := by
  by_cases hbs : bs = []
  · simp [omitEmpty, hbs]
  · simp only [omitEmpty, hbs, if_false, List.cons_append, List.nil_append]
    rw [readField_cons_self readBytes name [] _ ms rfl, readBytes_ofBytes]
    rfl

@[simp] theorem LeasePayload.unmarshal_marshal (p : LeasePayload) :
    LeasePayload.unmarshal (some p.marshal) = some p := by
  simp (disch := decide) only [LeasePayload.unmarshal, LeasePayload.marshal, members,
    readField_cons_self, readField_nil, readString, Option.bind_eq_bind, Option.bind_some]

@[simp] theorem ReasonPayload.unmarshal_marshal (p : ReasonPayload) :
    ReasonPayload.unmarshal (some p.marshal) = some p := by
  simp (disch := decide) only [ReasonPayload.unmarshal, ReasonPayload.marshal, members,
    readField_cons_self, readField_nil, readString, Option.bind_eq_bind, Option.bind_some]

@[simp] theorem FailPayload.unmarshal_marshal (p : FailPayload) :
    FailPayload.unmarshal (some p.marshal) = some p := by
  simp (disch := decide) only [FailPayload.unmarshal, FailPayload.marshal, members,
    readField_cons_self, readField_cons_ne, readField_nil, readString, readBool,
    Option.bind_eq_bind, Option.bind_some]

@[simp] theorem CompletePayload.unmarshal_marshal (p : CompletePayload) :
    CompletePayload.unmarshal (some p.marshal) = some p := by
  have hworker := readField_omitEmpty_ne readString "worker_id" "result" p.workerID p.result []
    (by decide)
  have hresult := readField_omitEmpty_self "result" p.result []
  rw [List.append_nil, readField_nil] at hworker hresult
  simp (disch := decide) only [CompletePayload.unmarshal, CompletePayload.marshal, members,
    List.cons_append, List.nil_append, readField_cons_self, readField_cons_ne, readString,
    Option.bind_eq_bind, Option.bind_some, hworker, hresult]

/-- The members of a submit payload, with the input read back. -/
@[simp] theorem SubmitPayload.unmarshal_marshal (p : SubmitPayload)
    (hmax : -2 ^ 63 ≤ p.maxAttempts ∧ p.maxAttempts < 2 ^ 63)
    (httl : -2 ^ 63 ≤ p.leaseTTLMS ∧ p.leaseTTLMS < 2 ^ 63) :
    SubmitPayload.unmarshal (some p.marshal) = some p := by
  simp (disch := decide) only [SubmitPayload.unmarshal, SubmitPayload.marshal, members,
    List.cons_append, List.nil_append, readField_cons_self, readField_cons_ne,
    readField_omitEmpty_ne, readField_omitEmpty_self, readField_nil, readString, readInt64,
    Number.toInt64?_ofInt hmax.1 hmax.2, Number.toInt64?_ofInt httl.1 httl.2,
    Option.bind_eq_bind, Option.bind_some]

/-! ## Envelopes -/

/-! The reasons of a retry or a death. -/

/-- `ReasonLeaseExpired`. -/
def reasonLeaseExpired : String := "lease_expired"

/-- `ReasonAttemptFailed`. -/
def reasonAttemptFailed : String := "attempt_failed"

/-- `ReasonNotRetryable`. -/
def reasonNotRetryable : String := "not_retryable"

/-- `ReasonAttemptsExhausted`. -/
def reasonAttemptsExhausted : String := "attempts_exhausted"

/-- `newEnvelope` builds a workflow event envelope with an explicit creation time. -/
def newEnvelope (ty : EventType) (tenant project workflowID agentID : String) (attempt : ℤ)
    (payload : Json) (at' : Time) : Event :=
  { version := "v1", type := ty.text, tenant := tenant, project := project,
    sessionID := workflowID, agentID := agentID, step := "", attempt := attempt,
    createdAt := at'.format, payload := some payload }

/-- `eventTime` parses the envelope timestamp; an unreadable one is the zero time. -/
def eventTime (e : Event) : Time := (Time.parse? e.createdAt).getD 0

@[simp] theorem eventType_newEnvelope (ty : EventType) (tenant project workflowID agentID : String)
    (attempt : ℤ) (payload : Json) (at' : Time) :
    eventType (newEnvelope ty tenant project workflowID agentID attempt payload at') = some ty :=
  EventType.ofText?_text ty

end AgentBus.Workflow
