import AgentBus.Workflow.Event

/-!
# The folded state of one execution

`internal/workflow/state.go`: an `Execution` is what the events of one key fold to.
`Execution.apply` folds one more event; it answers `none` where the source reports
that nothing changed, and the source changes nothing on those paths.

`Execution.Folds` lists the six ways an event is accepted, with everything each of
them does, and `apply_eq_some_iff` says that the list is complete.  Nothing below
this module unfolds `apply` again.

## Main definitions

* `Status`, `Transition`, `Execution` — the state.
* `Execution.apply`, `newExecution` — the fold.
* `Execution.Folds` — the accepted events.
* `Execution.folded` — the state without the run-time flags.
-/

namespace AgentBus.Workflow

open AgentStream

/-- `Status`: an execution's lifecycle state. -/
inductive Status where
  /-- Waiting for a worker lease. -/
  | pending
  /-- Leased to a worker. -/
  | running
  /-- The attempt failed and the coordinator is deciding. -/
  | retrying
  /-- Terminal success. -/
  | completed
  /-- Terminal failure. -/
  | failed
  deriving DecidableEq, Repr, Inhabited

/-- `Transition`: one recorded step in an execution's history. -/
structure Transition where
  eventType : EventType
  status : Status
  attempt : ℤ
  workerID : String
  detail : String
  at' : Time
  deriving DecidableEq, Repr, Inhabited

/-- `Execution`: the folded state of one workflow execution.  `ref` tells one allocation
from another, since the source passes executions around by pointer. -/
structure Execution where
  ref : ℕ
  tenant : String
  project : String
  workflowID : String
  taskType : String
  status : Status
  attempt : ℤ
  maxAttempts : ℤ
  leaseTTL : Duration
  workerID : String
  input : List UInt8
  result : List UInt8
  error : String
  submittedAt : Time
  updatedAt : Time
  leaseDeadline : Time
  transitions : List Transition
  reserved : Bool
  completing : Bool
  deriving DecidableEq, Repr, Inhabited

namespace Execution

/-- `Key`: the log key of this execution. -/
def key (x : Execution) : String := sessionKey x.tenant x.project x.workflowID

/-- `Terminal`: whether the execution reached a final state. -/
def terminal (x : Execution) : Bool := x.status = .completed || x.status = .failed

theorem terminal_iff {x : Execution} :
    x.terminal = true ↔ x.status = .completed ∨ x.status = .failed := by
  simp [terminal]

/-- Everything but the run-time flags. -/
def unflagged (x : Execution) : Execution := { x with reserved := false, completing := false }

/-- The folded fields: everything but the allocation and the run-time flags, which are
not rebuilt from the log. -/
def folded (x : Execution) : Execution :=
  { x with ref := 0, reserved := false, completing := false }

/-- `record` stamps the update and appends the transition. -/
def record (x : Execution) (ty : EventType) (attempt : ℤ) (worker detail : String) (at' : Time) :
    Execution :=
  { x with
    updatedAt := at'
    transitions := x.transitions ++ [⟨ty, x.status, attempt, worker, detail, at'⟩] }

/-- A wf.leased event takes effect. -/
def lease (x : Execution) (e : Event) (p : LeasePayload) : Execution :=
  { x with
    status := .running, attempt := e.attempt, workerID := p.workerID
    leaseDeadline := eventTime e + x.leaseTTL, reserved := false }.record
      .leased e.attempt p.workerID "" (eventTime e)

/-- A wf.heartbeat event takes effect. -/
def extend (x : Execution) (e : Event) : Execution :=
  { x with leaseDeadline := eventTime e + x.leaseTTL, updatedAt := eventTime e }

/-- A wf.completed event takes effect. -/
def complete (x : Execution) (e : Event) (p : CompletePayload) : Execution :=
  { x with
    status := .completed, result := p.result, workerID := p.workerID
    completing := false }.record .completed e.attempt p.workerID "" (eventTime e)

/-- A wf.failed event takes effect. -/
def fail (x : Execution) (e : Event) (p : FailPayload) : Execution :=
  { x with status := .retrying, error := p.error }.record
    .failed e.attempt p.workerID p.error (eventTime e)

/-- A wf.retry event takes effect. -/
def requeue (x : Execution) (e : Event) (p : ReasonPayload) : Execution :=
  { x with status := .pending, workerID := "", leaseDeadline := 0 }.record
    .retry x.attempt "" p.reason (eventTime e)

/-- A wf.dead event takes effect. -/
def kill (x : Execution) (e : Event) (p : ReasonPayload) : Execution :=
  { x with status := .failed, error := if x.error = "" then p.reason else x.error }.record
    .dead x.attempt "" p.reason (eventTime e)

/-- `apply` folds one event into the execution; `none` when nothing changes. -/
def apply (x : Execution) (e : Event) : Option Execution :=
  match eventType e with
  | some .leased => do
      let p ← LeasePayload.unmarshal e.payload
      if x.terminal ∨ x.status ≠ .pending ∨ e.attempt ≠ x.attempt + 1 then none
      else some (x.lease e p)
  | some .heartbeat => do
      let p ← LeasePayload.unmarshal e.payload
      if x.status ≠ .running ∨ e.attempt ≠ x.attempt ∨ p.workerID ≠ x.workerID then none
      else some (x.extend e)
  | some .completed => do
      let p ← CompletePayload.unmarshal e.payload
      -- The exactly-once completion gate: only the current attempt of a live execution.
      if x.terminal ∨ e.attempt ≠ x.attempt ∨ e.attempt = 0 then none
      else some (x.complete e p)
  | some .failed => do
      let p ← FailPayload.unmarshal e.payload
      if x.terminal ∨ x.status ≠ .running ∨ e.attempt ≠ x.attempt then none
      else some (x.fail e p)
  | some .retry => do
      let p ← ReasonPayload.unmarshal e.payload
      -- Unlike the branches above, the attempt of the event is not compared.
      if x.terminal ∨ x.status = .pending then none else some (x.requeue e p)
  | some .dead => do
      let p ← ReasonPayload.unmarshal e.payload
      if x.terminal then none else some (x.kill e p)
  | some .submitted => none
  | none => none

/-- The accepted events, each with its guard and its effect. -/
inductive Folds (x : Execution) (e : Event) : Execution → Prop
  | leased (p : LeasePayload) (ty : eventType e = some .leased)
      (payload : LeasePayload.unmarshal e.payload = some p)
      (status : x.status = .pending) (attempt : e.attempt = x.attempt + 1) :
      Folds x e (x.lease e p)
  | heartbeat (p : LeasePayload) (ty : eventType e = some .heartbeat)
      (payload : LeasePayload.unmarshal e.payload = some p)
      (status : x.status = .running) (attempt : e.attempt = x.attempt)
      (worker : p.workerID = x.workerID) : Folds x e (x.extend e)
  | completed (p : CompletePayload) (ty : eventType e = some .completed)
      (payload : CompletePayload.unmarshal e.payload = some p)
      (live : x.terminal = false) (attempt : e.attempt = x.attempt) (leased : e.attempt ≠ 0) :
      Folds x e (x.complete e p)
  | failed (p : FailPayload) (ty : eventType e = some .failed)
      (payload : FailPayload.unmarshal e.payload = some p)
      (status : x.status = .running) (attempt : e.attempt = x.attempt) :
      Folds x e (x.fail e p)
  | retry (p : ReasonPayload) (ty : eventType e = some .retry)
      (payload : ReasonPayload.unmarshal e.payload = some p)
      (status : x.status = .running ∨ x.status = .retrying) : Folds x e (x.requeue e p)
  | dead (p : ReasonPayload) (ty : eventType e = some .dead)
      (payload : ReasonPayload.unmarshal e.payload = some p)
      (live : x.terminal = false) : Folds x e (x.kill e p)

/-- **The fold accepts exactly the events listed.** -/
theorem apply_eq_some_iff {x x' : Execution} {e : Event} :
    x.apply e = some x' ↔ Folds x e x' := by
  constructor
  · intro h
    unfold apply at h
    split at h
    case h_7 => cases h
    case h_8 => cases h
    all_goals
      rename_i ty
      obtain ⟨p, hp, h⟩ := Option.bind_eq_some_iff.mp h
      split at h
      · cases h
      rename_i guard
      cases h
    · have hs : x.status = .pending := by
        by_contra hs
        exact guard (.inr (.inl hs))
      have ha : e.attempt = x.attempt + 1 := by
        by_contra ha
        exact guard (.inr (.inr ha))
      exact .leased p ty hp hs ha
    · simp only [ne_eq, not_or, not_not] at guard
      exact .heartbeat p ty hp guard.1 guard.2.1 guard.2.2
    · simp only [ne_eq, not_or, not_not, Bool.not_eq_true] at guard
      exact .completed p ty hp guard.1 guard.2.1 guard.2.2
    · simp only [ne_eq, not_or, not_not] at guard
      exact .failed p ty hp guard.2.1 guard.2.2
    · simp only [not_or, terminal_iff] at guard
      refine .retry p ty hp ?_
      cases hs : x.status <;> simp_all
    · exact .dead p ty hp (by simpa using guard)
  · intro h
    cases h with
    | leased p ty payload status attempt =>
      simp [apply, ty, payload, terminal, status, attempt]
    | heartbeat p ty payload status attempt worker =>
      simp [apply, ty, payload, status, attempt, worker]
    | completed p ty payload live attempt leased =>
      rw [attempt] at leased
      simp [apply, ty, payload, live, attempt, leased]
    | failed p ty payload status attempt =>
      simp [apply, ty, payload, terminal, status, attempt]
    | retry p ty payload status =>
      rcases status with hs | hs <;> simp [apply, ty, payload, terminal, hs]
    | dead p ty payload live => simp [apply, ty, payload, live]

/-- A terminal execution accepts nothing. -/
theorem Folds.live {x x' : Execution} {e : Event} (h : Folds x e x') : x.terminal = false := by
  cases h with
  | leased p ty payload status attempt => simp [terminal, status]
  | heartbeat p ty payload status attempt worker => simp [terminal, status]
  | completed p ty payload live attempt leased => exact live
  | failed p ty payload status attempt => simp [terminal, status]
  | retry p ty payload status => rcases status with hs | hs <;> simp [terminal, hs]
  | dead p ty payload live => exact live

end Execution

/-- The nanoseconds of a millisecond count, in 64-bit arithmetic. -/
def durationOfMillis (ms : ℤ) : Duration := Int.bmod (ms * Time.millisecond) (2 ^ 64)

/-- `newExecution` folds a wf.submitted event into a fresh execution, allocated as `ref`. -/
def newExecution (ref : ℕ) (e : Event) : Option Execution := do
  let p ← SubmitPayload.unmarshal e.payload
  if p.taskType = "" then none
  else
    some (Execution.record
      { ref := ref, tenant := e.tenant, project := e.project, workflowID := e.sessionID
        taskType := p.taskType, status := .pending, attempt := 0, maxAttempts := p.maxAttempts
        leaseTTL := durationOfMillis p.leaseTTLMS, workerID := "", input := p.input, result := []
        error := "", submittedAt := eventTime e, updatedAt := 0, leaseDeadline := 0
        transitions := [], reserved := false, completing := false }
      .submitted 0 e.agentID p.taskType (eventTime e))

/-- Whether a submit is usable does not depend on the allocation. -/
theorem newExecution_eq_none_iff {ref : ℕ} {e : Event} :
    newExecution ref e = none ↔
      ∀ p, SubmitPayload.unmarshal e.payload = some p → p.taskType = "" := by
  cases hp : SubmitPayload.unmarshal e.payload with
  | none => simp [newExecution, hp]
  | some p => simp [newExecution, hp]

end AgentBus.Workflow
