import AgentBus.Broker.Broker
import AgentBus.Lib.Pool
import AgentBus.Workflow.Store

/-!
# The coordinator

`internal/workflow/coordinator.go` and `poller.go` as a pool of threads.  Every call is
a thread; its atomic steps are the methods of the store, the append of an envelope to
the log, and the reads of the clock.  A call that appends an event goes through the
same three steps whatever it is for: it stamps the envelope, publishes it, and folds it;
a `Frame` says which call it is and what happens next.

The environment moves the clock and runs the poller, which reads the partitions of the
topic one after the other in batches and folds every event once more.

## Main definitions

* `Config`, `Request`, `Response`, `Frame`, `Thread`, `State` — the states.
* `Frame.event` — the envelope a call appends.
* `Thread.step` — one atomic step of a call.
* `State.environment` — the clock and the poller.
* `coordinator` — the program.
-/

namespace AgentBus.Workflow

open AgentStream

/-- What a coordinator is constructed with; the options refuse non-positive defaults. -/
structure Config where
  maxAttempts : ℤ
  leaseTTL : Duration
  retainTerminal : ℤ
  partitions : ℕ
  capacity : ℕ
  maxAttempts_pos : 0 < maxAttempts
  maxAttempts_lt : maxAttempts < 2 ^ 63
  leaseTTL_pos : 0 < leaseTTL
  leaseTTL_lt : leaseTTL < 2 ^ 63

theorem zero_lt_int64 : (0 : ℤ) < 2 ^ 63 := by decide

theorem three_lt_int64 : (3 : ℤ) < 2 ^ 63 := by decide

/-- Thirty seconds in nanoseconds are a 64-bit duration. -/
theorem thirty_seconds_lt_int64 : 30 * Time.second < 2 ^ 63 := by decide

/-- `DefaultMaxAttempts`, `DefaultLeaseTTL`, no retention, and the broker's defaults. -/
def Config.default : Config where
  maxAttempts := 3
  leaseTTL := 30 * Time.second
  retainTerminal := 0
  partitions := Broker.defaultTopicPartitions
  capacity := Broker.defaultCapacity
  maxAttempts_pos := by decide
  maxAttempts_lt := three_lt_int64
  leaseTTL_pos := by decide
  leaseTTL_lt := thirty_seconds_lt_int64

/-- `maxLeaseWait`. -/
def maxLeaseWait : Duration := 30 * Time.second

/-- `defaultPollBatch`. -/
def defaultPollBatch : ℕ := 512

/-! ## Calls -/

/-- `SubmitSpec`: a new workflow execution.  The numbers are 64-bit integers. -/
structure SubmitSpec where
  tenant : String
  project : String
  workflowID : String
  taskType : String
  input : List UInt8
  maxAttempts : ℤ
  leaseTTL : Duration
  maxAttempts_lt : maxAttempts < 2 ^ 63
  leaseTTL_lt : leaseTTL < 2 ^ 63
  deriving DecidableEq, Repr

/-- The arguments of `LeaseBatch`. -/
structure LeaseCall where
  taskType : String
  workerID : String
  max : ℤ
  wait : Duration
  deriving DecidableEq, Repr

/-- How many leases a call may be granted. -/
def LeaseCall.limit (call : LeaseCall) : ℤ := if call.max ≤ 0 then 1 else call.max

/-- The arguments of `Heartbeat`: a worker speaks for one attempt of one execution. -/
structure AttemptCall where
  tenant : String
  project : String
  workflowID : String
  workerID : String
  attempt : ℤ
  deriving DecidableEq, Repr

/-- The arguments of `Complete`. -/
structure CompleteCall extends AttemptCall where
  result : List UInt8
  deriving DecidableEq, Repr

/-- The arguments of `Fail`. -/
structure FailCall extends AttemptCall where
  errMsg : String
  retryable : Bool
  deriving DecidableEq, Repr

/-- The key of the execution a worker speaks of. -/
def AttemptCall.key (a : AttemptCall) : String := sessionKey a.tenant a.project a.workflowID

/-- The calls. -/
inductive Request where
  | submit (spec : SubmitSpec)
  | leaseBatch (call : LeaseCall)
  | heartbeat (call : AttemptCall)
  | complete (call : CompleteCall)
  | fail (call : FailCall)
  | sweepExpired
  deriving DecidableEq, Repr

/-- `Lease`: what a worker receives for one granted attempt. -/
structure Lease where
  tenant : String
  project : String
  workflowID : String
  taskType : String
  input : List UInt8
  attempt : ℤ
  leaseDeadline : Time
  deriving DecidableEq, Repr

/-- The errors a call returns. -/
inductive CallError where
  /-- `ErrNotFound`. -/
  | notFound
  /-- The envelope was not appended. -/
  | publish
  /-- The caller's context was cancelled. -/
  | cancelled
  deriving DecidableEq, Repr

/-- The answers. -/
inductive Response where
  | submit (alreadyExists : Bool) (err : Option CallError)
  | leaseBatch (leases : List Lease) (err : Option CallError)
  | heartbeat (valid : Bool) (deadline : Time) (err : Option CallError)
  | complete (accepted duplicate : Bool) (err : Option CallError)
  | fail (accepted willRetry : Bool) (err : Option CallError)
  | sweepExpired (reclaimed : ℕ)
  deriving DecidableEq, Repr

/-! ## Appending an event -/

/-- The locals of a running `LeaseBatch`. -/
structure Batch where
  call : LeaseCall
  deadline : Time
  out : List Lease
  deriving DecidableEq, Repr

/-- The payload `Submit` writes: non-positive limits take the defaults. -/
def SubmitSpec.payload (c : Config) (spec : SubmitSpec) : SubmitPayload where
  taskType := spec.taskType
  input := spec.input
  maxAttempts := if spec.maxAttempts ≤ 0 then c.maxAttempts else spec.maxAttempts
  leaseTTLMS := (if spec.leaseTTL ≤ 0 then c.leaseTTL else spec.leaseTTL) / Time.millisecond

/-- What `Fail` decides once the failure is recorded. -/
def FailCall.verdict (a : FailCall) (x : Execution) : EventType × String :=
  if a.retryable ∧ a.attempt < x.maxAttempts then (.retry, reasonAttemptFailed)
  else (.dead, if a.retryable then reasonAttemptsExhausted else reasonNotRetryable)

/-- What `SweepExpired` decides for an expired lease. -/
def sweepVerdict (x : Execution) : EventType × String :=
  if x.attempt < x.maxAttempts then (.retry, reasonLeaseExpired)
  else (.dead, reasonAttemptsExhausted)

/-- The envelope of `appendReason`. -/
def reasonEvent (x : Execution) (v : EventType × String) (now : Time) : Event :=
  newEnvelope v.1 x.tenant x.project x.workflowID coordinatorAgentID x.attempt
    (ReasonPayload.marshal ⟨v.2⟩) now

/-- A call in the middle of appending an event. -/
inductive Frame where
  | submit (spec : SubmitSpec)
  /-- `grant`, for the reserved execution `x` and the attempt it read. -/
  | grant (b : Batch) (x : Execution) (attempt : ℤ)
  | heartbeat (call : AttemptCall)
  | complete (call : CompleteCall)
  /-- The first append of `Fail`, with the copy it works on. -/
  | fail (call : FailCall) (x : Execution)
  /-- The second append of `Fail`. -/
  | verdict (call : FailCall) (x : Execution)
  /-- One round of the loop of `SweepExpired`. -/
  | sweep (x : Execution) (rest : List Execution) (n : ℕ)
  deriving DecidableEq, Repr

/-- The envelope a call appends, stamped `now`. -/
def Frame.event (c : Config) (now : Time) : Frame → Event
  | submit spec =>
    newEnvelope .submitted spec.tenant spec.project spec.workflowID coordinatorAgentID 0
      (spec.payload c).marshal now
  | grant b x attempt =>
    newEnvelope .leased x.tenant x.project x.workflowID b.call.workerID attempt
      (LeasePayload.marshal ⟨b.call.workerID⟩) now
  | heartbeat a =>
    newEnvelope .heartbeat a.tenant a.project a.workflowID a.workerID a.attempt
      (LeasePayload.marshal ⟨a.workerID⟩) now
  | complete a =>
    newEnvelope .completed a.tenant a.project a.workflowID a.workerID a.attempt
      (CompletePayload.marshal ⟨a.workerID, a.result⟩) now
  | fail a _ =>
    newEnvelope .failed a.tenant a.project a.workflowID a.workerID a.attempt
      (FailPayload.marshal ⟨a.workerID, a.errMsg, a.retryable⟩) now
  | verdict a x => reasonEvent x (a.verdict x) now
  | sweep x _ _ => reasonEvent x (sweepVerdict x) now

/-! ## Threads -/

/-- A call between two of its atomic steps. -/
inductive Thread where
  | start (r : Request)
  /-- At the head of the loop of `LeaseBatch`. -/
  | leasing (b : Batch)
  /-- `ReserveNext` found nothing and nothing is granted yet. -/
  | idle (b : Batch)
  /-- Blocked on a wake-up channel. -/
  | waiting (b : Batch) (ch : ℕ)
  /-- About to read the attempt of the reserved execution. -/
  | granting (b : Batch) (x : Execution)
  /-- About to stamp the envelope. -/
  | preparing (f : Frame)
  /-- About to publish the envelope. -/
  | publishing (f : Frame) (stamp : Time)
  /-- About to fold the published envelope. -/
  | folding (f : Frame) (stamp : Time)
  /-- About to read the deadline of the new lease. -/
  | granted (b : Batch) (x : Execution) (attempt : ℤ)
  /-- About to read the deadline of the extended lease. -/
  | extended (call : AttemptCall)
  /-- The lease was not published: about to give the execution back. -/
  | unreserving (b : Batch) (x : Execution)
  /-- The completion was not published: about to release the fence. -/
  | aborting (call : CompleteCall)
  /-- About to collect the leases expired at `now`. -/
  | expiring (now : Time)
  /-- At the head of the loop of `SweepExpired`. -/
  | sweeping (rest : List Execution) (n : ℕ)
  | done (r : Request) (answer : Response)
  deriving DecidableEq, Repr

/-- Whether the call has returned. -/
def Thread.finished : Thread → Bool
  | .done _ _ => true
  | _ => false

/-- What `LeaseBatch` does with the answer of `ReserveNext`. -/
def Batch.onReserve (b : Batch) : Option Execution → Thread
  | some x => .granting b x
  | none => if b.out = [] then .idle b else .done (.leaseBatch b.call) (.leaseBatch b.out none)

/-- What a call does when its envelope was not appended. -/
def Frame.onError : Frame → Thread
  | submit spec => .done (.submit spec) (.submit false (some .publish))
  | grant b x _ => .unreserving b x
  | heartbeat a => .done (.heartbeat a) (.heartbeat false 0 (some .publish))
  | complete a => .aborting a
  | fail a _ => .done (.fail a) (.fail false false (some .publish))
  | verdict a _ => .done (.fail a) (.fail true false (some .publish))
  | sweep _ rest n => .sweeping rest n -- the sweep ignores the error

/-- What a call does once its envelope is appended and folded. -/
def Frame.onFolded : Frame → Thread
  | submit spec => .done (.submit spec) (.submit false none)
  | grant b x attempt => .granted b x attempt
  | heartbeat a => .extended a
  | complete a => .done (.complete a) (.complete true false none)
  | fail a x => .preparing (.verdict a x)
  | verdict a x => .done (.fail a) (.fail true ((a.verdict x).1 = .retry) none)
  | sweep _ rest n => .sweeping rest n

/-! ## State -/

/-- The poller: per-partition cursors, the partition in hand with what was fetched from
it and not folded yet, and the partition to fetch next. -/
structure Poller where
  cursors : ℕ → ℕ
  part : ℕ
  next : ℕ
  inbox : List (Event × ℕ)

/-- The shared state: the store, the log of the topic in publishing order, the clock and
the poller. -/
structure State where
  store : Store
  log : List Event
  clock : Time
  poller : Poller

/-- `NewCoordinator` and `NewPoller`. -/
def State.init (c : Config) : State where
  store := Store.empty c.retainTerminal
  log := []
  clock := 0
  poller := ⟨fun _ => 0, 0, 0, []⟩

/-! ## Steps -/

/-- What resolves a step: go on, have the publish fail, have the timer fire, have the
context cancelled, or visit the map of running keys in some order. -/
inductive Choice where
  | go
  | publishError
  | timeout
  | cancel
  | visit (order : List String)
  deriving DecidableEq, Repr

/-- The first step of `Heartbeat`. -/
def heartbeatStart (s : State) (a : AttemptCall) : Thread :=
  match s.store.get a.tenant a.project a.workflowID with
  | none => .done (.heartbeat a) (.heartbeat false 0 (some .notFound))
  | some x =>
    if x.status ≠ .running ∨ x.attempt ≠ a.attempt ∨ x.workerID ≠ a.workerID then
      .done (.heartbeat a) (.heartbeat false 0 none)
    else .preparing (.heartbeat a)

/-- The first step of `Fail`. -/
def failStart (s : State) (a : FailCall) : Thread :=
  match s.store.get a.tenant a.project a.workflowID with
  | none => .done (.fail a) (.fail false false (some .notFound))
  | some x =>
    if x.terminal ∨ x.status ≠ .running ∨ x.attempt ≠ a.attempt ∨ x.workerID ≠ a.workerID then
      .done (.fail a) (.fail false false none)
    else .preparing (.fail a x)

/-- The deadline a call reads back. -/
def leaseDeadline (s : State) (tenant project workflowID : String) : Time :=
  match s.store.get tenant project workflowID with
  | some x => x.leaseDeadline
  | none => 0

/-- The lease `grant` builds. -/
def newLease (s : State) (x : Execution) (attempt : ℤ) : Lease where
  tenant := x.tenant
  project := x.project
  workflowID := x.workflowID
  taskType := x.taskType
  input := x.input
  attempt := attempt
  leaseDeadline := leaseDeadline s x.tenant x.project x.workflowID

/-- One atomic step of a call. -/
def Thread.step (c : Config) (s : State) : Thread → Choice → Option (State × Thread)
  | .start (.submit spec), .go =>
    match s.store.get spec.tenant spec.project spec.workflowID with
    | some _ => some (s, .done (.submit spec) (.submit true none))
    | none => some (s, .preparing (.submit spec))
  | .start (.leaseBatch call), .go =>
    some (s, .leasing ⟨call, s.clock + min call.wait maxLeaseWait, []⟩)
  | .start (.heartbeat a), .go => some (s, heartbeatStart s a)
  | .start (.complete a), .go =>
    let r := s.store.beginComplete a.tenant a.project a.workflowID a.attempt
    some ({ s with store := r.1 },
      if r.2.1 then .preparing (.complete a) else .done (.complete a) (.complete false r.2.2 none))
  | .start (.fail a), .go => some (s, failStart s a)
  | .start .sweepExpired, .go => some (s, .expiring s.clock)
  | .leasing b, .go =>
    if b.call.limit ≤ b.out.length then
      some (s, .done (.leaseBatch b.call) (.leaseBatch b.out none))
    else
      let r := s.store.reserveNext b.call.taskType
      some ({ s with store := r.1 }, b.onReserve r.2)
  | .idle b, .go =>
    if b.deadline ≤ s.clock then some (s, .done (.leaseBatch b.call) (.leaseBatch [] none))
    else
      let r := s.store.waitChan b.call.taskType
      some ({ s with store := r.1 }, .waiting b r.2)
  | .waiting b ch, .go => if s.store.closed ch then some (s, .leasing b) else none
  | .waiting b _, .timeout =>
    if b.deadline ≤ s.clock then some (s, .done (.leaseBatch b.call) (.leaseBatch [] none))
    else none
  | .waiting b _, .cancel =>
    some (s, .done (.leaseBatch b.call) (.leaseBatch [] (some .cancelled)))
  | .granting b x, .go => some (s, .preparing (.grant b x ((s.store.deref x).attempt + 1)))
  | .preparing f, .go => some (s, .publishing f s.clock)
  | .publishing f stamp, .go =>
    match (f.event c stamp).validate with
    | .ok _ => some ({ s with log := s.log ++ [f.event c stamp] }, .folding f stamp)
    | .error _ => none
  | .publishing f _, .publishError => some (s, f.onError)
  | .folding f stamp, .go =>
    some ({ s with store := (s.store.apply (f.event c stamp)).1 }, f.onFolded)
  | .granted b x attempt, .go =>
    some (s, .leasing { b with out := b.out ++ [newLease s x attempt] })
  | .extended a, .go =>
    some (s, .done (.heartbeat a)
      (.heartbeat true (leaseDeadline s a.tenant a.project a.workflowID) none))
  | .unreserving b x, .go =>
    some ({ s with store := s.store.unreserve x },
      .done (.leaseBatch b.call)
        (if b.out = [] then .leaseBatch [] (some .publish) else .leaseBatch b.out none))
  | .aborting a, .go =>
    some ({ s with store := s.store.abortComplete a.tenant a.project a.workflowID },
      .done (.complete a) (.complete false false (some .publish)))
  | .expiring now, .visit order =>
    if order.Perm s.store.running then
      let r := s.store.expiredLeases now order
      some ({ s with store := r.1 }, .sweeping r.2 r.2.length)
    else none
  | .sweeping [] n, .go => some (s, .done .sweepExpired (.sweepExpired n))
  | .sweeping (x :: rest) n, .go => some (s, .preparing (.sweep x rest n))
  | _, _ => none

/-- What the environment does. -/
inductive EnvStep where
  /-- The clock moves on. -/
  | tick (now : Time)
  /-- The poller takes its next step. -/
  | poll
  deriving DecidableEq, Repr

/-- What a fetch of partition `p` from its cursor finds in the ring, with the offsets. -/
def State.window (c : Config) (s : State) (p : ℕ) : List (Event × ℕ) :=
  let l := s.log.filter fun e => Broker.keyPartition c.partitions e.key = p
  (l.zipIdx.drop (max (s.poller.cursors p) (l.length - c.capacity))).take defaultPollBatch

/-- One step of the environment.  `drainOnce` fetches a batch and then folds its events
one by one. -/
def State.environment (c : Config) (s : State) : EnvStep → Option State
  | .tick now => if s.clock ≤ now then some { s with clock := now } else none
  | .poll =>
    match s.poller.inbox with
    | [] =>
      some { s with
        poller := { s.poller with
          part := s.poller.next
          next := (s.poller.next + 1) % c.partitions
          inbox := s.window c s.poller.next } }
    | (e, o) :: rest =>
      some { s with
        store := (s.store.apply e).1
        poller := { s.poller with
          cursors := Function.update s.poller.cursors s.poller.part (o + 1)
          inbox := rest } }

/-- The coordinator as a program. -/
def coordinator (c : Config) : Pool.Program State Thread Request Choice EnvStep where
  entry := .start
  thread := Thread.step c
  env := State.environment c

/-- A broker that keeps one finished execution. -/
def keepOne : Config := { Config.default with retainTerminal := 1 }

/-! ## Pieces of runs, for the later modules -/

/-- A task with the default bounds. -/
def SubmitSpec.plain (id taskType : String) : SubmitSpec :=
  ⟨"acme", "p", id, taskType, [], 0, 0, zero_lt_int64, zero_lt_int64⟩

/-- A task of at most `attempts` attempts, with a lease of thirty seconds each. -/
def SubmitSpec.bounded (id taskType : String) (attempts : Int64) : SubmitSpec :=
  ⟨"acme", "p", id, taskType, [], attempts.toInt, 30 * Time.second, attempts.toInt_lt,
    thirty_seconds_lt_int64⟩

/-- Thread `i` takes `n` plain steps. -/
def goOn (i n : ℕ) : List (Pool.Act Request Choice EnvStep) := List.replicate n (.run i .go)

/-- A call arrives as thread `i` and takes `n` plain steps. -/
def arrive (i n : ℕ) (r : Request) : List (Pool.Act Request Choice EnvStep) := .spawn r :: goOn i n

/-- Submit a task of at most `attempts` attempts and lease the first. -/
def firstAttempt (attempts : Int64) : List (Pool.Act Request Choice EnvStep) :=
  arrive 0 4 (.submit (.bounded "w" "build" attempts)) ++
    arrive 1 8 (.leaseBatch ⟨"build", "w1", 1, 0⟩)

/-- The lease of the first attempt has expired, and a sweep has collected it. -/
def firstExpired : List (Pool.Act Request Choice EnvStep) :=
  firstAttempt 3 ++ [.env (.tick (31 * Time.second))] ++ arrive 2 1 .sweepExpired ++
    [.run 2 (.visit ["acme/p/w"])]

/-- The worker that has the lease. -/
def firstHolder : AttemptCall := ⟨"acme", "p", "w", "w1", 1⟩

end AgentBus.Workflow
