import AgentBus.Grpcapi.PublishAgent
import AgentBus.Lib.Ledger
import Mathlib.Data.List.Infix

/-!
# The publish handlers

The calls that publish through the write-ahead log: `Publish`, `PublishAgent` and `PublishEnvelope`
of `internal/grpcapi/server.go`, and `handlePublish`, `handlePublishWithKey` and
`handleBatchPublish` of `internal/broker/tcp_server.go`.  Each of them settles on a partition, and
then appends a record to the log and publishes its payload as two separate steps, a batch once for
each payload.  The handlers of the TCP server are taken from the decoded frame on.

The log and the partitions have locks of their own, so two handlers can write to the log in one
order and to a partition in the other.  After a restart the payloads of the partition have changed
places (`restart_reorders`).  When every publish takes the next record of its partition, a restart
brings back every message at its offset (`restart_keeps_offsets`).

## Main definitions

* `PublishRequest`, `PublishRequest.route`, `Job` — the requests, and what they come down to.
* `Handler`, `Node`, `Handler.step`, `handlers` — the program.
* `inWalOrder` — the condition.
* `Handler.Does`, `Handler.step_spec` — what a step can do.
-/

namespace AgentBus.Grpcapi

open AgentStream Broker Framing Pool

/-- The publish requests. -/
inductive PublishRequest where
  /-- `Publish`; a negative partition stands for that of the key. -/
  | publish (topic key : String) (partition : Int32) (payload : List UInt8)
  | publishAgent (event : Option AgentEvent)
  | publishEnvelope (topic : String) (env : Event)
  /-- `handlePublish`. -/
  | tcpPublish (topic : String) (payload : List UInt8)
  /-- `handlePublishWithKey`. -/
  | tcpPublishWithKey (topic key : String) (payload : List UInt8)
  /-- `handleBatchPublish`. -/
  | tcpBatchPublish (topic : String) (payloads : List (List UInt8))
  deriving DecidableEq

/-- The answers. -/
inductive Answer where
  /-- The response of the gRPC calls. -/
  | response (offset : ℤ) (partition : ℕ)
  /-- `OpAck`. -/
  | ack (offset : ℤ)
  /-- `OpBatchAck`. -/
  | batchAck (firstOffset lastOffset : ℤ) (count : ℕ)
  /-- The status `InvalidArgument`. -/
  | invalidArgument (msg : String)
  /-- `OpError`. -/
  | errorFrame (msg : String)
  /-- The append to the log failed: a status, or the end of the connection. -/
  | walAppend
  /-- The publish failed. -/
  | publishFailed
  deriving DecidableEq, Repr

/-- What a request comes down to: payloads for a partition. -/
structure Job where
  topic : String
  key : String
  partition : ℕ
  payloads : List (List UInt8)
  deriving DecidableEq, Repr

/-- The job for the partition of the key. -/
def keyJob (b : Broker (List UInt8)) (topic key : String) (payload : List UInt8) :
    Broker (List UInt8) × Except Answer Job :=
  let r := b.routeKey topic key
  (r.1, .ok ⟨topic, key, r.2, [payload]⟩)

/-- The first step of a handler: it checks the request and settles on a partition. -/
def PublishRequest.route (now : Time) (b : Broker (List UInt8)) :
    PublishRequest → Broker (List UInt8) × Except Answer Job
  | .publish topic key partition payload =>
    if topic = "" then (b, .error (.invalidArgument "topic is required"))
    else if 0 ≤ partition then
      let b := b.ensureTopic topic 0
      if (b.partitionCount topic : ℤ) ≤ partition.toInt then
        (b, .error (.invalidArgument ("invalid partition " ++ toString partition.toInt)))
      else (b, .ok ⟨topic, key, partition.toInt.toNat, [payload]⟩)
    else keyJob b topic key payload
  | .publishAgent none => (b, .error (.invalidArgument "event is required"))
  | .publishAgent (some ev) =>
    match ev.marshal now with
    | .error msg => (b, .error (.invalidArgument ("invalid agent event: " ++ msg)))
    | .ok encoded => keyJob b agentEventsTopic ev.key encoded
  | .publishEnvelope topic env =>
    match env.marshal now with
    | .error msg => (b, .error (.invalidArgument ("invalid envelope: " ++ msg)))
    | .ok encoded => keyJob b topic env.key encoded
  | .tcpPublish topic payload =>
    if topic = "" then (b, .error (.errorFrame "topic required"))
    else (b, .ok ⟨topic, "", 0, [payload]⟩)
  | .tcpPublishWithKey topic key payload =>
    if topic = "" then (b, .error (.errorFrame "topic required"))
    else keyJob b topic key payload
  | .tcpBatchPublish topic payloads =>
    if topic = "" then (b, .error (.errorFrame "topic required"))
    else if payloads = [] then (b, .error (.errorFrame "empty batch"))
    else (b, .ok ⟨topic, "", 0, payloads⟩)

/-- The answer once everything is published, at these offsets. -/
def PublishRequest.answer (partition : ℕ) (offsets : List ℤ) : PublishRequest → Answer
  | .tcpPublish _ _ | .tcpPublishWithKey _ _ _ => .ack (offsets.getLastD 0)
  | .tcpBatchPublish _ payloads =>
    .batchAck (offsets.headD (-1)) (offsets.getLastD 0) payloads.length
  | _ => .response (offsets.getLastD 0) partition

/-- The record of a payload. -/
def Job.record (job : Job) (now : Time) (payload : List UInt8) : Wal.Record where
  timestamp := unixNano now
  topic := stringBytes job.topic
  key := stringBytes job.key
  partition := Int32.ofNat job.partition
  payload := payload

/-- A handler between two of its steps. -/
inductive Handler where
  | start (r : PublishRequest)
  /-- About to append the record of the next payload, with the offsets so far. -/
  | logging (r : PublishRequest) (job : Job) (offsets : List ℤ)
  /-- About to publish the payload of a record. -/
  | publishing (r : PublishRequest) (job : Job) (record : Wal.Record) (offsets : List ℤ)
  | done (r : PublishRequest) (answer : Answer)
  deriving DecidableEq

/-- The server, with the records that were appended to the log and those whose payloads were
published, in order. -/
structure Node where
  server : Server
  logged : List Wal.Record
  published : List Wal.Record

/-- What resolves a step: the time, or the failure of an append. -/
inductive HandlerChoice where
  | go (now : Time)
  | walError
  deriving DecidableEq, Repr

/-- One step of a handler. -/
def Handler.step (sum : List UInt8 → UInt32) (n : Node) :
    Handler → HandlerChoice → Option (Node × Handler)
  | .start r, .go now =>
    let q := r.route now n.server.broker
    let n' := { n with server := { n.server with broker := q.1 } }
    match q.2 with
    | .error answer => some (n', .done r answer)
    | .ok job => some (n', .logging r job [])
  | .logging r job offsets, .go now =>
    match job.payloads with
    | [] => some (n, .done r (r.answer job.partition offsets))
    | payload :: rest =>
      match Wal.appendRecord sum (unixNano now) (job.record now payload) with
      | .error _ => some (n, .done r .walAppend)
      | .ok bs =>
        let record := (job.record now payload).stamped (unixNano now)
        some ({ n with
            server := { n.server with wal := n.server.wal ++ bs }
            logged := n.logged ++ [record] },
          .publishing r { job with payloads := rest } record offsets)
  | .logging r _ _, .walError => some (n, .done r .walAppend)
  | .publishing r job record offsets, .go _ =>
    let q := n.server.broker.publishToPartition job.topic job.partition record.payload
    let n' := { n with server := { n.server with broker := q.1 } }
    match q.2 with
    | none => some (n', .done r .publishFailed)
    | some offset =>
      some ({ n' with published := n.published ++ [record] },
        .logging r job (offsets ++ [offset]))
  | _, _ => none

/-- The handlers as a program. -/
def handlers (sum : List UInt8 → UInt32) :
    Program Node Handler PublishRequest HandlerChoice Empty where
  entry := .start
  thread n t l := t.step sum n l
  env _ e := e.elim

/-- A publish takes the next record of its partition in the log. -/
def inWalOrder : Guard Node Handler HandlerChoice Empty where
  thread n t _ :=
    match t with
    | .publishing _ _ r _ =>
      ((n.published ++ [r]).filter fun r' => slot r' = slot r) <+:
        n.logged.filter fun r' => slot r' = slot r
    | _ => True
  env _ _ := True

/-- The process after a start on the file of these records. -/
def Node.opened (sum : List UInt8 → UInt32) (opts : Wal.ReplayOptions) (capacity : ℕ)
    (rs : List Wal.Record) : Option Node :=
  (restore sum opts capacity (encodeAll (Wal.encode sum) rs)).map fun b =>
    ⟨⟨encodeAll (Wal.encode sum) rs, b⟩, rs, rs⟩

/-! ## What every step keeps -/

/-- The record a handler has appended and not published yet. -/
def Handler.pending : Handler → List Wal.Record
  | .publishing _ _ record _ => [record]
  | _ => []

/-- What is known of the server. -/
structure Node.Sound (sum : List UInt8 → UInt32) (capacity : ℕ) (n : Node) : Prop where
  capacity : n.server.broker.capacity = capacity
  wal : n.server.wal = encodeAll (Wal.encode sum) n.logged
  routed : ∀ r ∈ n.logged, Routed r
  shows : n.server.broker.ShowsAll (payloads n.published)
  order : InOrder slot n.logged n.published

/-- What is known of a handler. -/
def Handler.Sound : Handler → Prop
  | .logging _ job _ => job.partition < defaultTopicPartitions
  | .publishing _ job r _ => job.partition < defaultTopicPartitions ∧
      r.topic = stringBytes job.topic ∧ r.partition = Int32.ofNat job.partition
  | _ => True

/-- What settling on a partition does: nothing that is shown changes, and the partition exists. -/
def Routes (b : Broker (List UInt8)) (view : String → ℕ → List (List UInt8))
    (q : Broker (List UInt8) × Except Answer Job) : Prop :=
  q.1.capacity = b.capacity ∧ q.1.ShowsAll view ∧
    ∀ job, q.2 = .ok job → job.partition < defaultTopicPartitions

section
variable {b : Broker (List UInt8)} {view : String → ℕ → List (List UInt8)} (h : b.ShowsAll view)
include h

theorem routes_refused (answer : Answer) : Routes b view (b, .error answer) :=
  ⟨rfl, h, by rintro _ ⟨⟩⟩

theorem routes_first (topic key : String) (payloads : List (List UInt8)) :
    Routes b view (b, .ok ⟨topic, key, 0, payloads⟩) :=
  ⟨rfl, h, by rintro _ ⟨⟩; exact (by decide : 0 < defaultTopicPartitions)⟩

theorem routes_keyJob (topic key : String) (payload : List UInt8) :
    Routes b view (keyJob b topic key payload) := by
  obtain ⟨hlt, hcap, hshows⟩ := h.routeKey topic key
  exact ⟨hcap, hshows, by rintro _ ⟨⟩; exact hlt⟩

/-- **Every request settles on a partition there is, or is refused.** -/
theorem PublishRequest.route_spec (now : Time) (r : PublishRequest) :
    Routes b view (r.route now b) := by
  cases r with
  | publish topic key partition payload =>
    simp only [PublishRequest.route]
    split
    · exact routes_refused h _
    · split
      · rename_i hnonneg
        obtain ⟨hshows, hcap, hcount⟩ := h.ensureTopic topic
        rw [hcount]
        split
        · exact ⟨hcap, hshows, by rintro _ ⟨⟩⟩
        · rename_i hlt
          refine ⟨hcap, hshows, ?_⟩
          rintro _ ⟨⟩
          dsimp only
          have hpos : (0 : ℤ) ≤ partition.toInt := Int32.le_iff_toInt_le.mp hnonneg
          omega
      · exact routes_keyJob h topic key payload
  | publishAgent event =>
    cases event with
    | none => exact routes_refused h _
    | some ev =>
      simp only [PublishRequest.route]
      split
      · exact routes_refused h _
      · exact routes_keyJob h _ _ _
  | publishEnvelope topic env =>
    simp only [PublishRequest.route]
    split
    · exact routes_refused h _
    · exact routes_keyJob h _ _ _
  | tcpPublish topic payload =>
    simp only [PublishRequest.route]
    split
    · exact routes_refused h _
    · exact routes_first h _ _ _
  | tcpPublishWithKey topic key payload =>
    simp only [PublishRequest.route]
    split
    · exact routes_refused h _
    · exact routes_keyJob h _ _ _
  | tcpBatchPublish topic payloads =>
    simp only [PublishRequest.route]
    split
    · exact routes_refused h _
    · split
      · exact routes_refused h _
      · exact routes_first h _ _ _

end

/-! ## What a step can do -/

/-- What a handler knows of the record it has appended. -/
structure Job.Writes (job : Job) (payload : List UInt8) (r : Wal.Record) : Prop where
  topic : r.topic = stringBytes job.topic
  key : r.key = stringBytes job.key
  partition : r.partition = Int32.ofNat job.partition
  payload : r.payload = payload

theorem Job.stamped_record (job : Job) (now : Time) (payload : List UInt8) (stamp : Int64) :
    job.Writes payload ((job.record now payload).stamped stamp) := by
  unfold Wal.Record.stamped
  split <;> exact ⟨rfl, rfl, rfl, rfl⟩

/-- What one step of a handler does to a server whose partitions show `view`. -/
inductive Handler.Does (sum : List UInt8 → UInt32) (view : String → ℕ → List (List UInt8))
    (n : Node) : Handler → Node → Handler → Prop
  | refuses (r : PublishRequest) (b : Broker (List UInt8)) (answer : Answer)
      (capacity : b.capacity = n.server.broker.capacity) (shows : b.ShowsAll view) :
      Does sum view n (.start r) { n with server := { n.server with broker := b } }
        (.done r answer)
  | routes (r : PublishRequest) (b : Broker (List UInt8)) (job : Job)
      (capacity : b.capacity = n.server.broker.capacity) (shows : b.ShowsAll view)
      (partition : job.partition < defaultTopicPartitions) :
      Does sum view n (.start r) { n with server := { n.server with broker := b } }
        (.logging r job [])
  | answers (r : PublishRequest) (job : Job) (offsets : List ℤ) (payloads : job.payloads = []) :
      Does sum view n (.logging r job offsets) n (.done r (r.answer job.partition offsets))
  | fails (r : PublishRequest) (job : Job) (offsets : List ℤ) :
      Does sum view n (.logging r job offsets) n (.done r .walAppend)
  | logs (r : PublishRequest) (job : Job) (offsets : List ℤ) (payload : List UInt8)
      (rest : List (List UInt8)) (record : Wal.Record) (payloads : job.payloads = payload :: rest)
      (writes : job.Writes payload record) (fits : Wal.Fits record) :
      Does sum view n (.logging r job offsets)
        { n with
          server := { n.server with wal := n.server.wal ++ Wal.encode sum record }
          logged := n.logged ++ [record] }
        (.publishing r { job with payloads := rest } record offsets)
  | publishes (r : PublishRequest) (job : Job) (record : Wal.Record) (offsets : List ℤ)
      (b : Broker (List UInt8)) (offset : ℤ) (capacity : b.capacity = n.server.broker.capacity)
      (shows : b.ShowsAll (Function.update view job.topic
        (Function.update (view job.topic) job.partition
          (view job.topic job.partition ++ [record.payload])))) :
      Does sum view n (.publishing r job record offsets)
        { n with
          server := { n.server with broker := b }
          published := n.published ++ [record] }
        (.logging r job (offsets ++ [offset]))

variable {sum : List UInt8 → UInt32} {n n' : Node} {t t' : Handler} {capacity : ℕ}

/-- **What a step of a handler does.** -/
theorem Handler.step_spec {view : String → ℕ → List (List UInt8)} {l : HandlerChoice}
    (h : n.server.broker.ShowsAll view) (ht : t.Sound) (hstep : t.step sum n l = some (n', t')) :
    Handler.Does sum view n t n' t' := by
  unfold Handler.step at hstep
  split at hstep
  · -- The request is routed.
    rename_i r now
    obtain ⟨hcap, hshows, hlt⟩ := PublishRequest.route_spec h now r
    simp only at hstep
    split at hstep
    · cases hstep
      exact .refuses r _ _ hcap hshows
    · rename_i job hjob
      cases hstep
      exact .routes r _ job hcap hshows (hlt job hjob)
  · -- A record is appended.
    rename_i r job offsets now
    split at hstep
    · rename_i hpayloads
      cases hstep
      exact .answers r job offsets hpayloads
    · rename_i payload rest hpayloads
      split at hstep
      · cases hstep
        exact .fails r job offsets
      · rename_i bs hbs
        obtain ⟨hfits, rfl⟩ := Wal.appendRecord_eq_ok hbs
        cases hstep
        exact .logs r job offsets payload rest _ hpayloads (job.stamped_record now payload _) hfits
  · rename_i r job offsets
    cases hstep
    exact .fails r job offsets
  · -- A payload is published.
    rename_i r job record offsets now
    obtain ⟨hoff, hcap, hshows⟩ := h.publishToPartition job.topic ht.1 record.payload
    simp only [hoff] at hstep
    cases hstep
    exact .publishes r job record offsets _ _ hcap hshows
  · cases hstep

/-- The record of a job goes to a partition there is. -/
theorem Job.Writes.routed {job : Job} {payload : List UInt8} {r : Wal.Record}
    (h : job.Writes payload r) (hfits : Wal.Fits r)
    (hlt : job.partition < defaultTopicPartitions) : Routed r :=
  ⟨job.topic, hfits, h.topic, job.partition, hlt, h.partition⟩

/-- A handler that is about to log or publish does so for a partition there is. -/
theorem Handler.Does.sound {view : String → ℕ → List (List UInt8)}
    (h : Handler.Does sum view n t n' t') (ht : t.Sound) : t'.Sound := by
  cases h with
  | refuses => trivial
  | routes r b job hcap hshows hlt => exact hlt
  | answers => trivial
  | fails => trivial
  | logs r job offsets payload rest record hpayloads hwrites hfits =>
    exact ⟨ht, hwrites.topic, hwrites.partition⟩
  | publishes r job record offsets b offset hcap hshows => exact ht.1

/-! ## Publishing in the order of the log -/

/-- What a step of a handler does to what was logged and published. -/
structure Keeps (sum : List UInt8 → UInt32) (capacity : ℕ) (n : Node) (t : Handler) (n' : Node)
    (t' : Handler) : Prop where
  node : n'.Sound sum capacity
  handler : t'.Sound
  balance : ∃ a b, n'.logged = n.logged ++ a ∧ n'.published = n.published ++ b ∧
    (t.pending ++ a).Perm (b ++ t'.pending)

/-- A step that neither logs nor publishes. -/
theorem Keeps.still {b : Broker (List UInt8)} (h : n.Sound sum capacity)
    (hcap : b.capacity = n.server.broker.capacity) (hshows : b.ShowsAll (payloads n.published))
    (ht' : t'.Sound) (hpending : t.pending = []) (hpending' : t'.pending = []) :
    Keeps sum capacity n t { n with server := { n.server with broker := b } } t' :=
  ⟨⟨hcap.trans h.capacity, h.wal, h.routed, hshows, h.order⟩, ht', [], [], by simp, by simp,
    by simp [hpending, hpending']⟩

/-- **A step of a handler in the order of the log.** -/
theorem Handler.Sound.step {l : HandlerChoice} (hn : n.Sound sum capacity) (ht : t.Sound)
    (hguard : inWalOrder.thread n t l) (hstep : t.step sum n l = some (n', t')) :
    Keeps sum capacity n t n' t' := by
  have hdoes := Handler.step_spec hn.shows ht hstep
  have ht' := hdoes.sound ht
  cases hdoes with
  | refuses r b answer hcap hshows => exact .still hn hcap hshows ht' rfl rfl
  | routes r b job hcap hshows hlt => exact .still hn hcap hshows ht' rfl rfl
  | answers r job offsets hpayloads => exact .still hn rfl hn.shows ht' rfl rfl
  | fails r job offsets => exact .still hn rfl hn.shows ht' rfl rfl
  | logs r job offsets payload rest record hpayloads hwrites hfits =>
    refine ⟨⟨hn.capacity, ?_, ?_, hn.shows, hn.order.issue _⟩, ht', [_], [], rfl,
      (List.append_nil _).symm, .refl _⟩
    · simp [hn.wal, encodeAll]
    · intro r' hr'
      rcases List.mem_append.mp hr' with hr' | hr'
      · exact hn.routed r' hr'
      · rw [List.mem_singleton.mp hr']
        exact hwrites.routed hfits ht
  | publishes r job record offsets b offset hcap hshows =>
    obtain ⟨hlt, htopic, hpart⟩ := ht
    refine ⟨⟨hcap.trans hn.capacity, hn.wal, hn.routed, ?_, hn.order.settle hguard⟩, ht', [],
      [record], (List.append_nil _).symm, rfl, .refl _⟩
    exact hshows.congr fun t q hq => (payloads_concat n.published htopic hlt hpart t hq).symm

/-- **The invariant of the runs that publish in the order of the log.** -/
theorem handlers_sound {opts : Wal.ReplayOptions} {rs : List Wal.Record} (hrs : ∀ r ∈ rs, Routed r)
    {n₀ : Node} (hn₀ : Node.opened sum opts capacity rs = some n₀) {w : World Node Handler}
    (h : (handlers sum).Reach inWalOrder n₀ w) :
    Holds (Node.Sound sum capacity) (fun _ t => t.Sound) (fun _ _ => True) w := by
  refine Program.Reach.local_invariant (fun _ _ _ => trivial) ?_ ?_ ?_ ?_ h
  · obtain ⟨b, hb, hcap, hshows⟩ := restore_showsAll sum opts capacity hrs
    rw [Node.opened, hb] at hn₀
    cases hn₀
    exact ⟨hcap, rfl, hrs, hshows, .refl _ _⟩
  · exact fun _ _ _ => ⟨trivial, fun _ _ => trivial⟩
  · intro n t l n' t' hn ht hguard hstep
    have hkeeps := Handler.Sound.step hn ht hguard hstep
    exact ⟨⟨hkeeps.node, hkeeps.handler⟩, fun _ hu _ => ⟨hu, trivial⟩⟩
  · intro _ e
    exact e.elim

/-- Whether a handler has answered that the payloads are published. -/
def Handler.succeeded : Handler → Bool
  | .done _ (.response _ _) => true
  | .done _ (.ack _) => true
  | .done _ (.batchAck _ _ _) => true
  | _ => false

/-- **Offsets survive a restart.**  From a process that was started on the records of any file, in
every run whose publishes take the next record of their partition, once all handlers have succeeded
a restart on the log succeeds, and every fetch answers as before it. -/
theorem restart_keeps_offsets (sum : List UInt8 → UInt32) (opts : Wal.ReplayOptions) (capacity : ℕ)
    (rs : List Wal.Record) (hrs : ∀ r ∈ rs, Routed r) (n₀ : Node)
    (hn₀ : Node.opened sum opts capacity rs = some n₀) (w : World Node Handler)
    (h : (handlers sum).Reach inWalOrder n₀ w) (hdone : ∀ t ∈ w.threads, t.succeeded = true) :
    ∃ b, restore sum opts capacity w.shared.server.wal = some b ∧
      ∀ topic p offset maxCount, 0 ≤ maxCount →
        b.fetchPartition topic p offset maxCount =
          w.shared.server.broker.fetchPartition topic p offset maxCount := by
  have hn := (handlers_sound hrs hn₀ h).shared
  have hbalance : w.shared.logged.Perm
      (w.shared.published ++ w.threads.flatMap Handler.pending) := by
    refine Program.Reach.balance Node.logged Node.published Handler.pending
      (fun w hw => handlers_sound hrs hn₀ hw) ?_ (fun _ => rfl) ?_ (fun _ e => e.elim) h
    · rw [Node.opened] at hn₀
      obtain ⟨b, -, rfl⟩ := Option.map_eq_some_iff.mp hn₀
      exact .refl _
    · intro n t l n' t' hn ht hguard hstep
      exact (Handler.Sound.step hn ht hguard hstep).balance
  -- Nothing is pending, so what was published is what was logged, partition by partition.
  have hnone : w.threads.flatMap Handler.pending = [] := by
    refine List.flatMap_eq_nil_iff.mpr fun t ht => ?_
    have hsucceeded := hdone t ht
    cases t <;> first | rfl | cases hsucceeded
  rw [hnone, List.append_nil] at hbalance
  have hpayloads : payloads w.shared.published = payloads w.shared.logged := by
    funext topic p
    rw [payloads, payloads, hn.order.filter_eq hbalance]
  obtain ⟨b, hb, hcap, hshows⟩ := restore_showsAll sum opts capacity hn.routed
  refine ⟨b, by rw [hn.wal, hb], fun topic p offset maxCount hmax => ?_⟩
  rw [← hpayloads] at hshows
  exact hn.shows.fetchPartition_eq hshows (hcap.trans hn.capacity.symm) topic p offset hmax

/-! ## Two handlers and one partition -/

/-- Two publishes to a topic, both of which have appended their records. -/
def bothLogged : List (Act PublishRequest HandlerChoice Empty) :=
  [.spawn (.tcpPublish "t" [1]), .spawn (.tcpPublish "t" [2]), .run 0 (.go 0), .run 1 (.go 0),
    .run 0 (.go 0), .run 1 (.go 0)]

instance (n : Node) (t : Handler) (l : HandlerChoice) : Decidable (inWalOrder.thread n t l) := by
  unfold inWalOrder
  dsimp only
  split <;> infer_instance

instance (n : Node) (e : Empty) : Decidable (inWalOrder.env n e) :=
  inferInstanceAs (Decidable True)

/-- The process on an empty log. -/
def emptyNode (capacity : ℕ) : Node := ⟨⟨[], Broker.new capacity⟩, [], []⟩

@[simp] theorem opened_nil (sum : List UInt8 → UInt32) (opts : Wal.ReplayOptions) (capacity : ℕ) :
    Node.opened sum opts capacity [] = some (emptyNode capacity) := by
  have hreplay : Wal.replay sum opts (encodeAll (Wal.encode sum) []) = ([], none) :=
    Wal.replay_encodeAll sum opts (by simp)
  simp only [Node.opened, restore, hreplay]
  rfl

/-- Published in the order of the log: after a restart every message is where it was. -/
theorem restart_in_order :
    ∃ w, (handlers Wal.crc32c).Reach inWalOrder (emptyNode 4) w ∧
      w.shared.server.broker.fetchPartition "t" 0 0 10 = some [⟨0, [1]⟩, ⟨1, [2]⟩] ∧
      ∃ b, restore Wal.crc32c ⟨false⟩ 4 w.shared.server.wal = some b ∧
        ∀ topic p offset maxCount, 0 ≤ maxCount →
          b.fetchPartition topic p offset maxCount =
            w.shared.server.broker.fetchPartition topic p offset maxCount := by
  have hrun : ((handlers Wal.crc32c).execWithin inWalOrder ⟨emptyNode 4, []⟩
      (bothLogged.append [.run 0 (.go 0), .run 1 (.go 0), .run 1 (.go 0), .run 0 (.go 0)])).map
      (fun w => (w.threads.all Handler.succeeded,
        w.shared.server.broker.fetchPartition "t" 0 0 10)) =
      some (true, some [⟨0, [1]⟩, ⟨1, [2]⟩]) := by
    decide +kernel
  obtain ⟨w, hreach, heq⟩ := Program.exists_reach_within hrun
  rw [Prod.mk.injEq, List.all_eq_true] at heq
  exact ⟨w, hreach, heq.2, restart_keeps_offsets Wal.crc32c ⟨false⟩ 4 [] (by simp) (emptyNode 4)
    (opened_nil _ _ _) w hreach heq.1⟩

/-- **A restart that exchanges two messages.**  The second handler publishes first: its payload is
at offset 0, and after the restart at offset 1. -/
theorem restart_reorders :
    ∃ w, (handlers Wal.crc32c).Reach Guard.all (emptyNode 4) w ∧
      (∀ t ∈ w.threads, t.succeeded = true) ∧
      w.shared.server.broker.fetchPartition "t" 0 0 10 = some [⟨0, [2]⟩, ⟨1, [1]⟩] ∧
      ((restore Wal.crc32c ⟨false⟩ 4 w.shared.server.wal).bind fun b =>
        b.fetchPartition "t" 0 0 10) = some [⟨0, [1]⟩, ⟨1, [2]⟩] := by
  have hrun : ((handlers Wal.crc32c).exec ⟨emptyNode 4, []⟩
      (bothLogged.append [.run 1 (.go 0), .run 0 (.go 0), .run 1 (.go 0), .run 0 (.go 0)])).map
      (fun w => (w.threads.all Handler.succeeded,
        w.shared.server.broker.fetchPartition "t" 0 0 10,
        (restore Wal.crc32c ⟨false⟩ 4 w.shared.server.wal).bind fun b =>
          b.fetchPartition "t" 0 0 10)) =
      some (true, some [⟨0, [2]⟩, ⟨1, [1]⟩], some [⟨0, [1]⟩, ⟨1, [2]⟩]) := by
    set_option synthInstance.maxSize 256 in decide +kernel
  obtain ⟨w, hw, heq⟩ := Program.exists_reach hrun
  rw [Prod.mk.injEq, Prod.mk.injEq, List.all_eq_true] at heq
  exact ⟨w, hw, heq⟩

end AgentBus.Grpcapi
