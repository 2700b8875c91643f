import AgentBus.Cluster.Shard
import AgentBus.Grpcapi.Handlers

/-!
# Publishing on the leader of a shard

`PublishAgent` and `PublishEnvelope` in cluster mode (`internal/grpcapi/server.go`, with the
adapters of `cmd/broker/main.go` and `internal/cluster/router`): the node checks that it leads the
shard of the session, and `appendDurable` then writes the envelope three times, to the shard's log,
to the write-ahead log and to the topic, with a wait for a quorum after the first.

Nothing undoes the first write when a later step fails, and nothing keeps two calls from passing
each other between the steps; either way the shard's log and the topic part
(`shard_log_and_topic_part`).  If every call succeeds or is refused before its first write, and
the calls of a session publish in the order of the shard's log, the two agree session by session
(`session_logs_agree`).

The rate limit, the leadership and the quorum are choices of the environment.  After the wait the
call is a handler of `AgentBus.Grpcapi.Handlers`.

## Main definitions

* `SessionRequest`, `SessionRequest.check` — the requests, and the checks before `appendDurable`.
* `Call`, `Leader`, `Call.step`, `shardCalls` — the program.
* `Call.Does`, `Call.step_spec` — what a step can do.
* `inShardOrder` — the condition on the order.
* `Leader.Agrees` — the two logs agree.
-/

namespace AgentBus.Grpcapi

open AgentStream Broker Cluster Pool

/-- The requests that go to the shard of a session. -/
inductive SessionRequest where
  | publishAgent (event : Option AgentEvent)
  | publishEnvelope (topic : String) (env : Event)
  deriving DecidableEq

def SessionRequest.toPublish : SessionRequest → PublishRequest
  | .publishAgent event => .publishAgent event
  | .publishEnvelope topic env => .publishEnvelope topic env

/-- How a call fails. -/
inductive CallError where
  /-- The status `ResourceExhausted`. -/
  | throttled
  /-- The status `FailedPrecondition`, with a hint at the leader. -/
  | notLeader
  /-- shardwal append -/
  | shardAppend (err : ShardError)
  /-- quorum not reached -/
  | quorum
  /-- As on a single node. -/
  | node (answer : Answer)
  deriving DecidableEq, Repr

/-- `hashToShard`. -/
def hashToShard (key : String) (count : UInt32) : UInt32 := fnv32a (stringBytes key) % count

/-- The arguments of `appendDurable`. -/
structure Admitted where
  topic : String
  key : String
  shard : UInt32
  encoded : List UInt8

/-- `RouteSession`, for the key of the session: its shard, if this node leads it. -/
def routeSession (count : UInt32) (leads : Bool) (key : String) : Except CallError UInt32 :=
  if count = 0 then .error .notLeader
  else if leads then .ok (hashToShard key count)
  else .error .notLeader

/-- The shard of an agent event; a session that is not named is not routed. -/
def AgentEvent.shard (count : UInt32) (leads : Bool) (ev : AgentEvent) : Except CallError UInt32 :=
  if ev.tenant ≠ "" ∧ ev.project ≠ "" ∧ ev.sessionID ≠ "" then routeSession count leads ev.key
  else .ok 0

/-- What a call does before `appendDurable`; `leads` is whether the node leads the shard. -/
def SessionRequest.check (count : UInt32) (leads : Bool) (now : Time) :
    SessionRequest → Except CallError Admitted
  | .publishAgent none => .error (.node (.invalidArgument "event is required"))
  | .publishAgent (some ev) =>
    match ev.shard count leads with
    | .error err => .error err
    | .ok sid =>
      match ev.marshal now with
      | .error msg => .error (.node (.invalidArgument ("invalid agent event: " ++ msg)))
      | .ok encoded => .ok ⟨agentEventsTopic, ev.key, sid, encoded⟩
  | .publishEnvelope topic env =>
    match env.marshal now with
    | .error msg => .error (.node (.invalidArgument ("invalid envelope: " ++ msg)))
    | .ok encoded =>
      match routeSession count leads env.key with
      | .error err => .error err
      | .ok sid => .ok ⟨topic, env.key, sid, encoded⟩

/-- An event in a shard's log or in a topic. -/
structure Entry where
  topic : String
  key : String
  payload : List UInt8
  deriving DecidableEq, Repr

/-- The event of a payload. -/
def Job.entry (job : Job) (payload : List UInt8) : Entry := ⟨job.topic, job.key, payload⟩

/-- The events a job is still to publish. -/
def Job.entries (job : Job) : List Entry := job.payloads.map job.entry

/-- The events a handler is still to publish. -/
def Handler.entries : Handler → List Entry
  | .logging _ job _ => job.entries
  | .publishing _ job record _ => job.entry record.payload :: job.entries
  | _ => []

/-- The event a step of a handler publishes, if any. -/
def Handler.shows : Handler → Handler → List Entry
  | .publishing _ job record _, .logging _ _ _ => [job.entry record.payload]
  | _, _ => []

/-- A call between two of its steps. -/
inductive Call where
  | start (r : SessionRequest)
  /-- In `Append` of the shard. -/
  | sharding (r : SessionRequest) (sid : UInt32) (job : Job) (a : Appending)
  /-- In `WaitQuorum`. -/
  | awaiting (r : SessionRequest) (job : Job)
  /-- Writing as on a single node; it has returned when the handler is done. -/
  | writing (h : Handler)
  /-- Has failed before anything was written. -/
  | refused (r : SessionRequest) (err : CallError)
  /-- Has failed with these events in the shard's log and not in the topic. -/
  | abandoned (lost : List Entry) (err : CallError)
  deriving DecidableEq

/-- The leader: the server, its logs of the shards, and the events in the order they were put into
a shard's log and into a topic. -/
structure Leader where
  node : Node
  shards : UInt32 → Shard
  appended : List Entry
  shown : List Entry

/-- What resolves a step. -/
inductive CallChoice where
  /-- The time, and whether the node leads the shard. -/
  | go (now : Time) (leads : Bool)
  /-- The rate limit of the tenant is exceeded. -/
  | throttle
  /-- What the system does with the calls of an `Append`. -/
  | disk (d : Disk)
  /-- The log of the shard cannot be opened. -/
  | shardError
  /-- `Append` has returned. -/
  | next
  /-- `WaitQuorum` returns. -/
  | quorum (reached : Bool)
  /-- A step as on a single node. -/
  | node (l : HandlerChoice)
  deriving DecidableEq, Repr

/-- What becomes of a call when its `Append` goes from `a` to `a'`, and `grew` is whether the log
did. -/
def Call.append (r : SessionRequest) (sid : UInt32) (job : Job) (grew : Bool) :
    Appending → Appending → Call
  | .writing _, .failed err =>
    if grew then .abandoned job.entries (.shardAppend err) else .refused r (.shardAppend err)
  | _, .failed err => .abandoned job.entries (.shardAppend err)
  | _, a' => .sharding r sid job a'

/-- What becomes of a call when its handler goes from `h` to `h'`. -/
def Call.write (h : Handler) : Handler → Call
  | .done _ .walAppend => .abandoned h.entries (.node .walAppend)
  | .done _ .publishFailed => .abandoned h.entries (.node .publishFailed)
  | h' => .writing h'

/-- One step of a call, on a cluster of `count` shards. -/
def Call.step (sum : List UInt8 → UInt32) (count : UInt32) (s : Leader) :
    Call → CallChoice → Option (Leader × Call)
  | .start (.publishAgent event), .throttle => some (s, .refused (.publishAgent event) .throttled)
  | .start r, .go now leads =>
    match r.check count leads now with
    | .error err => some (s, .refused r err)
    | .ok adm =>
      let q := s.node.server.broker.routeKey adm.topic adm.key
      some ({ s with node := { s.node with server := { s.node.server with broker := q.1 } } },
        .sharding r adm.shard ⟨adm.topic, adm.key, q.2, [adm.encoded]⟩ (.writing adm.encoded))
  | .sharding r _ _ (.writing _), .shardError => some (s, .refused r (.shardAppend .io))
  | .sharding r sid job a, .disk d =>
    (a.step (s.shards sid) d).map fun q =>
      let grew := decide ((s.shards sid).tail < q.1.tail)
      ({ s with
          shards := Function.update s.shards sid q.1
          appended := if grew then s.appended ++ job.entries else s.appended },
        .append r sid job grew a q.2)
  | .sharding r _ job (.returned _), .next => some (s, .awaiting r job)
  | .awaiting r job, .quorum true => some (s, .writing (.logging r.toPublish job []))
  | .awaiting _ job, .quorum false => some (s, .abandoned job.entries .quorum)
  | .writing h, .node l =>
    (h.step sum s.node l).map fun q =>
      ({ s with node := q.1, shown := s.shown ++ h.shows q.2 }, .write h q.2)
  | _, _ => none

/-- The calls as a program. -/
def shardCalls (sum : List UInt8 → UInt32) (count : UInt32) :
    Program Leader Call SessionRequest CallChoice Empty where
  entry := .start
  thread s t l := t.step sum count s l
  env _ e := e.elim

/-- A leader that has opened files of these records. -/
def Leader.opened (n : Node) (files : UInt32 → List Payload) : Leader :=
  ⟨n, fun sid => Shard.opened (files sid), [], []⟩

/-- The session of an event, in its topic. -/
def Entry.session (e : Entry) : String × String := (e.topic, e.key)

/-- A publish takes the next event of its session in the shard's log. -/
def inShardOrder : Guard Leader Call CallChoice Empty where
  thread s t _ :=
    match t with
    | .writing (.publishing _ job record _) =>
      ((s.shown ++ [job.entry record.payload]).filter fun e =>
          e.session = (job.entry record.payload).session) <+:
        s.appended.filter fun e => e.session = (job.entry record.payload).session
    | _ => True
  env _ _ := True

/-! ## What is known of a call -/

/-- The payloads of the events for partition `p` of a topic. -/
def entriesOf (es : List Entry) (topic : String) (p : ℕ) : List (List UInt8) :=
  (es.filter fun e => e.topic = topic ∧ keyPartition defaultTopicPartitions e.key = p).map
    Entry.payload

/-- The payloads of the events for a shard. -/
def shardOf (count : UInt32) (es : List Entry) (sid : UInt32) : List (List UInt8) :=
  (es.filter fun e => hashToShard e.key count = sid).map Entry.payload

/-- The job is for the partition of its key. -/
def Job.Keyed (job : Job) : Prop :=
  job.partition = keyPartition defaultTopicPartitions job.key

theorem Job.Keyed.lt {job : Job} (h : job.Keyed) : job.partition < defaultTopicPartitions :=
  h ▸ keyPartition_lt (by decide) job.key

/-- What is known of the handler of a call. -/
def Handler.Keyed : Handler → Prop
  | .logging _ job _ => job.Keyed
  | .publishing _ job _ _ => job.Keyed
  | .start _ => False
  | .done _ _ => True

/-- What is known of a call. -/
def Call.Sound (count : UInt32) : Call → Prop
  | .sharding _ sid job a => job.Keyed ∧ sid = hashToShard job.key count ∧
      ∀ payload, a = .writing payload → job.payloads = [payload]
  | .awaiting _ job => job.Keyed
  | .writing h => h.Sound ∧ h.Keyed
  | _ => True

/-- The events of a call that are in the shard's log and not in the topic. -/
def Call.pending : Call → List Entry
  | .sharding _ _ _ (.writing _) => []
  | .sharding _ _ job _ => job.entries
  | .awaiting _ job => job.entries
  | .writing h => h.entries
  | .abandoned lost _ => lost
  | _ => []

/-- What is known of the leader. -/
structure Leader.Sound (count : UInt32) (files : UInt32 → List Payload)
    (view : String → ℕ → List (List UInt8)) (s : Leader) : Prop where
  shardLog : ∀ sid, (s.shards sid).records = files sid ++ shardOf count s.appended sid
  topic : s.node.server.broker.ShowsAll fun topic p => view topic p ++ entriesOf s.shown topic p
  order : InOrder Entry.session s.appended s.shown

/-- What a step of a call does. -/
structure Call.Keeps (count : UInt32) (files : UInt32 → List Payload)
    (view : String → ℕ → List (List UInt8)) (s : Leader) (t : Call) (s' : Leader) (t' : Call) :
    Prop where
  leader : s'.Sound count files view
  call : t'.Sound count
  balance : ∃ a b, s'.appended = s.appended ++ a ∧ s'.shown = s.shown ++ b ∧
    (t.pending ++ a).Perm (b ++ t'.pending)

/-! ## Admission -/

theorem AgentEvent.named_of_marshal {ev : AgentEvent} {now : Time} {bs : List UInt8}
    (h : ev.marshal now = .ok bs) : ev.tenant ≠ "" ∧ ev.project ≠ "" ∧ ev.sessionID ≠ "" := by
  obtain ⟨payload, henv⟩ : ∃ payload, (ev.envelope payload).marshal now = .ok bs := by
    unfold AgentEvent.marshal at h
    split at h
    · exact ⟨_, h⟩
    · split at h
      · exact ⟨_, h⟩
      · split at h <;> cases h
  have hattempt : (ev.envelope payload).attempt = 0 := rfl
  obtain ⟨hvalid, -⟩ := parseEvent_marshal_withDefaults (by rw [hattempt]; decide)
    (by rw [hattempt]; decide) henv
  obtain ⟨-, htenant, hproject, hsession, -⟩ := Event.validate_eq_ok hvalid
  exact ⟨ne_empty_of_trimSpace htenant, ne_empty_of_trimSpace hproject,
    ne_empty_of_trimSpace hsession⟩

variable {count : UInt32}

theorem routeSession_eq_ok {leads : Bool} {key : String} {sid : UInt32}
    (h : routeSession count leads key = .ok sid) : sid = hashToShard key count := by
  unfold routeSession at h
  split at h
  · cases h
  · split at h
    · exact (Except.ok.inj h).symm
    · cases h

/-- What is admitted goes to the shard of its session, under the key of the session. -/
theorem SessionRequest.check_eq_ok {leads : Bool} {now : Time} {r : SessionRequest} {adm : Admitted}
    (h : r.check count leads now = .ok adm) :
    adm.shard = hashToShard adm.key count ∧ adm.key ≠ "" := by
  cases r with
  | publishAgent event =>
    cases event with
    | none => cases h
    | some ev =>
      simp only [SessionRequest.check] at h
      split at h
      · cases h
      · rename_i sid hsid
        split at h
        · cases h
        · rename_i encoded hencoded
          cases h
          refine ⟨?_, sessionKey_ne _ _ _⟩
          rw [AgentEvent.shard, if_pos (AgentEvent.named_of_marshal hencoded)] at hsid
          exact routeSession_eq_ok hsid
  | publishEnvelope topic env =>
    simp only [SessionRequest.check] at h
    split at h
    · cases h
    · split at h
      · cases h
      · rename_i sid hsid
        cases h
        exact ⟨routeSession_eq_ok hsid, sessionKey_ne _ _ _⟩

/-! ## What a step can do -/

/-- What one step of a call does. -/
inductive Call.Does (sum : List UInt8 → UInt32) (count : UInt32) (s : Leader) :
    Call → Leader → Call → Prop
  | refuses (r : SessionRequest) (err : CallError) : Does sum count s (.start r) s (.refused r err)
  | routes (r : SessionRequest) (adm : Admitted) (q : Broker (List UInt8) × ℕ)
      (route : q = s.node.server.broker.routeKey adm.topic adm.key)
      (shard : adm.shard = hashToShard adm.key count) (key : adm.key ≠ "") :
      Does sum count s (.start r)
        { s with node := { s.node with server := { s.node.server with broker := q.1 } } }
        (.sharding r adm.shard ⟨adm.topic, adm.key, q.2, [adm.encoded]⟩ (.writing adm.encoded))
  | unopened (r : SessionRequest) (sid : UInt32) (job : Job) (payload : Payload)
      (err : CallError) :
      Does sum count s (.sharding r sid job (.writing payload)) s (.refused r err)
  | appends (r : SessionRequest) (sid : UInt32) (job : Job) (a a' : Appending) (sh : Shard)
      (d : Disk) (grew : Bool) (step : a.step (s.shards sid) d = some (sh, a'))
      (grows : grew = decide ((s.shards sid).tail < sh.tail)) :
      Does sum count s (.sharding r sid job a)
        { s with
          shards := Function.update s.shards sid sh
          appended := if grew then s.appended ++ job.entries else s.appended }
        (.append r sid job grew a a')
  | returns (r : SessionRequest) (sid : UInt32) (job : Job) (off : ℕ) :
      Does sum count s (.sharding r sid job (.returned off)) s (.awaiting r job)
  | reaches (r : SessionRequest) (job : Job) :
      Does sum count s (.awaiting r job) s (.writing (.logging r.toPublish job []))
  | misses (r : SessionRequest) (job : Job) :
      Does sum count s (.awaiting r job) s (.abandoned job.entries .quorum)
  | writes (h h' : Handler) (n : Node) (l : HandlerChoice)
      (step : h.step sum s.node l = some (n, h')) :
      Does sum count s (.writing h) { s with node := n, shown := s.shown ++ h.shows h' }
        (.write h h')

/-- **What a step of a call does.** -/
theorem Call.step_spec {sum : List UInt8 → UInt32} {s s' : Leader} {t t' : Call} {l : CallChoice}
    (hstep : t.step sum count s l = some (s', t')) : Call.Does sum count s t s' t' := by
  unfold Call.step at hstep
  split at hstep
  · cases hstep
    exact .refuses _ _
  · split at hstep
    · cases hstep
      exact .refuses _ _
    · rename_i adm hadm
      obtain ⟨hshard, hkey⟩ := SessionRequest.check_eq_ok hadm
      cases hstep
      exact .routes _ adm _ rfl hshard hkey
  · cases hstep
    exact .unopened _ _ _ _ _
  · obtain ⟨⟨sh, a'⟩, hrun, heq⟩ := Option.map_eq_some_iff.mp hstep
    cases heq
    exact .appends _ _ _ _ a' sh _ _ hrun rfl
  · cases hstep
    exact .returns _ _ _ _
  · cases hstep
    exact .reaches _ _
  · cases hstep
    exact .misses _ _
  · obtain ⟨⟨n, h'⟩, hrun, heq⟩ := Option.map_eq_some_iff.mp hstep
    cases heq
    exact .writes _ h' n _ hrun
  · cases hstep

/-- A call whose `Append` goes on is refused as long as the log did not grow, is abandoned, or goes
on with it. -/
theorem Call.append_cases (r : SessionRequest) (sid : UInt32) (job : Job) (grew : Bool)
    (a a' : Appending) :
    (grew = false ∧ (∃ payload, a = .writing payload) ∧
        ∃ err, Call.append r sid job grew a a' = .refused r (.shardAppend err)) ∨
      (∃ err, Call.append r sid job grew a a' = .abandoned job.entries (.shardAppend err)) ∨
      Call.append r sid job grew a a' = .sharding r sid job a' := by
  unfold Call.append
  split
  · rename_i payload err
    cases grew with
    | false => exact .inl ⟨rfl, ⟨payload, rfl⟩, err, rfl⟩
    | true => exact .inr (.inl ⟨err, rfl⟩)
  · exact .inr (.inl ⟨_, rfl⟩)
  · exact .inr (.inr rfl)

/-- A call whose handler goes on is abandoned, or goes on with it. -/
theorem Call.write_cases (h h' : Handler) :
    (∃ err, Call.write h h' = .abandoned h.entries err) ∨ Call.write h h' = .writing h' := by
  unfold Call.write
  split
  · exact .inl ⟨_, rfl⟩
  · exact .inl ⟨_, rfl⟩
  · exact .inr rfl

/-! ## What every step keeps -/

theorem shardOf_append (count : UInt32) (es es' : List Entry) (sid : UInt32) :
    shardOf count (es ++ es') sid = shardOf count es sid ++ shardOf count es' sid := by
  simp [shardOf]

theorem entriesOf_append (es es' : List Entry) (topic : String) (p : ℕ) :
    entriesOf (es ++ es') topic p = entriesOf es topic p ++ entriesOf es' topic p := by
  simp [entriesOf]

section Steps

variable {sum : List UInt8 → UInt32} {count : UInt32} {files : UInt32 → List Payload}
  {view : String → ℕ → List (List UInt8)} {s : Leader}

/-- A step that writes nothing. -/
theorem Call.Keeps.still {t t' : Call} {b : Broker (List UInt8)} (h : s.Sound count files view)
    (hshows : b.ShowsAll fun topic p => view topic p ++ entriesOf s.shown topic p)
    (ht' : t'.Sound count) (hpending : t'.pending = t.pending) :
    Call.Keeps count files view s t
      { s with node := { s.node with server := { s.node.server with broker := b } } } t' :=
  ⟨⟨h.shardLog, hshows, h.order⟩, ht', [], [], by simp, by simp, by simp [hpending]⟩

variable {sid : UInt32} {job : Job}

/-- The records of one shard after a step of its log. -/
theorem Leader.Sound.append {sh : Shard} (appended es : List Entry) (h : s.Sound count files view)
    (hes : ∀ e ∈ es, hashToShard e.key count = sid)
    (hrecords : sh.records = (s.shards sid).records ++ es.map Entry.payload)
    (happended : appended = s.appended ++ es) :
    Leader.Sound count files view
      { s with shards := Function.update s.shards sid sh, appended := appended } := by
  subst happended
  refine ⟨?_, h.topic, ?_⟩
  · intro sid'
    dsimp only
    by_cases hsid : sid' = sid
    · subst hsid
      have hall : shardOf count es sid' = es.map Entry.payload := by
        rw [shardOf, List.filter_eq_self.mpr (by simpa using hes)]
      rw [Function.update_self, hrecords, h.shardLog, shardOf_append, hall, List.append_assoc]
    · have hnone : shardOf count es sid' = [] := by
        rw [shardOf, List.filter_eq_nil_iff.mpr, List.map_nil]
        intro e he
        rw [hes e he]
        simpa using Ne.symm hsid
      rw [Function.update_of_ne hsid, h.shardLog, shardOf_append, hnone, List.append_nil]
  · exact h.order.issue es

/-- Once the record is in the log, its event is pending. -/
theorem Call.pending_append {r : SessionRequest} {grew : Bool} {a a' : Appending}
    (hgrew : grew = true ∨ ∀ payload, a ≠ .writing payload)
    (ha' : ∀ payload, a' ≠ .writing payload) :
    (Call.append r sid job grew a a').pending = job.entries := by
  rcases Call.append_cases r sid job grew a a' with
    ⟨hfalse, ⟨payload, hwriting⟩, -⟩ | ⟨err, heq⟩ | heq
  · rcases hgrew with htrue | hne
    · rw [hfalse] at htrue
      cases htrue
    · exact absurd hwriting (hne payload)
  · rw [heq]
    rfl
  · rw [heq]
    cases a' with
    | writing payload => exact absurd rfl (ha' payload)
    | _ => rfl

/-- A step of `Append` of the shard. -/
theorem Call.Keeps.append {r : SessionRequest} {a a' : Appending} {sh : Shard} {d : Disk}
    (h : s.Sound count files view) (ht : Call.Sound count (.sharding r sid job a))
    (hstep : a.step (s.shards sid) d = some (sh, a')) :
    let grew := decide ((s.shards sid).tail < sh.tail)
    Call.Keeps count files view s (.sharding r sid job a)
      { s with
        shards := Function.update s.shards sid sh
        appended := if grew then s.appended ++ job.entries else s.appended }
      (.append r sid job grew a a') := by
  obtain ⟨hkeyed, hsid, hpayload⟩ := ht
  obtain ⟨hwrote, hnot⟩ := Appending.step_records hstep
  have hsound : ∀ grew, (Call.append r sid job grew a a').Sound count := by
    intro grew
    rcases Call.append_cases r sid job grew a a' with ⟨-, -, err, heq⟩ | ⟨err, heq⟩ | heq
    · rw [heq]
      trivial
    · rw [heq]
      trivial
    · rw [heq]
      exact ⟨hkeyed, hsid, fun payload ha' => absurd ha' (hnot payload)⟩
  cases hwrote with
  | nothing hne hrecords =>
    have hgrew : ¬ (s.shards sid).tail < sh.tail := by simp [Shard.tail, hrecords]
    simp only [hgrew, decide_false, Bool.false_eq_true, if_false]
    refine ⟨h.append s.appended [] (by simp) (by simpa using hrecords) (by simp),
      hsound false, [], [], by simp, by simp, ?_⟩
    have hbefore : (Call.sharding r sid job a).pending = job.entries := by
      cases a with
      | writing payload => exact absurd rfl (hne payload)
      | _ => rfl
    rw [Call.pending_append (.inr hne) hnot, hbefore]
    simp
  | refused payload err hwriting hfailed hrecords =>
    subst hwriting
    subst hfailed
    have hgrew : ¬ (s.shards sid).tail < sh.tail := by simp [Shard.tail, hrecords]
    simp only [hgrew, decide_false, Bool.false_eq_true, if_false]
    exact ⟨h.append s.appended [] (by simp) (by simpa using hrecords) (by simp),
      hsound false, [], [], by simp, by simp, .refl _⟩
  | record payload hwriting hsize hrecords =>
    subst hwriting
    have hgrew : (s.shards sid).tail < sh.tail := by simp [Shard.tail, hrecords]
    have hentries : job.entries = [job.entry payload] := by
      rw [Job.entries, hpayload payload rfl, List.map_singleton]
    simp only [hgrew, decide_true, if_true]
    refine ⟨h.append _ job.entries ?_ ?_ rfl, hsound true, job.entries, [], rfl, by simp,
      ?_⟩
    · intro e he
      rw [hentries] at he
      rw [List.mem_singleton.mp he]
      exact hsid.symm
    · rw [hrecords, hentries]
      rfl
    · rw [Call.pending_append (.inl rfl) hnot]
      simp [Call.pending]

/-- What a publish does to the payloads a topic shows. -/
theorem entriesOf_concat (shown : List Entry) (hkeyed : job.Keyed) (payload : List UInt8)
    (topic : String) (p : ℕ) :
    view topic p ++ entriesOf (shown ++ [job.entry payload]) topic p =
      Function.update (fun topic p => view topic p ++ entriesOf shown topic p) job.topic
        (Function.update (fun p => view job.topic p ++ entriesOf shown job.topic p) job.partition
          (view job.topic job.partition ++ entriesOf shown job.topic job.partition ++ [payload]))
        topic p := by
  rw [entriesOf_append]
  by_cases htopic : topic = job.topic
  · subst htopic
    rw [Function.update_self]
    by_cases hp : p = job.partition
    · subst hp
      rw [Function.update_self, ← List.append_assoc]
      simp [entriesOf, Job.entry, show job.partition = _ from hkeyed]
    · have hne : keyPartition defaultTopicPartitions job.key ≠ p := by
        rw [← show job.partition = _ from hkeyed]
        exact Ne.symm hp
      rw [Function.update_of_ne hp]
      simp [entriesOf, Job.entry, hne]
  · rw [Function.update_of_ne htopic]
    simp [entriesOf, Job.entry, Ne.symm htopic]

/-- A job takes up its next payload. -/
theorem Job.entries_of_cons {payload : List UInt8} {rest : List (List UInt8)}
    (h : job.payloads = payload :: rest) :
    job.entries = job.entry payload :: Job.entries { job with payloads := rest } := by
  rw [Job.entries, h]
  rfl

/-- A step of a handler that does not publish. -/
theorem Leader.Sound.unshown {n : Node} (h : s.Sound count files view)
    (hbroker : n.server.broker = s.node.server.broker) :
    Leader.Sound count files view { s with node := n, shown := s.shown ++ [] } := by
  refine ⟨h.shardLog, ?_, ?_⟩
  · simpa only [List.append_nil, hbroker] using h.topic
  · simpa only [List.append_nil] using h.order

theorem PublishRequest.answer_ne (r : PublishRequest) (partition : ℕ) (offsets : List ℤ) :
    r.answer partition offsets ≠ .walAppend ∧ r.answer partition offsets ≠ .publishFailed := by
  cases r <;> exact ⟨nofun, nofun⟩

/-- A step as on a single node, in the order of the shard's log. -/
theorem Call.Keeps.write {h h' : Handler} {n : Node} {l : HandlerChoice}
    (hs : s.Sound count files view) (ht : Call.Sound count (.writing h))
    (hguard : inShardOrder.thread s (.writing h) (.node l))
    (hstep : h.step sum s.node l = some (n, h')) :
    Call.Keeps count files view s (.writing h)
      { s with node := n, shown := s.shown ++ h.shows h' } (.write h h') := by
  obtain ⟨hsound, hkeyed⟩ := ht
  have hdoes := Handler.step_spec hs.topic hsound hstep
  have hsound' := hdoes.sound hsound
  cases hdoes with
  | refuses => exact hkeyed.elim
  | routes => exact hkeyed.elim
  | answers r job offsets hpayloads =>
    obtain ⟨hwal, hpublish⟩ := r.answer_ne job.partition offsets
    have hwrite : Call.write (.logging r job offsets)
        (.done r (r.answer job.partition offsets)) =
        .writing (.done r (r.answer job.partition offsets)) := by
      unfold Call.write
      split
      · rename_i heq
        exact absurd (Handler.done.inj heq).2 hwal
      · rename_i heq
        exact absurd (Handler.done.inj heq).2 hpublish
      · rfl
    rw [hwrite]
    refine ⟨hs.unshown rfl, ⟨hsound', trivial⟩, [], [], by simp, rfl, ?_⟩
    simp [Call.pending, Handler.entries, Job.entries, hpayloads]
  | fails r job offsets =>
    refine ⟨hs.unshown rfl, trivial, [], [], by simp, rfl, ?_⟩
    simp [Call.pending, Call.write, Handler.entries]
  | logs r job offsets payload rest record hpayloads hwrites hfits =>
    refine ⟨hs.unshown rfl, ⟨hsound', hkeyed⟩, [], [], by simp, rfl, ?_⟩
    simp [Call.pending, Call.write, Handler.entries, Job.entries_of_cons hpayloads,
      hwrites.payload, Job.entry]
  | publishes r job record offsets b offset hcap hshows =>
    refine ⟨⟨hs.shardLog, ?_, hs.order.settle hguard⟩, ⟨hsound', hkeyed⟩, [],
      [job.entry record.payload], by simp, rfl, ?_⟩
    · exact hshows.congr fun topic p _ => (entriesOf_concat s.shown hkeyed _ topic p).symm
    · simp [Call.pending, Call.write, Handler.entries]

/-- **A step of a call.** -/
theorem Call.Sound.step {t t' : Call} {s' : Leader} {l : CallChoice}
    (hs : s.Sound count files view) (ht : t.Sound count) (hguard : inShardOrder.thread s t l)
    (hstep : t.step sum count s l = some (s', t')) : Call.Keeps count files view s t s' t' := by
  cases Call.step_spec hstep with
  | refuses r err => exact .still hs hs.topic trivial rfl
  | routes r adm q hq hshard hkey =>
    subst hq
    refine .still hs (hs.topic.routeKey adm.topic adm.key).2.2 ⟨?_, hshard, ?_⟩ rfl
    · exact ((hs.topic adm.topic).routeKey_of_ne hkey).1
    · rintro payload ⟨⟩
      rfl
  | unopened r sid job payload err => exact .still hs hs.topic trivial rfl
  | appends r sid job a a' sh d grew hrun hgrew =>
    subst hgrew
    exact .append hs ht hrun
  | returns r sid job off => exact .still hs hs.topic ht.1 rfl
  | reaches r job => exact .still hs hs.topic ⟨Job.Keyed.lt ht, ht⟩ rfl
  | misses r job => exact .still hs hs.topic trivial rfl
  | writes h h' n l hrun => exact .write hs ht hguard hrun

end Steps

/-! ## The two logs -/

/-- Whether a call has succeeded, or was refused before anything was written. -/
def Call.settled : Call → Bool
  | .refused _ _ => true
  | .writing h => h.succeeded
  | _ => false

/-- The shards' logs and the topics agree, over logs of `files` and topics that showed `view`. -/
structure Leader.Agrees (count : UInt32) (files : UInt32 → List Payload)
    (view : String → ℕ → List (List UInt8)) (s : Leader) : Prop where
  /-- The log of a shard has the events that were put into it. -/
  shardLog : ∀ sid, (s.shards sid).records = files sid ++ shardOf count s.appended sid
  /-- A partition of a topic shows the events that were published to it. -/
  topic : s.node.server.broker.ShowsAll fun topic p => view topic p ++ entriesOf s.shown topic p
  /-- They are the same events in the same order, session by session. -/
  session : ∀ topic key, (s.shown.filter fun e => e.session = (topic, key)) =
    s.appended.filter fun e => e.session = (topic, key)

/-- **The invariant of the runs that publish in the order of the shard's log.** -/
theorem shardCalls_sound {sum : List UInt8 → UInt32} {files : UInt32 → List Payload}
    {view : String → ℕ → List (List UInt8)} {n : Node} (hn : n.server.broker.ShowsAll view)
    {w : World Leader Call}
    (h : (shardCalls sum count).Reach inShardOrder (Leader.opened n files) w) :
    Holds (Leader.Sound count files view) (fun _ t => t.Sound count) (fun _ _ => True) w := by
  refine Program.Reach.local_invariant (fun _ _ _ => trivial) ?_ ?_ ?_ ?_ h
  · refine ⟨fun sid => ?_, ?_, .refl _ _⟩
    · simp [Leader.opened, Shard.opened, shardOf]
    · exact hn.congr fun topic p _ => (List.append_nil _).symm
  · exact fun _ _ _ => ⟨trivial, fun _ _ => trivial⟩
  · intro s t l s' t' hs ht hguard hstep
    have hkeeps := Call.Sound.step hs ht hguard hstep
    exact ⟨⟨hkeeps.leader, hkeeps.call⟩, fun _ hu _ => ⟨hu, trivial⟩⟩
  · intro _ e
    exact e.elim

/-- **Shard log and topic agree.**  From any logs of the shards and any topics, in every run in
which a publish takes the next event of its session in the shard's log, once each call has succeeded
or was refused before it wrote anything. -/
theorem session_logs_agree (sum : List UInt8 → UInt32) (count : UInt32)
    (files : UInt32 → List Payload) (view : String → ℕ → List (List UInt8)) (n : Node)
    (hn : n.server.broker.ShowsAll view) (w : World Leader Call)
    (h : (shardCalls sum count).Reach inShardOrder (Leader.opened n files) w)
    (hdone : ∀ t ∈ w.threads, t.settled = true) : w.shared.Agrees count files view := by
  have hs := (shardCalls_sound hn h).shared
  have hbalance : w.shared.appended.Perm
      (w.shared.shown ++ w.threads.flatMap Call.pending) := by
    refine Program.Reach.balance Leader.appended Leader.shown Call.pending
      (fun w hw => shardCalls_sound hn hw) (.refl _) (fun _ => rfl) ?_ (fun _ e => e.elim) h
    intro s t l s' t' hs ht hguard hstep
    exact (Call.Sound.step hs ht hguard hstep).balance
  -- A settled call has nothing pending.
  have hnone : w.threads.flatMap Call.pending = [] := by
    refine List.flatMap_eq_nil_iff.mpr fun t ht => ?_
    have hsettled := hdone t ht
    cases t with
    | writing t => cases t <;> first | rfl | cases hsettled
    | refused => rfl
    | _ => cases hsettled
  rw [hnone, List.append_nil] at hbalance
  exact ⟨hs.shardLog, hs.topic, fun topic key => hs.order.filter_eq hbalance (topic, key)⟩

/-! ## Two calls of a session -/

/-- The `i`-th event of a session. -/
def stepEvent (i : UInt8) : AgentEvent := ⟨"t", "p", "s", "a", "step", [48 + i]⟩

/-- Its bytes. -/
def stepBytes (i : UInt8) : List UInt8 := ((stepEvent i).marshal 0).toOption.getD []

/-- Call `i` publishes the `i`-th event and has put it into the shard's log. -/
def sharded (i : ℕ) : List (Act SessionRequest CallChoice Empty) :=
  [.spawn (.publishAgent (some (stepEvent (UInt8.ofNat i)))), .run i (.go 0 true),
    .run i (.disk .healthy), .run i (.disk .healthy), .run i (.disk .healthy), .run i .next]

/-- Call `i` goes on after its quorum to the end. -/
def shownBy (i : ℕ) : List (Act SessionRequest CallChoice Empty) :=
  [.run i (.quorum true), .run i (.node (.go 0)), .run i (.node (.go 0)), .run i (.node (.go 0))]

instance (s : Leader) (t : Call) (l : CallChoice) : Decidable (inShardOrder.thread s t l) := by
  unfold inShardOrder
  dsimp only
  split <;> infer_instance

instance (s : Leader) (e : Empty) : Decidable (inShardOrder.env s e) :=
  inferInstanceAs (Decidable True)

/-- What the partition of the session shows. -/
def Leader.sessionTopic (s : Leader) : Option (List (Message (List UInt8))) :=
  s.node.server.broker.fetchPartition agentEventsTopic
    (keyPartition defaultTopicPartitions (stepEvent 0).key) 0 10

/-- Two calls of a session that go on in the order of the shard's log. -/
theorem session_logs_agree_twoCalls :
    ∃ w, (shardCalls Wal.crc32c 4).Reach inShardOrder
        (Leader.opened (emptyNode 4) fun _ => []) w ∧
      w.shared.sessionTopic = some [⟨0, stepBytes 0⟩, ⟨1, stepBytes 1⟩] ∧
      w.shared.Agrees 4 (fun _ => []) fun _ _ => [] := by
  have hrun : ((shardCalls Wal.crc32c 4).execWithin inShardOrder
      ⟨Leader.opened (emptyNode 4) fun _ => [], []⟩
      (sharded 0 ++ sharded 1 ++ shownBy 0 ++ shownBy 1)).map
      (fun w => (w.threads.all Call.settled, w.shared.sessionTopic)) =
      some (true, some [⟨0, stepBytes 0⟩, ⟨1, stepBytes 1⟩]) := by
    decide +kernel
  obtain ⟨w, hreach, heq⟩ := Program.exists_reach_within hrun
  rw [Prod.mk.injEq, List.all_eq_true] at heq
  exact ⟨w, hreach, heq.2, session_logs_agree Wal.crc32c 4 _ _ _ (Broker.showsAll_new 4) w hreach
    heq.1⟩

/-- The log of the shard of the session. -/
def Leader.sessionShard (s : Leader) : List Payload :=
  (s.shards (hashToShard (stepEvent 0).key 4)).records

/-- **The shard's log and the topic part.**  A call that does not reach its quorum has returned with
its event in the shard's log and not in the topic; two calls that both succeed have passed each
other between the two. -/
theorem shard_log_and_topic_part :
    stepBytes 0 ≠ stepBytes 1 ∧
    (∃ w, (shardCalls Wal.crc32c 4).Reach Guard.all (Leader.opened (emptyNode 4) fun _ => []) w ∧
      w.threads = [.abandoned [⟨agentEventsTopic, "t/p/s", stepBytes 0⟩] .quorum] ∧
      w.shared.sessionShard = [stepBytes 0] ∧ w.shared.sessionTopic = some []) ∧
    ∃ w, (shardCalls Wal.crc32c 4).Reach Guard.all (Leader.opened (emptyNode 4) fun _ => []) w ∧
      (∀ t ∈ w.threads, t.settled = true) ∧
      w.shared.sessionShard = [stepBytes 0, stepBytes 1] ∧
      w.shared.sessionTopic = some [⟨0, stepBytes 1⟩, ⟨1, stepBytes 0⟩] := by
  refine ⟨by decide +kernel, ?_, ?_⟩
  · have hrun : ((shardCalls Wal.crc32c 4).exec ⟨Leader.opened (emptyNode 4) fun _ => [], []⟩
        ((sharded 0).concat (.run 0 (.quorum false)))).map
        (fun w => (w.threads, w.shared.sessionShard, w.shared.sessionTopic)) =
        some ([.abandoned [⟨agentEventsTopic, "t/p/s", stepBytes 0⟩] .quorum],
          [stepBytes 0], some []) := by
      set_option synthInstance.maxSize 256 in decide +kernel
    obtain ⟨w, hw, heq⟩ := Program.exists_reach hrun
    rw [Prod.mk.injEq, Prod.mk.injEq] at heq
    exact ⟨w, hw, heq⟩
  · have hrun : ((shardCalls Wal.crc32c 4).exec ⟨Leader.opened (emptyNode 4) fun _ => [], []⟩
        (sharded 0 ++ sharded 1 ++ shownBy 1 ++ shownBy 0)).map
        (fun w => (w.threads.all Call.settled, w.shared.sessionShard, w.shared.sessionTopic)) =
        some (true, [stepBytes 0, stepBytes 1],
          some [⟨0, stepBytes 1⟩, ⟨1, stepBytes 0⟩]) := by
      decide +kernel
    obtain ⟨w, hw, heq⟩ := Program.exists_reach hrun
    rw [Prod.mk.injEq, Prod.mk.injEq, List.all_eq_true] at heq
    exact ⟨w, hw, heq⟩

end AgentBus.Grpcapi
