import AgentBus.Grpcapi.ShardPublish

/-!
# The log before the broker

All the paths a message can take into the broker: the handlers of `AgentBus.Grpcapi.Handlers`, the
calls in cluster mode of `AgentBus.Grpcapi.ShardPublish`, and the handler of `/api/publish` in
`cmd/broker/main.go`, from the decoded request on.  Any append to the write-ahead log may fail.

The first two append a record before they publish, and give up when the append fails.  The handler
of `/api/publish` publishes first, and drops the error of its append: a message can be visible and
acknowledged without a record (`api_publish_unlogged`).  In runs in which such a publish finds a
record of its message in the log, and its own append succeeds, every visible message has a record,
and no publish whose append failed is acknowledged (`log_before_visibility`).

## Main definitions

* `ApiRequest`, `ApiCall`, `ApiCall.step` — the handler of `/api/publish`.
* `Path`, `Attempt`, `publishPaths` — the program of all paths.
* `Logged` — a record of a message is in the log.
* `walFirst` — the condition.
-/

namespace AgentBus.Grpcapi

open AgentStream Broker Framing Pool

/-! ## The handler of `/api/publish` -/

/-- `PublishRequest` of `internal/api`. -/
structure ApiRequest where
  topic : String
  key : String
  partition : ℤ
  payload : List UInt8
  deriving DecidableEq, Repr

/-- The answers of `/api/publish`. -/
inductive ApiAnswer where
  /-- Status 400. -/
  | badRequest (msg : String)
  /-- Status 500. -/
  | internalServerError (msg : String)
  /-- `PublishResponse`. -/
  | response (topic : String) (partition offset : ℤ)
  deriving DecidableEq, Repr

/-- Where the message goes: to the partition that is asked for, to that of the key, or to the
first. -/
def ApiRequest.target (r : ApiRequest) (b : Broker (List UInt8)) : Broker (List UInt8) × ℤ :=
  if 0 < r.partition then (b, r.partition)
  else if r.key ≠ "" then
    let q := b.routeKey r.topic r.key
    (q.1, q.2)
  else (b, 0)

/-- The publish, with its partition and the offset. -/
def ApiRequest.publish (r : ApiRequest) (b : Broker (List UInt8)) :
    Broker (List UInt8) × ℤ × Option ℤ :=
  let q := r.target b
  let o := q.1.publishToPartition r.topic q.2 r.payload
  (o.1, q.2, o.2)

/-- The record of the message. -/
def ApiRequest.record (r : ApiRequest) (partition : ℤ) (now : Time) : Wal.Record where
  timestamp := unixNano now
  topic := stringBytes r.topic
  key := stringBytes r.key
  partition := Int32.ofInt partition
  payload := r.payload

/-- The handler between two of its steps. -/
inductive ApiCall where
  | start (r : ApiRequest)
  /-- Has published, and is about to append the record. -/
  | appending (r : ApiRequest) (partition offset : ℤ)
  | done (r : ApiRequest) (answer : ApiAnswer)
  deriving DecidableEq

/-- One step of the handler. -/
def ApiCall.step (sum : List UInt8 → UInt32) (n : Node) :
    ApiCall → HandlerChoice → Option (Node × ApiCall)
  | .start r, .go _ =>
    if r.topic = "" then some (n, .done r (.badRequest "topic is required"))
    else
      let q := r.publish n.server.broker
      let n' := { n with server := { n.server with broker := q.1 } }
      match q.2.2 with
      | none =>
        some (n', .done r (.internalServerError ("invalid partition " ++ toString q.2.1)))
      | some offset => some (n', .appending r q.2.1 offset)
  | .appending r partition offset, .go now =>
    match Wal.appendRecord sum (unixNano now) (r.record partition now) with
    | .error _ => some (n, .done r (.response r.topic partition offset))
    | .ok bs =>
      some ({ n with
          server := { n.server with wal := n.server.wal ++ bs }
          logged := n.logged ++ [(r.record partition now).stamped (unixNano now)] },
        .done r (.response r.topic partition offset))
  | .appending r partition offset, .walError =>
    some (n, .done r (.response r.topic partition offset))
  | _, _ => none

/-! ## All paths -/

/-- The requests of all paths. -/
inductive PathRequest where
  | node (r : PublishRequest)
  | cluster (r : SessionRequest)
  | api (r : ApiRequest)
  deriving DecidableEq

/-- The ways into the broker. -/
inductive Path where
  | node (h : Handler)
  | cluster (c : Call)
  | api (c : ApiCall)
  deriving DecidableEq

/-- What resolves a step. -/
inductive PathChoice where
  | node (l : HandlerChoice)
  | cluster (l : CallChoice)
  deriving DecidableEq, Repr

def PathRequest.entry : PathRequest → Path
  | .node r => .node (.start r)
  | .cluster r => .cluster (.start r)
  | .api r => .api (.start r)

/-- One step on any of the paths. -/
def Path.step (sum : List UInt8 → UInt32) (count : UInt32) (s : Leader) :
    Path → PathChoice → Option (Leader × Path)
  | .node h, .node l => (h.step sum s.node l).map fun q => ({ s with node := q.1 }, .node q.2)
  | .cluster c, .cluster l => (c.step sum count s l).map fun q => (q.1, .cluster q.2)
  | .api c, .node l => (c.step sum s.node l).map fun q => ({ s with node := q.1 }, .api q.2)
  | _, _ => none

/-- Whether a step of a handler is an append that fails. -/
def Handler.appendFails (sum : List UInt8 → UInt32) : Handler → HandlerChoice → Bool
  | .logging _ _ _, .walError => true
  | .logging _ job _, .go now =>
    match job.payloads with
    | [] => false
    | payload :: _ =>
      (Wal.appendRecord sum (unixNano now) (job.record now payload)).toOption.isNone
  | _, _ => false

/-- Whether a step of the handler of `/api/publish` is an append that fails. -/
def ApiCall.appendFails (sum : List UInt8 → UInt32) : ApiCall → HandlerChoice → Bool
  | .appending _ _ _, .walError => true
  | .appending r partition _, .go now =>
    (Wal.appendRecord sum (unixNano now) (r.record partition now)).toOption.isNone
  | _, _ => false

/-- Whether a step is an append to the write-ahead log that fails. -/
def Path.appendFails (sum : List UInt8 → UInt32) : Path → PathChoice → Bool
  | .node h, .node l => h.appendFails sum l
  | .cluster (.writing h), .cluster (.node l) => h.appendFails sum l
  | .api c, .node l => c.appendFails sum l
  | _, _ => false

/-- Whether the publish was acknowledged. -/
def Path.acknowledged : Path → Bool
  | .node h => h.succeeded
  | .cluster (.writing h) => h.succeeded
  | .api (.done _ (.response _ _ _)) => true
  | _ => false

/-- A publish, and whether one of its appends has failed. -/
structure Attempt where
  path : Path
  failed : Bool
  deriving DecidableEq

/-- All paths as a program. -/
def publishPaths (sum : List UInt8 → UInt32) (count : UInt32) :
    Program Leader Attempt PathRequest PathChoice Empty where
  entry r := ⟨r.entry, false⟩
  thread s t l := (t.path.step sum count s l).map fun q =>
    (q.1, ⟨q.2, t.failed || t.path.appendFails sum l⟩)
  env _ e := e.elim

/-- A record of the message is in the log. -/
def Logged (rs : List Wal.Record) (topic : String) (partition : ℤ) (payload : List UInt8) : Prop :=
  ∃ r ∈ rs, r.topic = stringBytes topic ∧ r.partition.toInt = partition ∧ r.payload = payload

instance (rs : List Wal.Record) (topic : String) (partition : ℤ) (payload : List UInt8) :
    Decidable (Logged rs topic partition payload) :=
  inferInstanceAs (Decidable (∃ r ∈ rs, _))

/-- A publish of `/api/publish` is refused or finds a record of its message in the log, and its
append does not fail. -/
def walFirst (sum : List UInt8 → UInt32) : Guard Leader Attempt PathChoice Empty where
  thread s t l :=
    match t.path with
    | .api (.start r) =>
      let q := r.publish s.node.server.broker
      r.topic = "" ∨ q.2.2 = none ∨ Logged s.node.logged r.topic q.2.1 r.payload
    | .api c => ¬ (Path.api c).appendFails sum l = true
    | _ => True
  env _ _ := True

/-! ## What every step keeps -/

/-- Every message that is visible has a record in the log. -/
structure Node.Backed (sum : List UInt8 → UInt32) (n : Node) : Prop where
  wal : n.server.wal = encodeAll (Wal.encode sum) n.logged
  visible : ∃ view, n.server.broker.ShowsAll view ∧
    ∀ topic, ∀ p < defaultTopicPartitions, ∀ payload ∈ view topic p,
      Logged n.logged topic p payload

/-- What is known of a handler: the record it is about to publish is in the log. -/
def Handler.Backed (n : Node) (h : Handler) : Prop :=
  h.Sound ∧ ∀ r ∈ h.pending, r ∈ n.logged

/-- What is known of a call. -/
def Call.Backed (n : Node) : Call → Prop
  | .sharding _ _ job _ => job.partition < defaultTopicPartitions
  | .awaiting _ job => job.partition < defaultTopicPartitions
  | .writing h => h.Backed n
  | _ => True

/-- What is known of a path. -/
def Path.Backed (n : Node) : Path → Prop
  | .node h => h.Backed n
  | .cluster c => c.Backed n
  | .api _ => True

/-- What a step does to the server: it stays backed, and its log grows. -/
structure Node.Grows (sum : List UInt8 → UInt32) (n n' : Node) : Prop where
  backed : n'.Backed sum
  logged : n.logged ⊆ n'.logged

section Steps

variable {sum : List UInt8 → UInt32} {n n' : Node}

theorem Logged.mono {rs rs' : List Wal.Record} (h : rs ⊆ rs') {topic : String} {partition : ℤ}
    {payload : List UInt8} (hlogged : Logged rs topic partition payload) :
    Logged rs' topic partition payload := by
  obtain ⟨r, hr, hrest⟩ := hlogged
  exact ⟨r, h hr, hrest⟩

theorem Node.Backed.refl (h : n.Backed sum) : n.Grows sum n := ⟨h, List.Subset.refl _⟩

variable {b : Broker (List UInt8)} {view : String → ℕ → List (List UInt8)} {h : Handler} {t : Path}
  {l : HandlerChoice} {s : Leader}

/-- The broker is touched, and shows what it did. -/
theorem Node.Backed.touch (h : n.Backed sum)
    (hb : ∀ view, n.server.broker.ShowsAll view → b.ShowsAll view) :
    n.Grows sum { n with server := { n.server with broker := b } } := by
  obtain ⟨view, hshows, hlogged⟩ := h.visible
  exact ⟨⟨h.wal, view, hb view hshows, hlogged⟩, List.Subset.refl _⟩

/-- A record is appended. -/
theorem Node.Backed.append (h : n.Backed sum) (r : Wal.Record) :
    n.Grows sum { n with
      server := { n.server with wal := n.server.wal ++ Wal.encode sum r }
      logged := n.logged ++ [r] } := by
  obtain ⟨view, hshows, hlogged⟩ := h.visible
  have hsub : n.logged ⊆ n.logged ++ [r] := List.subset_append_left _ _
  refine ⟨⟨?_, view, hshows, fun topic p hp payload hmem => ?_⟩, hsub⟩
  · simp [h.wal, encodeAll]
  · exact (hlogged topic p hp payload hmem).mono hsub

/-- A message that has a record is published. -/
theorem Logged.publish {topic : String} {p : ℕ} {payload : List UInt8} {rs : List Wal.Record}
    (h : Logged rs topic p payload)
    (hview : ∀ topic, ∀ p < defaultTopicPartitions, ∀ payload ∈ view topic p,
      Logged rs topic p payload) :
    ∀ topic', ∀ q < defaultTopicPartitions,
      ∀ payload' ∈ Function.update view topic
        (Function.update (view topic) p (view topic p ++ [payload])) topic' q,
        Logged rs topic' q payload' := by
  intro topic' q hq payload' hmem
  by_cases htopic : topic' = topic
  · subst htopic
    rw [Function.update_self] at hmem
    by_cases hqp : q = p
    · subst hqp
      rw [Function.update_self] at hmem
      rcases List.mem_append.mp hmem with hmem | hmem
      · exact hview topic' q hq payload' hmem
      · rw [List.mem_singleton.mp hmem]
        exact h
    · rw [Function.update_of_ne hqp] at hmem
      exact hview topic' q hq payload' hmem
  · rw [Function.update_of_ne htopic] at hmem
    exact hview topic' q hq payload' hmem

theorem Handler.Backed.mono (hb : h.Backed n) (hsub : n.logged ⊆ n'.logged) : h.Backed n' :=
  ⟨hb.1, fun r hr => hsub (hb.2 r hr)⟩

theorem Path.Backed.mono (hb : t.Backed n) (hsub : n.logged ⊆ n'.logged) : t.Backed n' := by
  cases t with
  | node h => exact Handler.Backed.mono hb hsub
  | cluster c =>
    cases c with
    | writing h => exact Handler.Backed.mono hb hsub
    | _ => exact hb
  | api c => trivial

/-- **A step of a handler.** -/
theorem Handler.Backed.step {h' : Handler} (hn : n.Backed sum) (hh : h.Backed n)
    (hstep : h.step sum n l = some (n', h')) : n.Grows sum n' ∧ h'.Backed n' := by
  obtain ⟨view, hshows, hlogged⟩ := hn.visible
  have hdoes := Handler.step_spec hshows hh.1 hstep
  have hsound := hdoes.sound hh.1
  cases hdoes with
  | refuses r b answer hcap hb =>
    exact ⟨⟨⟨hn.wal, view, hb, hlogged⟩, List.Subset.refl _⟩, hsound, nofun⟩
  | routes r b job hcap hb hlt =>
    exact ⟨⟨⟨hn.wal, view, hb, hlogged⟩, List.Subset.refl _⟩, hsound, nofun⟩
  | answers => exact ⟨hn.refl, hsound, nofun⟩
  | fails => exact ⟨hn.refl, hsound, nofun⟩
  | logs r job offsets payload rest record hpayloads hwrites hfits =>
    refine ⟨hn.append record, hsound, ?_⟩
    intro r' hr'
    rw [List.mem_singleton.mp hr']
    exact List.mem_append_right _ List.mem_cons_self
  | publishes r job record offsets b offset hcap hb =>
    obtain ⟨⟨hlt, htopic, hpart⟩, hpending⟩ := hh
    have hrecord : Logged n.logged job.topic job.partition record.payload := by
      refine ⟨record, hpending record List.mem_cons_self, htopic, ?_, rfl⟩
      rw [hpart]
      exact (int32_ofNat_partition _ hlt).2.1
    exact ⟨⟨⟨hn.wal, _, hb, hrecord.publish hlogged⟩, List.Subset.refl _⟩, hsound, nofun⟩

/-- **A step of a call in cluster mode.** -/
theorem Call.Backed.step {count : UInt32} {s' : Leader} {c c' : Call} {l : CallChoice}
    (hn : s.node.Backed sum) (hc : c.Backed s.node) (hstep : c.step sum count s l = some (s', c')) :
    s.node.Grows sum s'.node ∧ c'.Backed s'.node := by
  cases Call.step_spec hstep with
  | refuses r err => exact ⟨hn.refl, trivial⟩
  | routes r adm q hq hshard hkey =>
    subst hq
    obtain ⟨view, hshows, -⟩ := hn.visible
    refine ⟨hn.touch fun view hview => ?_, (hshows.routeKey adm.topic adm.key).1⟩
    exact (hview.routeKey adm.topic adm.key).2.2
  | unopened r sid job payload err => exact ⟨hn.refl, trivial⟩
  | appends r sid job a a' sh d grew hrun hgrew =>
    refine ⟨hn.refl, ?_⟩
    rcases Call.append_cases r sid job grew a a' with ⟨-, -, err, heq⟩ | ⟨err, heq⟩ | heq
    · rw [heq]
      trivial
    · rw [heq]
      trivial
    · rw [heq]
      exact hc
  | returns r sid job off => exact ⟨hn.refl, hc⟩
  | reaches r job => exact ⟨hn.refl, hc, nofun⟩
  | misses r job => exact ⟨hn.refl, trivial⟩
  | writes h h' n l hrun =>
    obtain ⟨hgrows, hh'⟩ := Handler.Backed.step hn hc hrun
    refine ⟨hgrows, ?_⟩
    rcases Call.write_cases h h' with ⟨err, heq⟩ | heq
    · rw [heq]
      trivial
    · rw [heq]
      exact hh'

theorem ApiRequest.target_showsAll (h : b.ShowsAll view) (r : ApiRequest) :
    (r.target b).1.ShowsAll view := by
  unfold ApiRequest.target
  split
  · exact h
  · split
    · exact (h.routeKey r.topic r.key).2.2
    · exact h

/-- A publish is refused, or the message goes to the end of a partition there is. -/
theorem ApiRequest.publish_spec (h : b.ShowsAll view) (r : ApiRequest) :
    ((r.publish b).2.2 = none ∧ (r.publish b).1.ShowsAll view) ∨
      ∃ p : ℕ, p < defaultTopicPartitions ∧ (r.publish b).2.1 = p ∧ (r.publish b).2.2 ≠ none ∧
        (r.publish b).1.ShowsAll (Function.update view r.topic
          (Function.update (view r.topic) p (view r.topic p ++ [r.payload]))) := by
  have htarget := r.target_showsAll h
  by_cases hp : 0 ≤ (r.target b).2 ∧ (r.target b).2 < defaultTopicPartitions
  · obtain ⟨p, hpeq⟩ := Int.eq_ofNat_of_zero_le hp.1
    have hlt : p < defaultTopicPartitions := by
      rw [hpeq] at hp
      exact_mod_cast hp.2
    obtain ⟨hoff, -, hshows⟩ := htarget.publishToPartition r.topic hlt r.payload
    refine .inr ⟨p, hlt, hpeq, ?_, ?_⟩
    · rw [ApiRequest.publish, hpeq]
      dsimp only
      rw [hoff]
      exact Option.some_ne_none _
    · rw [ApiRequest.publish, hpeq]
      exact hshows
  · exact .inl (htarget.publishToPartition_refused r.topic hp r.payload)

/-- **A step of the handler of `/api/publish`** that meets the condition. -/
theorem ApiCall.grows_of_step {c c' : ApiCall} {failed : Bool} (hn : s.node.Backed sum)
    (hguard : (walFirst sum).thread s ⟨.api c, failed⟩ (.node l))
    (hstep : c.step sum s.node l = some (n', c')) : s.node.Grows sum n' := by
  unfold ApiCall.step at hstep
  split at hstep
  · rename_i r now
    split at hstep
    · cases hstep
      exact hn.refl
    · rename_i htopic
      obtain ⟨view, hshows, hlogged⟩ := hn.visible
      -- The server after the publish, whatever the answer is.
      have hgrows : s.node.Grows sum { s.node with
          server := { s.node.server with broker := (r.publish s.node.server.broker).1 } } := by
        rcases r.publish_spec hshows with ⟨-, hview⟩ | ⟨p, hlt, hpeq, hne, hview⟩
        · exact ⟨⟨hn.wal, view, hview, hlogged⟩, List.Subset.refl _⟩
        · rcases hguard with hempty | hnone | hrecord
          · exact absurd hempty htopic
          · exact absurd hnone hne
          · rw [hpeq] at hrecord
            exact ⟨⟨hn.wal, _, hview, hrecord.publish hlogged⟩, List.Subset.refl _⟩
      simp only at hstep
      split at hstep <;>
      · cases hstep
        exact hgrows
  · rename_i r partition offset now
    split at hstep
    · cases hstep
      exact hn.refl
    · rename_i bs hbs
      obtain ⟨-, rfl⟩ := Wal.appendRecord_eq_ok hbs
      cases hstep
      exact hn.append _
  · cases hstep
    exact hn.refl
  · cases hstep

/-! ## A failed append -/

/-- The publish has given up because of an append that failed. -/
def Path.gaveUp : Path → Bool
  | .node (.done _ .walAppend) => true
  | .cluster (.abandoned _ (.node .walAppend)) => true
  | _ => false

theorem Path.gaveUp_step {count : UInt32} (h : t.gaveUp = true) (l : PathChoice) :
    t.step sum count s l = none := by
  unfold Path.gaveUp at h
  split at h
  · cases l <;> rfl
  · cases l <;> rfl
  · cases h

theorem Path.acknowledged_of_gaveUp (h : t.gaveUp = true) : t.acknowledged = false := by
  unfold Path.gaveUp at h
  split at h
  · rfl
  · rfl
  · cases h

/-- A handler gives up when an append fails. -/
theorem Handler.step_of_appendFails {h' : Handler} (hfails : h.appendFails sum l = true)
    (hstep : h.step sum n l = some (n', h')) : ∃ r, h' = .done r .walAppend := by
  unfold Handler.appendFails at hfails
  split at hfails
  · cases hstep
    exact ⟨_, rfl⟩
  · rename_i r job offsets now
    split at hfails
    · cases hfails
    · rename_i payload rest hpayloads
      cases happend : Wal.appendRecord sum (unixNano now) (job.record now payload) with
      | error err =>
        simp only [Handler.step, hpayloads, happend] at hstep
        cases hstep
        exact ⟨_, rfl⟩
      | ok bs =>
        rw [happend] at hfails
        cases hfails
  · cases hfails

end Steps

/-- What is known of a publish. -/
def Attempt.Backed (n : Node) (t : Attempt) : Prop :=
  t.path.Backed n ∧ (t.failed = true → t.path.gaveUp = true)

variable {sum : List UInt8 → UInt32} {count : UInt32} {s s' : Leader} {l : PathChoice}

/-- A path whose append fails is given up. -/
theorem Path.gaveUp_of_appendFails {t t' : Path} {failed : Bool}
    (hguard : (walFirst sum).thread s ⟨t, failed⟩ l) (hfails : t.appendFails sum l = true)
    (hstep : t.step sum count s l = some (s', t')) : t'.gaveUp = true := by
  unfold Path.appendFails at hfails
  split at hfails
  · obtain ⟨⟨n', h'⟩, hrun, heq⟩ := Option.map_eq_some_iff.mp hstep
    obtain ⟨r, rfl⟩ := Handler.step_of_appendFails hfails hrun
    cases heq
    rfl
  · obtain ⟨⟨s'', c'⟩, hrun, heq⟩ := Option.map_eq_some_iff.mp hstep
    obtain ⟨⟨n', h'⟩, hwrite, hcall⟩ := Option.map_eq_some_iff.mp hrun
    obtain ⟨r, rfl⟩ := Handler.step_of_appendFails hfails hwrite
    cases hcall
    cases heq
    rfl
  · rename_i c l
    cases c with
    | appending => exact absurd hfails hguard
    | start => cases hfails
    | done => cases hfails
  · cases hfails

/-- A step on any path that meets the condition. -/
theorem Path.Backed.step {t t' : Path} {failed : Bool} (hn : s.node.Backed sum)
    (ht : t.Backed s.node) (hguard : (walFirst sum).thread s ⟨t, failed⟩ l)
    (hstep : t.step sum count s l = some (s', t')) :
    s.node.Grows sum s'.node ∧ t'.Backed s'.node := by
  unfold Path.step at hstep
  split at hstep
  · obtain ⟨⟨n', h'⟩, hrun, heq⟩ := Option.map_eq_some_iff.mp hstep
    cases heq
    exact Handler.Backed.step hn ht hrun
  · obtain ⟨⟨s', c'⟩, hrun, heq⟩ := Option.map_eq_some_iff.mp hstep
    cases heq
    exact Call.Backed.step hn ht hrun
  · obtain ⟨⟨n', c'⟩, hrun, heq⟩ := Option.map_eq_some_iff.mp hstep
    cases heq
    exact ⟨ApiCall.grows_of_step hn hguard hrun, trivial⟩
  · cases hstep

/-- **A step of a publish** that meets the condition. -/
theorem Attempt.Backed.step {t t' : Attempt} (hn : s.node.Backed sum) (ht : t.Backed s.node)
    (hguard : (walFirst sum).thread s t l)
    (hstep : (publishPaths sum count).thread s t l = some (s', t')) :
    s.node.Grows sum s'.node ∧ t'.Backed s'.node := by
  obtain ⟨⟨s'', path⟩, hrun, heq⟩ := Option.map_eq_some_iff.mp hstep
  obtain ⟨rfl, rfl⟩ := Prod.mk.inj heq
  obtain ⟨hgrows, hpath⟩ := Path.Backed.step hn ht.1 hguard hrun
  refine ⟨hgrows, hpath, fun hfailed => ?_⟩
  rcases Bool.or_eq_true_iff.mp hfailed with hbefore | hnow
  · rw [Path.gaveUp_step (ht.2 hbefore)] at hrun
    cases hrun
  · exact Path.gaveUp_of_appendFails hguard hnow hrun

/-- **The invariant of the runs that meet the condition.** -/
theorem publishPaths_backed {s₀ : Leader} (hs₀ : s₀.node.Backed sum) {w : World Leader Attempt}
    (h : (publishPaths sum count).Reach (walFirst sum) s₀ w) :
    Holds (fun s => s.node.Backed sum) (fun s t => t.Backed s.node) (fun _ _ => True) w := by
  refine Program.Reach.local_invariant (fun _ _ _ => trivial) ?_ ?_ ?_ ?_ h
  · exact hs₀
  · intro s r _
    refine ⟨⟨?_, nofun⟩, fun _ _ => trivial⟩
    cases r with
    | node r => exact ⟨trivial, nofun⟩
    | cluster r => trivial
    | api r => trivial
  · intro s t l s' t' hs ht hguard hstep
    obtain ⟨hgrows, ht'⟩ := Attempt.Backed.step hs ht hguard hstep
    exact ⟨⟨hgrows.backed, ht'⟩, fun u hu _ => ⟨⟨hu.1.mono hgrows.logged, hu.2⟩, trivial⟩⟩
  · intro _ e
    exact e.elim

/-! ## Every message that is visible is in the log -/

/-- The log comes before the broker. -/
structure LogFirst (sum : List UInt8 → UInt32) (w : World Leader Attempt) : Prop where
  /-- The write-ahead log holds the records it has accepted. -/
  wal : w.shared.node.server.wal = encodeAll (Wal.encode sum) w.shared.node.logged
  /-- Whatever can be fetched from a partition has a record. -/
  visible : ∀ topic partition offset maxCount msgs,
    w.shared.node.server.broker.fetchPartition topic partition offset maxCount = some msgs →
      ∀ m ∈ msgs, Logged w.shared.node.logged topic partition m.payload
  /-- A publish whose append failed is not acknowledged. -/
  unacknowledged : ∀ t ∈ w.threads, t.failed = true → t.path.acknowledged = false

theorem Node.opened_backed {opts : Wal.ReplayOptions} {capacity : ℕ} {rs : List Wal.Record}
    (hrs : ∀ r ∈ rs, Routed r) {n : Node} (hn : Node.opened sum opts capacity rs = some n) :
    n.Backed sum := by
  obtain ⟨b, hb, -, hshows⟩ := restore_showsAll sum opts capacity hrs
  rw [Node.opened, hb] at hn
  cases hn
  refine ⟨rfl, _, hshows, fun topic p hp payload hmem => ?_⟩
  obtain ⟨r, hr, rfl⟩ := List.mem_map.mp hmem
  obtain ⟨hr, hslot⟩ := List.mem_filter.mp hr
  obtain ⟨htopic, hpart⟩ := Prod.mk.inj (of_decide_eq_true hslot)
  refine ⟨r, hr, htopic, ?_, rfl⟩
  rw [hpart]
  exact (int32_ofNat_partition p hp).2.1

/-- **The log comes before visibility.**  From a process that was started on the records of any file
and any logs of the shards, in every run of all the paths in which a publish of `/api/publish` finds
a record of its message in the log and its append does not fail. -/
theorem log_before_visibility (sum : List UInt8 → UInt32) (opts : Wal.ReplayOptions)
    (capacity : ℕ) (count : UInt32) (rs : List Wal.Record) (hrs : ∀ r ∈ rs, Routed r) (n₀ : Node)
    (hn₀ : Node.opened sum opts capacity rs = some n₀) (files : UInt32 → List Cluster.Payload)
    (w : World Leader Attempt)
    (h : (publishPaths sum count).Reach (walFirst sum) (Leader.opened n₀ files) w) :
    LogFirst sum w := by
  have hw := publishPaths_backed (Node.opened_backed hrs hn₀) h
  refine ⟨hw.shared.wal, ?_, ?_⟩
  · intro topic partition offset maxCount msgs hfetch m hm
    obtain ⟨view, hshows, hlogged⟩ := hw.shared.visible
    obtain ⟨p, hlt, rfl, hmem⟩ := (hshows topic).mem_of_fetchPartition hfetch hm
    exact hlogged topic p hlt m.payload hmem
  · intro t ht hfailed
    exact Path.acknowledged_of_gaveUp ((hw.of_mem ht).2 hfailed)

instance (sum : List UInt8 → UInt32) (s : Leader) (t : Attempt) (l : PathChoice) :
    Decidable ((walFirst sum).thread s t l) := by
  unfold walFirst
  dsimp only
  split <;> infer_instance

instance (sum : List UInt8 → UInt32) (s : Leader) (e : Empty) :
    Decidable ((walFirst sum).env s e) :=
  inferInstanceAs (Decidable True)

/-- A publish over TCP, one whose append fails, one in cluster mode, and then the first message once
more through `/api/publish`. -/
def fourPaths : List (Act PathRequest PathChoice Empty) :=
  [.spawn (.node (.tcpPublish "t" [1])), .run 0 (.node (.go 0)), .run 0 (.node (.go 0)),
    .spawn (.node (.tcpPublish "t" [2])), .run 1 (.node (.go 0)), .run 1 (.node .walError),
    .run 0 (.node (.go 0)), .run 0 (.node (.go 0)),
    .spawn (.cluster (.publishAgent (some (stepEvent 0)))), .run 2 (.cluster (.go 0 true)),
    .run 2 (.cluster (.disk .healthy)), .run 2 (.cluster (.disk .healthy)),
    .run 2 (.cluster (.disk .healthy)), .run 2 (.cluster .next), .run 2 (.cluster (.quorum true)),
    .run 2 (.cluster (.node .walError)),
    .spawn (.api ⟨"t", "", 0, [1]⟩), .run 3 (.node (.go 0)), .run 3 (.node (.go 0))]

theorem log_before_visibility_fourPaths :
    ∃ w, (publishPaths Wal.crc32c 4).Reach (walFirst Wal.crc32c)
        (Leader.opened (emptyNode 4) fun _ => []) w ∧
      w.threads.map Attempt.failed = [false, true, true, false] ∧
      w.shared.node.server.broker.fetchPartition "t" 0 0 10 = some [⟨0, [1]⟩, ⟨1, [1]⟩] ∧
      LogFirst Wal.crc32c w := by
  have hrun : ((publishPaths Wal.crc32c 4).execWithin (walFirst Wal.crc32c)
      ⟨Leader.opened (emptyNode 4) fun _ => [], []⟩ fourPaths).map (fun w =>
        (w.threads.map Attempt.failed,
          w.shared.node.server.broker.fetchPartition "t" 0 0 10)) =
      some ([false, true, true, false], some [⟨0, [1]⟩, ⟨1, [1]⟩]) := by
    decide +kernel
  obtain ⟨w, hreach, heq⟩ := Program.exists_reach_within hrun
  obtain ⟨hfailed, hfetch⟩ := Prod.mk.inj heq
  exact ⟨w, hreach, hfailed, hfetch, log_before_visibility Wal.crc32c ⟨false⟩ 4 4 [] (by simp)
    (emptyNode 4) (opened_nil _ _ _) _ w hreach⟩

/-- **A message that is visible and acknowledged without a record**: the append of `/api/publish`
comes after the publish, and it fails. -/
theorem api_publish_unlogged :
    ∃ w, (publishPaths Wal.crc32c 4).Reach Guard.all (Leader.opened (emptyNode 4) fun _ => []) w ∧
      w.shared.node.server.broker.fetchPartition "t" 0 0 10 = some [⟨0, [1]⟩] ∧
      w.shared.node.logged = [] ∧ w.shared.node.server.wal = [] ∧
      w.threads = [⟨.api (.done ⟨"t", "", 0, [1]⟩ (.response "t" 0 0)), true⟩] := by
  have hrun : ((publishPaths Wal.crc32c 4).exec ⟨Leader.opened (emptyNode 4) fun _ => [], []⟩
      [.spawn (.api ⟨"t", "", 0, [1]⟩), .run 0 (.node (.go 0)), .run 0 (.node .walError)]).map
      (fun w => (w.shared.node.server.broker.fetchPartition "t" 0 0 10, w.shared.node.logged,
        w.shared.node.server.wal, w.threads)) =
      some (some [⟨0, [1]⟩], [], [],
        [⟨.api (.done ⟨"t", "", 0, [1]⟩ (.response "t" 0 0)), true⟩]) := by
    decide +kernel
  obtain ⟨w, hw, heq⟩ := Program.exists_reach hrun
  simp only [Prod.mk.injEq] at heq
  exact ⟨w, hw, heq⟩

end AgentBus.Grpcapi
