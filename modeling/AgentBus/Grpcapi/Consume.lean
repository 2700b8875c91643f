import AgentBus.Broker.Subscription
import AgentBus.Consumer.Offsets
import AgentBus.Grpcapi.Fetch
import AgentBus.Lib.Machine

/-!
# Consume

`Server.Consume` of `internal/grpcapi/server.go`: a subscription to a partition of a topic, whose
messages are sent to the client, and a commit of the group's offset after every batch.

`SubscribePartitionAt` takes the first partition if there is none of the requested number.  The call
then streams the messages of another partition and moves the group's offset there
(`consume_other_partition`).  With a partition that the topic has, the call stays on it
(`consume_stays`).

## Main definitions

* `consume`, `Serving`, `ServingStep`, `Serving.step` — a call, and what happens beside it.
-/

namespace AgentBus.Grpcapi

open Broker

variable {α : Type*}

/-- `ConsumeRequest`. -/
structure ConsumeRequest where
  topic : String
  group : String
  partition : Int32
  deriving DecidableEq, Repr

/-- A call of `Consume` in its loop. -/
structure ConsumeCall (α : Type*) where
  topic : String
  group : String
  partition : ℕ
  sub : Subscription
  sent : List (ConsumeMessage α)
  returned : Bool

/-- The group of a request. -/
def ConsumeRequest.groupName (req : ConsumeRequest) : String :=
  if req.group = "" then "default" else req.group

/-- What the offset of a group in a partition is kept for. -/
def groupPosition (topic group : String) (partition : ℤ) : Consumer.Position where
  topic := stringBytes topic
  group := stringBytes group
  partition := Int64.ofInt partition

theorem groupPosition_nonneg {topic group : String} {partition : Int32} (h : 0 ≤ partition) :
    0 ≤ (groupPosition topic group partition.toInt).partition := by
  have hle := Int32.le_iff_toInt_le.mp h
  have hlt := partition.toInt_lt
  rw [Int32.toInt_zero] at hle
  rw [Int64.le_iff_toInt_le, groupPosition, Int64.toInt_ofInt_of_le (by omega) (by omega)]
  exact hle

section Model

variable [Inhabited α]

/-- `SubscribePartitionAt`: the partition it takes, and the subscription; `none` is the panic of a
topic without partitions. -/
def subscribe (b : Broker α) (topic : String) (partition startOffset : ℤ) :
    Option (Broker α × ℕ × Subscription) :=
  let set := b.getOrCreate topic
  let partition :=
    if partition < 0 ∨ (set.partitions.length : ℤ) ≤ partition then 0 else partition.toNat
  set.partitions[partition]?.map fun t =>
    ({ b with topics := Function.update b.topics topic (some set) }, partition,
      subscribePartitionAt t startOffset)

/-- `Consume` up to its loop: the partition is chosen for the group if it is negative. -/
def consume (b : Broker α) (groups : Consumer.Manager) (req : ConsumeRequest) :
    Except Status (Option (Broker α × ConsumeCall α)) :=
  if req.topic = "" then .error ⟨.invalidArgument, "topic is required"⟩
  else
    let group := req.groupName
    if req.partition < 0 then
      let (b, partition) := b.routeKey req.topic group
      .ok ((subscribe b req.topic partition (-1)).map fun (b, partition, sub) =>
        let sub := match groups.getPartition (groupPosition req.topic group partition) with
          | some committed => ⟨committed.toInt⟩
          | none => sub
        (b, ⟨req.topic, group, partition, sub, [], false⟩))
    else
      let startOffset :=
        match groups.getPartition (groupPosition req.topic group req.partition.toInt) with
        | some committed => committed.toInt
        | none => -1
      .ok ((subscribe b req.topic req.partition.toInt startOffset).map fun (b, partition, sub) =>
        (b, ⟨req.topic, group, partition, sub, [], false⟩))

/-- A message as it is sent, with the partition as `int32`. -/
def ConsumeCall.message (c : ConsumeCall α) (m : Message α) : ConsumeMessage α :=
  consumeMessage (Int32.ofInt c.partition).toInt m

/-- A round of the loop: a batch is sent, or a part of it until `Send` fails, and only after all of
it is sent the offset is committed.  `none` is a call that waits. -/
def ConsumeCall.round (b : Broker α) (groups : Consumer.Manager) (c : ConsumeCall α)
    (fails : Option ℕ) : Option (Consumer.Manager × ConsumeCall α) := do
  let t ← b.partition? c.topic c.partition
  let (sub, msgs?) ← c.sub.next t 128
  let msgs ← msgs?
  match fails with
  | some k =>
    if k < msgs.length then
      return (groups,
        { c with sub, sent := c.sent ++ (msgs.take k).map c.message, returned := true })
    else none
  | none =>
    let last ← msgs.getLast?
    return (groups.commitPartition (groupPosition c.topic c.group c.partition)
        (Int64.ofInt (last.offset + 1)),
      { c with sub, sent := c.sent ++ msgs.map c.message })

/-- A call beside everything else; `published` is what was published to the partitions of its
topic. -/
structure Serving (α : Type*) where
  broker : Broker α
  groups : Consumer.Manager
  call : ConsumeCall α
  published : ℕ → List α

inductive ServingStep (α : Type*) where
  /-- Someone publishes to a topic. -/
  | publish (topic : String) (partition : ℤ) (payload : α)
  /-- Someone else commits an offset. -/
  | commit (p : Consumer.Position) (offset : Int64)
  /-- A round of the call; `Send` may fail after some messages. -/
  | round (fails : Option ℕ)
  /-- The client closes the stream. -/
  | cancel

/-- A publish; it is refused if there is no such partition. -/
def Serving.publish (s : Serving α) (topic : String) (partition : ℤ) (payload : α) : Serving α :=
  let r := s.broker.publishToPartition topic partition payload
  { s with
    broker := r.1
    published :=
      if topic = s.call.topic ∧ r.2.isSome then
        Function.update s.published partition.toNat (s.published partition.toNat ++ [payload])
      else s.published }

def Serving.step (s : Serving α) : ServingStep α → Option (Serving α)
  | .publish topic partition payload => some (s.publish topic partition payload)
  | .commit p offset => some { s with groups := s.groups.commitPartition p offset }
  | .round fails =>
    if s.call.returned then none
    else (s.call.round s.broker s.groups fails).map fun (groups, call) => { s with groups, call }
  | .cancel => some { s with call := { s.call with returned := true } }

/-! ## A call with a partition that the topic has -/

/-- The call has the partition of its request, and what it sent was published there. -/
structure Serving.Stays (req : ConsumeRequest) (n : ℕ) (s : Serving α) : Prop where
  holds : s.broker.Holds req.topic n s.published
  topic : s.call.topic = req.topic
  group : s.call.group = req.groupName
  partition : (s.call.partition : ℤ) = req.partition.toInt
  lt : s.call.partition < n
  sent : ∀ m ∈ s.call.sent, m.partition = req.partition.toInt ∧
    ⟨m.offset, m.payload⟩ ∈ Topic.log (s.published s.call.partition)

theorem subscribe_of_lt {b : Broker α} {topic : String} {n : ℕ} {view : ℕ → List α}
    (h : b.Holds topic n view) {partition : ℤ} (hnonneg : 0 ≤ partition) (hlt : partition < n)
    {startOffset : ℤ} {r : Broker α × ℕ × Subscription}
    (hr : subscribe b topic partition startOffset = some r) :
    (r.2.1 : ℤ) = partition ∧ r.1.Holds topic n view := by
  have hcount : ¬ (partition < 0 ∨ ((b.getOrCreate topic).partitions.length : ℤ) ≤ partition) := by
    rw [h.count]
    omega
  obtain ⟨t, -, rfl⟩ := Option.map_eq_some_iff.mp hr
  simp only [hcount, if_false]
  exact ⟨Int.toNat_of_nonneg hnonneg, h.touch⟩

/-- What a round has done: it fetched messages from the partition of the call, sent some of them
and committed at most the offset of the group there. -/
structure ConsumeCall.Rounded (b : Broker α) (groups : Consumer.Manager) (c : ConsumeCall α)
    (r : Consumer.Manager × ConsumeCall α) (msgs : List (Message α)) : Prop where
  fetched : b.fetchPartition c.topic c.partition c.sub.offset 128 = some msgs
  topic : r.2.topic = c.topic
  group : r.2.group = c.group
  partition : r.2.partition = c.partition
  sent : ∀ m ∈ r.2.sent, m ∈ c.sent ∨ ∃ m' ∈ msgs, m = c.message m'
  groups : r.1 = groups ∨
    ∃ offset, r.1 = groups.commitPartition (groupPosition c.topic c.group c.partition) offset

theorem ConsumeCall.rounded {b : Broker α} {groups : Consumer.Manager} {c : ConsumeCall α}
    {fails : Option ℕ} {r : Consumer.Manager × ConsumeCall α}
    (h : c.round b groups fails = some r) : ∃ msgs, c.Rounded b groups r msgs := by
  obtain ⟨t, ht, h⟩ := Option.bind_eq_some_iff.mp h
  obtain ⟨⟨sub, msgs?⟩, hnext, h⟩ := Option.bind_eq_some_iff.mp h
  obtain ⟨msgs, hmsgs, h⟩ := Option.bind_eq_some_iff.mp h
  have hfetch : b.fetchPartition c.topic c.partition c.sub.offset 128 = some msgs := by
    rw [Broker.fetchPartition, ← Broker.partition?, ht]
    obtain ⟨fetched, hfetched, hr⟩ := Option.map_eq_some_iff.mp hnext
    dsimp only at hmsgs ⊢
    split at hr <;> cases hr <;> cases hmsgs
    exact hfetched
  have hsent (ms : List (Message α)) (hms : ∀ m ∈ ms, m ∈ msgs) :
      ∀ m ∈ c.sent ++ ms.map c.message, m ∈ c.sent ∨ ∃ m' ∈ msgs, m = c.message m' := by
    intro m hm
    rcases List.mem_append.mp hm with hm | hm
    · exact .inl hm
    · obtain ⟨m', hm', rfl⟩ := List.mem_map.mp hm
      exact .inr ⟨m', hms m' hm', rfl⟩
  refine ⟨msgs, ?_⟩
  cases fails with
  | some k =>
    simp only at h
    split at h <;> cases h
    exact ⟨hfetch, rfl, rfl, rfl, hsent _ fun _ => List.mem_of_mem_take, .inl rfl⟩
  | none =>
    obtain ⟨last, -, h⟩ := Option.bind_eq_some_iff.mp h
    cases h
    exact ⟨hfetch, rfl, rfl, rfl, hsent _ fun _ => id, .inr ⟨_, rfl⟩⟩

namespace Serving.Stays

variable {req : ConsumeRequest} {n : ℕ} {s s' : Serving α}

/-- A fetch from the partition of the call finds what was published there. -/
theorem mem_log (h : s.Stays req n) {msgs : List (Message α)}
    (hfetched : s.broker.fetchPartition s.call.topic s.call.partition s.call.sub.offset 128 =
      some msgs) : ∀ m ∈ msgs, m ∈ Topic.log (s.published s.call.partition) := by
  rw [h.topic, h.holds.fetchPartition h.lt _ (by decide)] at hfetched
  cases hfetched
  exact fun m hm => List.mem_of_mem_drop (List.mem_of_mem_take hm)

/-- What is published to the topic is added to its partition. -/
theorem holds_publish (h : s.Stays req n) (topic : String) (partition : ℤ) (payload : α) :
    (s.publish topic partition payload).broker.Holds req.topic n
        (s.publish topic partition payload).published ∧
      ∀ p, s.published p <+: (s.publish topic partition payload).published p := by
  simp only [Serving.publish, h.topic]
  by_cases htopic : topic = req.topic
  · subst htopic
    by_cases hpart : 0 ≤ partition ∧ partition < n
    · obtain ⟨p, rfl⟩ := Int.eq_ofNat_of_zero_le hpart.1
      obtain ⟨hoffset, -, hholds⟩ := h.holds.publishToPartition (p := p) (by omega) payload
      simp only [hoffset, Option.isSome_some, and_self, if_true, Int.toNat_natCast]
      refine ⟨hholds, fun q => ?_⟩
      by_cases hq : q = p
      · rw [hq, Function.update_self]
        exact List.prefix_append ..
      · rw [Function.update_of_ne hq]
    · obtain ⟨hoffset, hholds⟩ := h.holds.publishToPartition_refused hpart payload
      simp only [hoffset, Option.isSome_none, Bool.false_eq_true, and_false, if_false]
      exact ⟨hholds, fun q => List.prefix_rfl⟩
  · simp only [htopic, false_and, if_false]
    exact ⟨h.holds.frame (by simp) (Broker.topics_publishToPartition_of_ne s.broker
      (Ne.symm htopic) partition payload), fun q => List.prefix_rfl⟩

theorem step (h : s.Stays req n) {e : ServingStep α} (hstep : s.step e = some s') :
    s'.Stays req n := by
  cases e with
  | publish topic partition payload =>
    cases hstep
    obtain ⟨hholds, hgrows⟩ := h.holds_publish topic partition payload
    refine ⟨hholds, h.topic, h.group, h.partition, h.lt, fun m hm => ?_⟩
    obtain ⟨hm, hlog⟩ := h.sent m hm
    exact ⟨hm, (Topic.log_mono (hgrows _)).subset hlog⟩
  | commit p offset =>
    cases hstep
    exact ⟨h.holds, h.topic, h.group, h.partition, h.lt, h.sent⟩
  | cancel =>
    cases hstep
    exact ⟨h.holds, h.topic, h.group, h.partition, h.lt, h.sent⟩
  | round fails =>
    simp only [Serving.step] at hstep
    split at hstep
    · cases hstep
    · obtain ⟨r, hr, rfl⟩ := Option.map_eq_some_iff.mp hstep
      obtain ⟨msgs, hround⟩ := ConsumeCall.rounded hr
      refine ⟨h.holds, hround.topic.trans h.topic, hround.group.trans h.group, ?_, ?_, ?_⟩
      · rw [hround.partition]
        exact h.partition
      · rw [hround.partition]
        exact h.lt
      · intro m hm
        rw [hround.partition]
        rcases hround.sent m hm with hm | ⟨m', hm', rfl⟩
        · exact h.sent m hm
        · refine ⟨?_, h.mem_log hround.fetched m' hm'⟩
          rw [ConsumeCall.message, h.partition, Int32.ofInt_toInt]
          rfl

/-- A round of the call changes the offset of its group in its partition only. -/
theorem frame (h : s.Stays req n) {fails : Option ℕ} (hstep : s.step (.round fails) = some s')
    {q : Consumer.Position} (hq : q ≠ groupPosition req.topic req.groupName req.partition.toInt)
    (hnonneg : 0 ≤ req.partition) (hqnonneg : 0 ≤ q.partition)
    (hapart : ¬ q.Clashes (groupPosition req.topic req.groupName req.partition.toInt)) :
    s'.groups.getPartition q = s.groups.getPartition q := by
  simp only [Serving.step] at hstep
  split at hstep
  · cases hstep
  · obtain ⟨r, hr, rfl⟩ := Option.map_eq_some_iff.mp hstep
    obtain ⟨msgs, hround⟩ := ConsumeCall.rounded hr
    rcases hround.groups with heq | ⟨offset, heq⟩
    · exact congrArg (fun m : Consumer.Manager => m.getPartition q) heq
    · simp only [heq, h.topic, h.group, h.partition]
      rw [Consumer.Manager.getPartition_commitPartition, if_neg]
      rwa [Consumer.Position.key_eq_iff_clashes hqnonneg (groupPosition_nonneg hnonneg) hq]

end Serving.Stays

/-- A call with a partition that the topic has starts there. -/
theorem stays_consume {b b' : Broker α} {groups : Consumer.Manager} {req : ConsumeRequest} {n : ℕ}
    {view : ℕ → List α} (hholds : b.Holds req.topic n view) (hnonneg : 0 ≤ req.partition)
    (hlt : req.partition.toInt < n) {c : ConsumeCall α}
    (hcall : consume b groups req = .ok (some (b', c))) :
    Serving.Stays req n ⟨b', groups, c, view⟩ := by
  unfold consume at hcall
  split at hcall
  · cases hcall
  · dsimp only at hcall
    rw [if_neg (Int32.not_lt.mpr hnonneg)] at hcall
    obtain ⟨r, hr, hc⟩ := Option.map_eq_some_iff.mp (Except.ok.inj hcall)
    have hpart := Int32.le_iff_toInt_le.mp hnonneg
    obtain ⟨heq, hholds'⟩ := subscribe_of_lt hholds hpart hlt hr
    have hlt' : r.2.1 < n := by omega
    cases hc
    exact ⟨hholds', rfl, rfl, heq, hlt', by simp⟩

/-- A call with a partition that the topic has streams what was published to that partition, and
changes the offset of its group there only, except where another position has the same key. -/
theorem consume_stays (b b' : Broker α) (groups : Consumer.Manager) (req : ConsumeRequest) (n : ℕ)
    (view : ℕ → List α) (hholds : b.Holds req.topic n view) (hnonneg : 0 ≤ req.partition)
    (hlt : req.partition.toInt < n) (c : ConsumeCall α)
    (hcall : consume b groups req = .ok (some (b', c))) (es : List (ServingStep α))
    (s : Serving α) (hrun : Machine.run Serving.step ⟨b', groups, c, view⟩ es = some s) :
    (∀ m ∈ s.call.sent, m.partition = req.partition.toInt ∧
        ⟨m.offset, m.payload⟩ ∈ Topic.log (s.published req.partition.toInt.toNat)) ∧
      ∀ fails s', s.step (.round fails) = some s' →
        ∀ q : Consumer.Position,
          q ≠ groupPosition req.topic req.groupName req.partition.toInt → 0 ≤ q.partition →
            ¬ q.Clashes (groupPosition req.topic req.groupName req.partition.toInt) →
              s'.groups.getPartition q = s.groups.getPartition q := by
  have h : s.Stays req n :=
    Machine.run_invariant (fun _ _ _ hs hstep => hs.step hstep)
      (stays_consume hholds hnonneg hlt hcall) hrun
  have hpart : s.call.partition = req.partition.toInt.toNat := by
    rw [← h.partition, Int.toNat_natCast]
  refine ⟨hpart ▸ h.sent, fun fails s' hstep q hq hqnonneg hapart => ?_⟩
  exact h.frame hstep hq hnonneg hqnonneg hapart

end Model

/-- A message of the second partition reaches the client that asked for it. -/
theorem consume_stays_second :
    ∃ s : Serving ℕ,
      s.call.sent = [⟨0, 7, 1⟩] ∧
        ∀ m ∈ s.call.sent, m.partition = 1 ∧ ⟨m.offset, m.payload⟩ ∈ Topic.log (s.published 1) :=
  ⟨_, by rfl, (consume_stays (Broker.new 4) _ Consumer.newManager ⟨"t", "g", 1⟩ 3 (fun _ => [])
    (Broker.shows_new 4 "t") (by decide) (by decide) _ rfl
    [.publish "t" 1 7, .round none] _ rfl).1⟩

/-- The topic has three partitions.  A client that asks for partition 5 is sent the message of
partition 0, and the offset of its group there is moved. -/
theorem consume_other_partition :
    ∃ b c s, consume (Broker.new 4 : Broker ℕ) Consumer.newManager ⟨"t", "g", 5⟩ =
        .ok (some (b, c)) ∧
      Machine.run Serving.step ⟨b, Consumer.newManager, c, fun _ => []⟩
        [.publish "t" 0 7, .round none] = some s ∧
      s.published 5 = [] ∧ s.call.sent = [⟨0, 7, 0⟩] ∧
      Consumer.newManager.getPartition (groupPosition "t" "g" 0) = none ∧
      s.groups.getPartition (groupPosition "t" "g" 0) = some 1 := by
  refine ⟨_, _, _, rfl, rfl, ?_⟩
  decide +kernel

end AgentBus.Grpcapi
