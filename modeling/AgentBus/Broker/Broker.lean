import AgentBus.Broker.Topic
import Mathlib.Data.List.Defs

/-!
# The broker: topics and their partitions

`internal/broker/broker.go`: a topic is created on first use as a set of partitions, and
a non-empty key is hashed to one of them.

The partition capacity is a constant in the source; here it is a field of the broker,
so that results hold for every ring size.

## Main definitions

* `fnv32a`, `choosePartition` — routing.
* `TopicSet`, `Broker` — the state.
* `Broker.routeKey`, `Broker.publishToPartition`, `Broker.fetchPartition` — the operations.
* `Broker.Holds` — the histories in the partitions of a topic.
* `Broker.Shows` — the same at the default number of partitions.
-/

namespace AgentBus.Broker

variable {α : Type*}

/-- The 32-bit FNV-1a hash of `hash/fnv`. -/
def fnv32a (bs : List UInt8) : UInt32 :=
  bs.foldl (fun h b => (h ^^^ b.toUInt32) * 16777619) 2166136261

/-- The bytes of a string. -/
def stringBytes (s : String) : List UInt8 := s.toByteArray.data.toList

/-- The capacity of a ring that is asked for `capacity`. -/
def ringCapacity (capacity : ℕ) : ℕ := if capacity = 0 then defaultCapacity else capacity

/-- `topicSet`. -/
structure TopicSet (α : Type*) where
  partitions : List (Topic α)
  next : ℕ

/-- `defaultTopicPartitions`. -/
def defaultTopicPartitions : ℕ := 3

/-- `newTopicSet`. -/
def newTopicSet [Inhabited α] (capacity partitions : ℕ) : TopicSet α where
  partitions := List.replicate (if partitions = 0 then defaultTopicPartitions else partitions)
    (newTopic capacity)
  next := 0

/-- The partition of a non-empty key among `n`. -/
def keyPartition (n : ℕ) (key : String) : ℕ :=
  if n = 1 then 0 else (fnv32a (stringBytes key)).toNat % n

/-- `choosePartition`: the partition of a key, and the set with its round-robin counter
moved on when the key is empty. -/
def choosePartition (set : TopicSet α) (key : String) : TopicSet α × ℕ :=
  if set.partitions.length = 1 then (set, 0)
  else if key = "" then
    ({ set with next := set.next + 1 }, set.next % set.partitions.length)
  else (set, keyPartition set.partitions.length key)

@[simp] theorem choosePartition_of_ne {key : String} (h : key ≠ "") (set : TopicSet α) :
    choosePartition set key = (set, keyPartition set.partitions.length key) := by
  unfold choosePartition keyPartition
  by_cases h1 : set.partitions.length = 1
  · simp [h1]
  · simp [h1, h]

theorem keyPartition_lt {n : ℕ} (h : 0 < n) (key : String) : keyPartition n key < n := by
  unfold keyPartition
  split
  · omega
  · exact Nat.mod_lt _ h

/-- Any key is sent to a partition there is, and routing writes no partition. -/
theorem choosePartition_spec {set : TopicSet α} (h : 0 < set.partitions.length) (key : String) :
    (choosePartition set key).2 < set.partitions.length ∧
      (choosePartition set key).1.partitions = set.partitions := by
  unfold choosePartition
  split
  · exact ⟨h, rfl⟩
  · split
    · exact ⟨Nat.mod_lt _ h, rfl⟩
    · exact ⟨keyPartition_lt h key, rfl⟩

end AgentBus.Broker

/-- `Broker`: the topics by name, over rings of one capacity. -/
structure AgentBus.Broker (α : Type*) where
  capacity : ℕ
  topics : String → Option (AgentBus.Broker.TopicSet α)

namespace AgentBus.Broker

variable {α : Type*}

/-- `New`. -/
protected def new (capacity : ℕ) : Broker α := ⟨capacity, fun _ => none⟩

variable [Inhabited α]

/-- `EnsureTopic`. -/
def ensureTopic (b : Broker α) (topic : String) (partitions : ℕ) : Broker α :=
  match b.topics topic with
  | some _ => b
  | none =>
    { b with topics := Function.update b.topics topic (some (newTopicSet b.capacity partitions)) }

/-- `getOrCreate`: the set of a topic, made on first use. -/
def getOrCreate (b : Broker α) (topic : String) : TopicSet α :=
  (b.topics topic).getD (newTopicSet b.capacity defaultTopicPartitions)

/-- `PartitionCount`. -/
def partitionCount (b : Broker α) (topic : String) : ℕ :=
  match b.topics topic with
  | some set => set.partitions.length
  | none => 0

/-- `RouteKey`: the partition a key is published to. -/
def routeKey (b : Broker α) (topic key : String) : Broker α × ℕ :=
  let r := choosePartition (b.getOrCreate topic) key
  ({ b with topics := Function.update b.topics topic (some r.1) }, r.2)

/-- `PublishToPartition`: the offset, or `none` when there is no such partition. -/
def publishToPartition (b : Broker α) (topic : String) (partition : ℤ) (payload : α) :
    Broker α × Option ℤ :=
  let set := b.getOrCreate topic
  match if partition < 0 then none else set.partitions[partition.toNat]? with
  | none => ({ b with topics := Function.update b.topics topic (some set) }, none)
  | some t =>
    let r := t.publish payload
    ({ b with
        topics := Function.update b.topics topic
          (some { set with partitions := set.partitions.set partition.toNat r.1 }) },
      some r.2)

/-- `Publish` writes to the first partition. -/
protected def publish (b : Broker α) (topic : String) (payload : α) : Broker α × Option ℤ :=
  b.publishToPartition topic 0 payload

/-- `PublishWithKey` writes to the partition of the key. -/
def publishWithKey (b : Broker α) (topic key : String) (payload : α) : Broker α × Option ℤ :=
  let r := b.routeKey topic key
  r.1.publishToPartition topic r.2 payload

/-- `FetchPartition`: `none` is the panic of `Topic.fetch`.  The empty topic that a fetch makes
where there was none is not recorded: only `TopicPartitionInfo` could tell. -/
def fetchPartition (b : Broker α) (topic : String) (partition : ℤ) (offset maxCount : ℤ) :
    Option (List (Message α)) :=
  match if partition < 0 then none else (b.getOrCreate topic).partitions[partition.toNat]? with
  | none => some []
  | some t => t.fetch offset maxCount

/-- The partition that an operation on the topic finds under a number. -/
def partition? (b : Broker α) (topic : String) (partition : ℤ) : Option (Topic α) :=
  if partition < 0 then none else (b.getOrCreate topic).partitions[partition.toNat]?

/-- `TopicPartitionInfo`: head and tail of a partition. -/
def topicPartitionInfo (b : Broker α) (topic : String) (partition : ℤ) : Option (ℕ × ℕ) :=
  (b.topics topic).bind fun set =>
    (if partition < 0 then none else set.partitions[partition.toNat]?).map fun t =>
      (t.head, t.tail)

/-! ## What a topic holds -/

/-- The topic has `n` partitions, and partition `p` holds the history `view p`. -/
structure Holds (b : Broker α) (topic : String) (n : ℕ) (view : ℕ → List α) : Prop where
  count : (b.getOrCreate topic).partitions.length = n
  parts : ∀ (p : ℕ) (t : Topic α), (b.getOrCreate topic).partitions[p]? = some t →
    t.cap = ringCapacity b.capacity ∧ t.Represents (view p)

theorem getOrCreate_update (b : Broker α) (topic : String) (set : TopicSet α) :
    getOrCreate { b with topics := Function.update b.topics topic (some set) } topic = set := by
  simp [getOrCreate]

/-- A publish to one topic leaves the others alone. -/
@[simp] theorem topics_publishToPartition_of_ne (b : Broker α) {topic topic' : String}
    (hne : topic' ≠ topic) (partition : ℤ) (payload : α) :
    (b.publishToPartition topic partition payload).1.topics topic' = b.topics topic' := by
  unfold Broker.publishToPartition
  dsimp only
  split <;> exact Function.update_of_ne hne _ _

@[simp] theorem capacity_publishToPartition (b : Broker α) (topic : String) (partition : ℤ)
    (payload : α) : (b.publishToPartition topic partition payload).1.capacity = b.capacity := by
  unfold Broker.publishToPartition
  dsimp only
  split <;> rfl

/-- A new topic holds nothing. -/
theorem holds_ensureTopic {b : Broker α} {topic : String} (habsent : b.topics topic = none)
    (partitions : ℕ) :
    ∃ n > 0, (b.ensureTopic topic partitions).partitionCount topic = n ∧
      (b.ensureTopic topic partitions).Holds topic n fun _ => [] := by
  refine ⟨(newTopicSet b.capacity partitions : TopicSet α).partitions.length, ?_, ?_, ?_, ?_⟩
  · rw [newTopicSet, List.length_replicate]
    split
    · decide
    · omega
  · simp [Broker.ensureTopic, habsent, partitionCount]
  · rw [Broker.ensureTopic, habsent]
    exact congrArg (·.partitions.length) (getOrCreate_update b topic _)
  · intro p t ht
    rw [Broker.ensureTopic, habsent] at ht ⊢
    rw [getOrCreate_update] at ht
    obtain ⟨-, rfl⟩ := List.mem_replicate.mp (List.mem_of_getElem? ht)
    exact ⟨rfl, Topic.represents_newTopic b.capacity⟩

/-- A topic that is there is left as it is. -/
@[simp] theorem ensureTopic_ensureTopic (b : Broker α) (topic : String) (n m : ℕ) :
    (b.ensureTopic topic n).ensureTopic topic m = b.ensureTopic topic n := by
  cases h : b.topics topic <;> simp [Broker.ensureTopic, h]

section
variable {b : Broker α} {topic : String} {n : ℕ} {view : ℕ → List α} (h : b.Holds topic n view)
include h

/-- Only the histories of the partitions there are matter. -/
theorem Holds.congr {view' : ℕ → List α} (hview : ∀ p < n, view p = view' p) :
    b.Holds topic n view' := by
  refine ⟨h.count, ?_⟩
  intro p t ht
  have hp : p < n := by
    rw [← h.count]
    exact (List.getElem?_eq_some_iff.mp ht).1
  rw [← hview p hp]
  exact h.parts p t ht

/-- Writing back the set of a topic changes nothing. -/
theorem Holds.touch :
    Holds { b with topics := Function.update b.topics topic (some (b.getOrCreate topic)) } topic n
      view := by
  constructor
  · rw [getOrCreate_update]
    exact h.count
  · rw [getOrCreate_update]
    exact h.parts

/-- The partitions there are. -/
theorem Holds.partition {p : ℕ} (hp : p < n) :
    ∃ t, b.partition? topic p = some t ∧ t.cap = ringCapacity b.capacity ∧
      t.Represents (view p) := by
  have hlt : p < (b.getOrCreate topic).partitions.length := by rwa [h.count]
  have ht := List.getElem?_eq_getElem hlt
  refine ⟨_, ?_, h.parts p _ ht⟩
  rw [partition?, if_neg (by omega), Int.toNat_natCast, ht]

/-- There are no other partitions. -/
theorem Holds.no_partition {partition : ℤ} (hp : ¬ (0 ≤ partition ∧ partition < n)) :
    b.partition? topic partition = none := by
  unfold partition?
  by_cases hneg : partition < 0
  · rw [if_pos hneg]
  · rw [if_neg hneg, List.getElem?_eq_none]
    rw [h.count]
    omega

/-- **A message goes to the end of its partition.** -/
theorem Holds.publishToPartition {p : ℕ} (hp : p < n) (payload : α) :
    (b.publishToPartition topic p payload).2 = some ((view p).length : ℤ) ∧
      (b.publishToPartition topic p payload).1.capacity = b.capacity ∧
      (b.publishToPartition topic p payload).1.Holds topic n
        (Function.update view p (view p ++ [payload])) := by
  have hlt : p < (b.getOrCreate topic).partitions.length := by rwa [h.count]
  have ht := List.getElem?_eq_getElem hlt
  obtain ⟨hcap, hrep⟩ := h.parts p _ ht
  obtain ⟨hpub, hoff⟩ := hrep.publish payload
  have hnonneg : ¬ (p : ℤ) < 0 := by omega
  simp only [Broker.publishToPartition, hnonneg, if_false, Int.toNat_natCast, ht, hoff]
  refine ⟨trivial, trivial, ?_, ?_⟩ <;> rw [getOrCreate_update]
  · rw [List.length_set]
    exact h.count
  · intro q u hu
    by_cases hq : q = p
    · subst hq
      rw [List.getElem?_set_self hlt] at hu
      cases hu
      rw [Function.update_self]
      exact ⟨hcap, hpub⟩
    · rw [List.getElem?_set_ne (Ne.symm hq)] at hu
      rw [Function.update_of_ne hq]
      exact h.parts q u hu

theorem Holds.publishToPartition_refused {partition : ℤ}
    (hp : ¬ (0 ≤ partition ∧ partition < n)) (payload : α) :
    (b.publishToPartition topic partition payload).2 = none ∧
      (b.publishToPartition topic partition payload).1.Holds topic n view := by
  rw [Broker.publishToPartition, ← partition?, h.no_partition hp]
  exact ⟨rfl, h.touch⟩

/-- **A fetch reads the part of the history the ring still holds.** -/
theorem Holds.fetchPartition {p : ℕ} (hp : p < n) (offset : ℤ) {maxCount : ℤ}
    (hmax : 0 ≤ maxCount) :
    b.fetchPartition topic p offset maxCount =
      some (((Topic.log (view p)).drop
        (max offset ((view p).length - ringCapacity b.capacity : ℕ)).toNat).take
          maxCount.toNat) := by
  obtain ⟨t, ht, hcap, hrep⟩ := h.partition hp
  rw [Broker.fetchPartition, ← partition?, ht]
  dsimp only
  rw [hrep.fetch offset hmax, hrep.head, hcap]

theorem Holds.routeKey (hn : 0 < n) (key : String) :
    (b.routeKey topic key).2 < n ∧ (b.routeKey topic key).1.Holds topic n view := by
  have hcount := h.count
  obtain ⟨hlt, hparts⟩ := choosePartition_spec (hcount ▸ hn) key
  refine ⟨hcount ▸ hlt, ?_, ?_⟩ <;> rw [Broker.routeKey, getOrCreate_update, hparts]
  · exact hcount
  · exact h.parts

/-- A key that is not empty is routed by its hash. -/
theorem Holds.routeKey_of_ne {key : String} (hkey : key ≠ "") :
    (b.routeKey topic key).2 = keyPartition n key ∧
      (b.routeKey topic key).1.capacity = b.capacity ∧
      (b.routeKey topic key).1.Holds topic n view := by
  simp only [Broker.routeKey, choosePartition_of_ne hkey, h.count]
  exact ⟨trivial, trivial, h.touch⟩

theorem Holds.fetchPartition_nil {partition : ℤ} (hp : ¬ (0 ≤ partition ∧ partition < n))
    (offset maxCount : ℤ) : b.fetchPartition topic partition offset maxCount = some [] := by
  rw [Broker.fetchPartition, ← partition?, h.no_partition hp]

/-- What a fetch answers was published to that partition. -/
theorem Holds.mem_of_fetchPartition {partition offset maxCount : ℤ} {msgs : List (Message α)}
    (hfetch : b.fetchPartition topic partition offset maxCount = some msgs) {m : Message α}
    (hm : m ∈ msgs) : ∃ p < n, partition = p ∧ m.payload ∈ view p := by
  by_cases hp : 0 ≤ partition ∧ partition < n
  · obtain ⟨p, rfl⟩ := Int.eq_ofNat_of_zero_le hp.1
    have hlt : p < n := by exact_mod_cast hp.2
    obtain ⟨t, ht, -, hrep⟩ := h.partition hlt
    rw [Broker.fetchPartition, ← partition?, ht] at hfetch
    exact ⟨p, hlt, rfl, hrep.mem_of_fetch hfetch hm⟩
  · rw [h.fetchPartition_nil hp] at hfetch
    cases hfetch
    cases hm

/-- The message published last is found at its offset. -/
theorem Holds.fetchPartition_last {p : ℕ} (hp : p < n) (before : List α) (payload : α)
    (hview : view p = before ++ [payload]) :
    b.fetchPartition topic p before.length 1 = some [⟨before.length, payload⟩] := by
  have hcap : 0 < ringCapacity b.capacity := by
    unfold ringCapacity
    split
    · decide
    · omega
  rw [h.fetchPartition hp _ (by decide), hview]
  have hpos : (max (before.length : ℤ)
      (((before ++ [payload]).length - ringCapacity b.capacity : ℕ) : ℤ)).toNat =
      before.length := by
    rw [List.length_append, List.length_singleton]
    omega
  rw [hpos, Topic.log_concat, List.drop_left' (Topic.length_log before)]
  rfl

/-- A topic that an operation leaves alone. -/
theorem Holds.frame {b' : Broker α} (hcap : b'.capacity = b.capacity)
    (htopic : b'.topics topic = b.topics topic) : b'.Holds topic n view := by
  have hset : b'.getOrCreate topic = b.getOrCreate topic := by
    rw [getOrCreate, getOrCreate, htopic, hcap]
  constructor
  · rw [hset]
    exact h.count
  · rw [hset, hcap]
    exact h.parts

end

/-! ## What a topic shows -/

/-- The topic has the default partitions, and partition `p` holds the history `view p`. -/
abbrev Shows (b : Broker α) (topic : String) (view : ℕ → List α) : Prop :=
  b.Holds topic defaultTopicPartitions view

theorem shows_new (capacity : ℕ) (topic : String) :
    (Broker.new capacity : Broker α).Shows topic fun _ => [] := by
  refine ⟨by simp [getOrCreate, Broker.new, newTopicSet, defaultTopicPartitions], ?_⟩
  intro p t ht
  obtain ⟨-, rfl⟩ := List.mem_replicate.mp (List.mem_of_getElem? ht)
  exact ⟨rfl, Topic.represents_newTopic capacity⟩

theorem Shows.ensureTopic {b : Broker α} {topic : String} {view : ℕ → List α}
    (h : b.Shows topic view) :
    (b.ensureTopic topic 0).Shows topic view ∧
      (b.ensureTopic topic 0).capacity = b.capacity ∧
      (b.ensureTopic topic 0).partitionCount topic = defaultTopicPartitions := by
  unfold Broker.ensureTopic
  cases hset : b.topics topic with
  | some set =>
    refine ⟨h, rfl, ?_⟩
    have hcount := h.count
    simpa [getOrCreate, partitionCount, hset] using hcount
  | none =>
    have htouch := h.touch
    simp only [getOrCreate, hset, Option.getD_none] at htouch
    exact ⟨htouch, rfl, by simp [partitionCount, newTopicSet]⟩

/-! ## What all topics show -/

/-- Partition `p` of every topic holds the history `view topic p`. -/
def ShowsAll (b : Broker α) (view : String → ℕ → List α) : Prop :=
  ∀ topic, b.Shows topic (view topic)

theorem showsAll_new (capacity : ℕ) : (Broker.new capacity : Broker α).ShowsAll fun _ _ => [] :=
  fun topic => shows_new capacity topic

namespace ShowsAll

variable {b : Broker α} {view : String → ℕ → List α}

theorem congr (h : b.ShowsAll view) {view' : String → ℕ → List α}
    (hview : ∀ topic, ∀ p < defaultTopicPartitions, view topic p = view' topic p) :
    b.ShowsAll view' :=
  fun topic => (h topic).congr (hview topic)

theorem ensureTopic (h : b.ShowsAll view) (topic : String) :
    (b.ensureTopic topic 0).ShowsAll view ∧ (b.ensureTopic topic 0).capacity = b.capacity ∧
      (b.ensureTopic topic 0).partitionCount topic = defaultTopicPartitions := by
  obtain ⟨hshows, hcap, hcount⟩ := (h topic).ensureTopic
  refine ⟨fun t => ?_, hcap, hcount⟩
  by_cases ht : t = topic
  · rw [ht]
    exact hshows
  · refine (h t).frame hcap ?_
    unfold Broker.ensureTopic
    split
    · rfl
    · exact Function.update_of_ne ht _ _

/-- Any key is routed to a partition there is. -/
theorem routeKey (h : b.ShowsAll view) (topic key : String) :
    (b.routeKey topic key).2 < defaultTopicPartitions ∧
      (b.routeKey topic key).1.capacity = b.capacity ∧ (b.routeKey topic key).1.ShowsAll view := by
  obtain ⟨hlt, hholds⟩ := (h topic).routeKey (by decide) key
  refine ⟨hlt, rfl, fun t => ?_⟩
  by_cases ht : t = topic
  · rw [ht]
    exact hholds
  · exact (h t).frame rfl (Function.update_of_ne ht _ _)

theorem publishToPartition (h : b.ShowsAll view) (topic : String) {p : ℕ}
    (hp : p < defaultTopicPartitions) (payload : α) :
    (b.publishToPartition topic p payload).2 = some ((view topic p).length : ℤ) ∧
      (b.publishToPartition topic p payload).1.capacity = b.capacity ∧
      (b.publishToPartition topic p payload).1.ShowsAll
        (Function.update view topic
          (Function.update (view topic) p (view topic p ++ [payload]))) := by
  obtain ⟨hoff, hcap, hshows⟩ := (h topic).publishToPartition hp payload
  refine ⟨hoff, hcap, fun t => ?_⟩
  by_cases ht : t = topic
  · rw [ht, Function.update_self]
    exact hshows
  · rw [Function.update_of_ne ht]
    exact (h t).frame hcap (topics_publishToPartition_of_ne b ht p payload)

/-- A publish to a partition there is not is refused; the topic is made. -/
theorem publishToPartition_refused (h : b.ShowsAll view) (topic : String) {partition : ℤ}
    (hp : ¬ (0 ≤ partition ∧ partition < defaultTopicPartitions)) (payload : α) :
    (b.publishToPartition topic partition payload).2 = none ∧
      (b.publishToPartition topic partition payload).1.ShowsAll view := by
  obtain ⟨hnone, hholds⟩ := (h topic).publishToPartition_refused hp payload
  refine ⟨hnone, fun t => ?_⟩
  by_cases ht : t = topic
  · rw [ht]
    exact hholds
  · exact (h t).frame (by simp) (topics_publishToPartition_of_ne b ht partition payload)

/-- Two brokers that show the same answer every fetch alike. -/
theorem fetchPartition_eq (h : b.ShowsAll view) {b' : Broker α} (h' : b'.ShowsAll view)
    (hcap : b'.capacity = b.capacity) (topic : String) (p offset : ℤ) {maxCount : ℤ}
    (hmax : 0 ≤ maxCount) :
    b'.fetchPartition topic p offset maxCount = b.fetchPartition topic p offset maxCount := by
  by_cases hp : 0 ≤ p ∧ p < defaultTopicPartitions
  · obtain ⟨n, rfl⟩ := Int.eq_ofNat_of_zero_le hp.1
    have hn : n < defaultTopicPartitions := by exact_mod_cast hp.2
    rw [(h' topic).fetchPartition hn offset hmax, (h topic).fetchPartition hn offset hmax, hcap]
  · rw [(h' topic).fetchPartition_nil hp, (h topic).fetchPartition_nil hp]

end ShowsAll

end AgentBus.Broker
