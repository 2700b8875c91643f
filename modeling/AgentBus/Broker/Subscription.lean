import AgentBus.Broker.Topic
import Mathlib.Data.PNat.Notation

/-!
# Subscriptions

`internal/broker/subscription.go`: a subscription reads one partition from an offset on.  `Next`
fetches from its offset and moves it by the number of messages it got; when it gets none it waits
and fetches again.

A fetch below the head of the ring starts at the head, and the offset of the subscription does not
learn of it.  A subscription that has been lapped therefore returns messages it has returned before
(`next_redelivers`).  As long as no call of `Next` finds its offset below the head, every message is
returned once and in order (`next_no_redelivery`).

## Main definitions

* `Subscription`, `subscribePartitionAt`, `Subscription.next` — the source.
* `Consumer`, `Op`, `Consumer.run` — publishers and one subscription, in any interleaving.
* `Abreast` — no call finds its offset below the head.
* `Delivers` — what a subscription owes its consumer.
-/

namespace AgentBus.Broker

open Topic

variable {α : Type*}

/-- `Subscription`: the read position. -/
structure Subscription where
  offset : ℤ
  deriving DecidableEq, Repr

/-- `SubscribePartitionAt`, once the partition is chosen: a negative offset stands for the tail. -/
def subscribePartitionAt (t : Topic α) (startOffset : ℤ) : Subscription :=
  ⟨if startOffset < 0 then t.tail else startOffset⟩

/-- A round of the loop of `Next`: the messages, or `none` when the call has to wait.  The result is
`none` as a whole where the fetch panics. -/
def Subscription.next (s : Subscription) (t : Topic α) (maxCount : ℤ) :
    Option (Subscription × Option (List (Message α))) :=
  (t.fetch s.offset maxCount).map fun msgs =>
    if 0 < msgs.length then (⟨s.offset + msgs.length⟩, some msgs) else (s, none)

/-- A partition with one subscription, what was published to the one, and what the other has
returned. -/
structure Consumer (α : Type*) where
  topic : Topic α
  sub : Subscription
  published : List α
  returned : List (Message α)

/-- What happens to a partition and its subscription. -/
inductive Op (α : Type*) where
  | publish (payload : α)
  /-- A round of a call of `Next`. -/
  | next (maxCount : ℕ+)
  deriving DecidableEq

/-- A subscription to a partition of some capacity that has seen some messages. -/
def Consumer.start [Inhabited α] (capacity : ℕ) (before : List α) (startOffset : ℤ) : Consumer α :=
  let t := (newTopic capacity).publishAll before
  ⟨t, subscribePartitionAt t startOffset, before, []⟩

def Consumer.step (c : Consumer α) : Op α → Consumer α
  | .publish p => { c with topic := (c.topic.publish p).1, published := c.published ++ [p] }
  | .next maxCount =>
    match c.sub.next c.topic maxCount with
    | some (s, some msgs) => { c with sub := s, returned := c.returned ++ msgs }
    | _ => c

def Consumer.run (c : Consumer α) (ops : List (Op α)) : Consumer α := ops.foldl Consumer.step c

/-- No call of `Next` finds its offset below the head of the ring. -/
def Abreast (c : Consumer α) : List (Op α) → Prop
  | [] => True
  | .publish p :: ops => Abreast (c.step (.publish p)) ops
  | .next n :: ops => c.topic.head ≤ c.sub.offset ∧ Abreast (c.step (.next n)) ops

/-- The messages a subscription still has to return: from where it started on, still held, and not
passed by it. -/
def Consumer.owed (start : ℕ) (c : Consumer α) : List (Message α) :=
  (log c.published).filter fun m =>
    decide ((start : ℤ) ≤ m.offset ∧ (c.topic.head : ℤ) ≤ m.offset ∧
      ∀ r ∈ c.returned, r.offset < m.offset)

/-- What a subscription that started at an offset owes its consumer. -/
structure Delivers (start : ℕ) (c : Consumer α) : Prop where
  /-- The offsets returned are strictly increasing. -/
  increasing : c.returned.Pairwise fun m m' => m.offset < m'.offset
  /-- A message is returned, was evicted before the subscription has passed it, or is yet to be
  reached. -/
  complete : ∀ m ∈ log c.published, (start : ℤ) ≤ m.offset →
    m ∈ c.returned ∨ m.offset < c.topic.head ∨ ∀ r ∈ c.returned, r.offset < m.offset
  /-- The next call returns what is owed, as much of it as is asked for. -/
  next : ∀ n : ℕ+, (c.topic.head : ℤ) ≤ c.sub.offset →
    (c.step (.next n)).returned = c.returned ++ (c.owed start).take n

/-! ## The position of a subscription that is not lapped -/

/-- The subscription has returned the stretch of the log from its start to its offset. -/
structure Consumer.Reads (start : ℕ) (c : Consumer α) : Prop where
  topic : c.topic.Represents c.published
  returned : c.returned = ((log c.published).drop start).take c.returned.length
  offset : c.sub.offset = start + c.returned.length

/-- What a round of `Next` does, wherever it starts. -/
theorem step_next {c : Consumer α} (h : c.topic.Represents c.published) (n : ℕ+) :
    c.step (.next n) = { c with
      sub := ⟨c.sub.offset +
        (((log c.published).drop (max c.sub.offset c.topic.head).toNat).take n).length⟩
      returned := c.returned ++
        ((log c.published).drop (max c.sub.offset c.topic.head).toNat).take n } := by
  have hfetch := h.fetch c.sub.offset (Int.natCast_nonneg n)
  rw [Int.toNat_natCast] at hfetch
  set msgs := ((log c.published).drop (max c.sub.offset c.topic.head).toNat).take n
  rw [Consumer.step, Subscription.next, hfetch]
  by_cases hlen : 0 < msgs.length
  · simp only [Option.map_some, if_pos hlen]
  · -- The call waits.
    have hnil : msgs = [] := List.length_eq_zero_iff.mp (Nat.eq_zero_of_not_pos hlen)
    simp [hnil]

namespace Consumer

variable {start : ℕ} {c : Consumer α}

theorem Reads.le_length (h : c.Reads start) :
    c.returned.length ≤ ((log c.published).drop start).length := by
  have hlen := congrArg List.length h.returned
  rw [List.length_take] at hlen
  omega

theorem Reads.publish (h : c.Reads start) (p : α) : (c.step (.publish p)).Reads start := by
  refine ⟨(h.topic.publish p).1, ?_, h.offset⟩
  show c.returned = ((log (c.published ++ [p])).drop start).take c.returned.length
  rw [log_concat, List.drop_append, List.take_append_of_le_length h.le_length]
  exact h.returned

/-- The offset of a subscription that is not lapped is where its next fetch starts. -/
theorem Reads.position (h : c.Reads start) (hhead : (c.topic.head : ℤ) ≤ c.sub.offset) :
    (max c.sub.offset c.topic.head).toNat = start + c.returned.length := by
  rw [max_eq_left hhead, h.offset]
  omega

theorem Reads.next (h : c.Reads start) (hhead : (c.topic.head : ℤ) ≤ c.sub.offset) (n : ℕ+) :
    (c.step (.next n)).Reads start := by
  rw [step_next h.topic, h.position hhead]
  refine ⟨h.topic, ?_, ?_⟩
  · have hmore : ((log c.published).drop (start + c.returned.length)).take n =
        ((log c.published).drop (start + c.returned.length)).take
          (((log c.published).drop (start + c.returned.length)).take n).length := by
      rw [List.length_take, ← List.take_take, List.take_length]
    rw [List.length_append, List.take_add, ← h.returned, List.drop_drop, ← hmore]
  · simp only [List.length_append, h.offset]
    push_cast
    omega

/-- **A run that is never lapped.** -/
theorem Reads.run (h : c.Reads start) {ops : List (Op α)} (hops : Abreast c ops) :
    (c.run ops).Reads start := by
  induction ops generalizing c with
  | nil => exact h
  | cons op ops ih =>
    cases op with
    | publish p => exact ih (h.publish p) hops
    | next n => exact ih (h.next hops.1 n) hops.2

/-- A message of the log was returned when its offset lies between the start and the position. -/
theorem Reads.mem_returned_iff (h : c.Reads start) {m : Message α} (hm : m ∈ log c.published) :
    m ∈ c.returned ↔ (start : ℤ) ≤ m.offset ∧ m.offset < start + c.returned.length := by
  refine ⟨fun hr => ?_, fun ⟨hle, hlt⟩ => ?_⟩
  · rw [h.returned] at hr
    exact offset_of_mem_drop_log hr
  · obtain ⟨i, hi⟩ := List.mem_iff_getElem?.mp hm
    have hoffset : m.offset = i := by
      rw [getElem?_log] at hi
      obtain ⟨p, -, rfl⟩ := Option.map_eq_some_iff.mp hi
      rfl
    rw [h.returned]
    refine List.mem_iff_getElem?.mpr ⟨i - start, ?_⟩
    rw [List.getElem?_take, if_pos (by omega), List.getElem?_drop, Nat.add_sub_cancel' (by omega),
      hi]

/-- Every message returned is before the position. -/
theorem Reads.offset_lt (h : c.Reads start) {m : Message α} (hm : m ∈ c.returned) :
    m.offset < start + c.returned.length := by
  rw [h.returned] at hm
  exact (offset_of_mem_drop_log hm).2

/-- What is owed is the log from the offset on. -/
theorem Reads.owed (h : c.Reads start) (hhead : (c.topic.head : ℤ) ≤ c.sub.offset) :
    c.owed start = (log c.published).drop (start + c.returned.length) := by
  have hoffset := h.offset
  rw [← filter_le_log, Consumer.owed]
  refine List.filter_congr fun m hm => ?_
  rw [decide_eq_decide]
  push_cast
  refine ⟨?_, fun hle => ⟨by omega, by omega, ?_⟩⟩
  · rintro ⟨hstart, -, hpassed⟩
    -- A message before the position would be among those it has to be after.
    by_contra hlt
    exact lt_irrefl _ (hpassed m ((h.mem_returned_iff hm).mpr ⟨hstart, by omega⟩))
  · intro r hr
    exact lt_of_lt_of_le (h.offset_lt hr) hle

/-- **What follows from the position.** -/
theorem Reads.delivers (h : c.Reads start) : Delivers start c where
  increasing := by
    rw [h.returned]
    exact (pairwise_log c.published).sublist ((List.take_sublist _ _).trans (List.drop_sublist _ _))
  complete := by
    intro m hm hstart
    by_cases hlt : m.offset < start + c.returned.length
    · exact .inl ((h.mem_returned_iff hm).mpr ⟨hstart, hlt⟩)
    · refine .inr (.inr fun r hr => ?_)
      exact lt_of_lt_of_le (h.offset_lt hr) (not_lt.mp hlt)
  next := by
    intro n hhead
    rw [step_next h.topic, h.position hhead, h.owed hhead]

theorem reads_start [Inhabited α] (capacity : ℕ) (before : List α) (startOffset : ℤ) :
    ((Consumer.start capacity before startOffset).Reads
      (Consumer.start capacity before startOffset).sub.offset.toNat) := by
  refine ⟨?_, rfl, ?_⟩
  · have htopic := (represents_newTopic (α := α) capacity).publishAll before
    rwa [List.nil_append] at htopic
  · simp only [Consumer.start, subscribePartitionAt, List.length_nil]
    split <;> omega

end Consumer

/-- **No redelivery.**  For every capacity, every history and every start offset, a subscription
that never calls `Next` with its offset below the head gets every message once and in order. -/
theorem next_no_redelivery [Inhabited α] (capacity : ℕ) (before : List α) (startOffset : ℤ)
    (ops : List (Op α)) (h : Abreast (Consumer.start capacity before startOffset) ops) :
    Delivers (Consumer.start capacity before startOffset).sub.offset.toNat
      ((Consumer.start capacity before startOffset).run ops) :=
  ((Consumer.reads_start capacity before startOffset).run h).delivers

instance Abreast.decidable (c : Consumer α) : (ops : List (Op α)) → Decidable (Abreast c ops)
  | [] => isTrue trivial
  | .publish p :: ops => Abreast.decidable (c.step (.publish p)) ops
  | .next n :: ops => @instDecidableAnd _ _ _ (Abreast.decidable (c.step (.next n)) ops)

/-- A ring of two that wraps between the calls, without lapping the subscription. -/
theorem next_after_wrap :
    ((Consumer.start 2 [10] 0).run [.next 1, .publish 20, .publish 30, .next 1, .next 5]).returned =
      [⟨0, 10⟩, ⟨1, 20⟩, ⟨2, 30⟩] ∧
    Delivers 0 ((Consumer.start 2 [10] 0).run
      [.next 1, .publish 20, .publish 30, .next 1, .next 5]) :=
  ⟨by decide +kernel, next_no_redelivery 2 [10] 0 _ (by decide +kernel)⟩

/-- **A message that is returned twice.**  Two messages of a ring of two are published after the one
the subscription starts at: both calls return the message at offset 1. -/
theorem next_redelivers :
    ((Consumer.start 2 [] 0).run
      [.publish 10, .publish 20, .publish 30, .next 1, .next 1]).returned =
      [⟨1, 20⟩, ⟨1, 20⟩] := by
  decide +kernel

end AgentBus.Broker
