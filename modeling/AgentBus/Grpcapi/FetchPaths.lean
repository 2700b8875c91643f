import AgentBus.Grpcapi.Fetch
import AgentBus.Protocol.Batch

/-!
# The ways to fetch

Three front ends read a partition: `Server.Fetch` of `internal/grpcapi/server.go`, the handler of
OpFetch in `internal/broker/tcp_server.go` and the handler of `/api/fetch` in `cmd/broker/main.go`.
Each bounds the count of the request before it calls `Topic.Fetch`, which makes a slice of
`end - offset` messages unchecked.  The first two turn a count that is not positive into a positive
one.  The third only bounds it from above.

## Main definitions

* `handleFetch` — OpFetch.
* `ApiFetch`, `apiFetch` — `/api/fetch`.
-/

namespace AgentBus.Grpcapi

open Broker

variable {α : Type*} [Inhabited α]

/-! ## OpFetch -/

/-- The bound of OpFetch on the number of messages of a response. -/
def clampFrameCount (n : ℕ) : ℕ := if n = 0 then 1 else if 4096 < n then 4096 else n

/-- `handleFetch`: the error that is sent back, or the offsets and payloads that the response is
encoded from; `none` is a panic of the ring's `Fetch`. -/
def handleFetch (b : Broker α) (topic : String) (payload : List UInt8) :
    Option (Except String (List (ℤ × α))) :=
  match Protocol.decodeFetchRequest payload with
  | none => some (.error "invalid fetch payload")
  | some (offset, maxCount) =>
    (b.fetchPartition topic 0 offset (clampFrameCount maxCount)).map fun msgs =>
      .ok (msgs.map fun m => (m.offset, m.payload))

/-! ## The HTTP interface -/

/-- The query of `/api/fetch`: a number that is missing, or that is not one, is `none`. -/
structure ApiFetch where
  topic : String
  partition : Option ℤ
  offset : Option ℤ
  limit : Option ℤ
  deriving DecidableEq, Repr

/-- The partition of the query. -/
def ApiFetch.part (q : ApiFetch) : ℤ := q.partition.getD 0

/-- The offset of the query. -/
def ApiFetch.start (q : ApiFetch) : ℤ := q.offset.getD 0

/-- The count of the query: at most 100, and as low as the client likes. -/
def ApiFetch.count (q : ApiFetch) : ℤ :=
  let limit := q.limit.getD 20
  if 100 < limit then 100 else limit

/-- `FetchedMessage`. -/
structure FetchedMessage (α : Type*) where
  offset : ℤ
  payload : α
  deriving DecidableEq, Repr

/-- The handler of `/api/fetch`: the error with its code, or the messages; `none` is a panic of the
ring's `Fetch`. -/
def apiFetch (b : Broker α) (q : ApiFetch) :
    Option (Except (ℕ × String) (List (FetchedMessage α))) :=
  if q.topic = "" then some (.error (400, "topic is required"))
  else
    (b.fetchPartition q.topic q.part q.start q.count).map fun msgs =>
      .ok (msgs.map fun m => ⟨m.offset, m.payload⟩)

/-! ## Panics -/

theorem fetchPartition_eq_none_iff {b : Broker α} {topic : String} {partition offset count : ℤ} :
    b.fetchPartition topic partition offset count = none ↔
      ∃ t, b.partition? topic partition = some t ∧ count < 0 ∧ max offset t.head < t.tail := by
  rw [Broker.fetchPartition, ← Broker.partition?]
  cases b.partition? topic partition with
  | none => simp
  | some t => simp [Topic.fetch_eq_none_iff]

/-- A count that is not negative is safe. -/
theorem fetchPartition_ne_none (b : Broker α) (topic : String) (partition offset : ℤ) (n : ℕ) :
    b.fetchPartition topic partition offset n ≠ none := by
  rw [Ne, fetchPartition_eq_none_iff]
  rintro ⟨t, -, hneg, -⟩
  omega

theorem fetch_ne_none (peek : α → Option EnvelopePeek) (b : Broker α) (req : FetchRequest) :
    fetch peek b req ≠ none := by
  unfold fetch
  split
  · simp
  · split
    · simp
    · dsimp only
      split
      · simp
      · split
        · simp [fetchPartition_ne_none]
        · rw [Ne, Option.map_eq_none_iff, ← Ne, Option.ne_none_iff_exists']
          exact exists_scanLoop (fun c => fetchPartition_ne_none b _ _ c _) _ _ _ _ _

/-- **When a fetch panics.**  Whatever the state of the broker and whatever is asked, `Topic.Fetch`
reads the ring only at indexes of the ring and panics exactly if its slice would have a negative
capacity; gRPC `Fetch` and OpFetch never make it panic; and `/api/fetch` does not if and only if the
limit of the query is not negative, or there is no topic, no such partition or nothing to read. -/
theorem fetch_never_panics_iff (b : Broker α) :
    (∀ (t : Topic α) (offset count : ℤ),
        (t.fetch offset count = none ↔ ∃ n ∈ t.fetchCapacity offset count, n < 0) ∧
          ∀ i ∈ t.fetchIndexes offset count, 0 ≤ i ∧ i < t.cap) ∧
      (∀ (peek : α → Option EnvelopePeek) (req : FetchRequest), fetch peek b req ≠ none) ∧
      (∀ topic payload, handleFetch b topic payload ≠ none) ∧
      ∀ q : ApiFetch, apiFetch b q ≠ none ↔
        0 ≤ q.limit.getD 20 ∨ q.topic = "" ∨
          ∀ t, b.partition? q.topic q.part = some t → (t.tail : ℤ) ≤ max q.start t.head := by
  refine ⟨?_, fun peek req => fetch_ne_none peek b req, ?_, ?_⟩
  · intro t offset count
    refine ⟨?_, fun i hi => t.fetchIndexes_lt hi⟩
    rw [Topic.fetch_eq]
    split <;> simp_all
  · intro topic payload
    unfold handleFetch
    split
    · simp
    · simp [fetchPartition_ne_none]
  · intro q
    have hcount : q.count < 0 ↔ q.limit.getD 20 < 0 := by
      unfold ApiFetch.count
      dsimp only
      split <;> omega
    by_cases htopic : q.topic = ""
    · simp [apiFetch, htopic]
    · rw [apiFetch, if_neg htopic, Ne, Option.map_eq_none_iff, fetchPartition_eq_none_iff, hcount]
      simp only [not_exists, not_and, not_lt, htopic, false_or]
      by_cases hlimit : 0 ≤ q.limit.getD 20
      · simp [hlimit]
      · simp only [hlimit, false_or]
        exact ⟨fun h t ht => h t ht (by omega), fun h t ht _ => h t ht⟩

/-- A broker with one message. -/
def oneMessage : Broker ℕ := ((Broker.new 8).publishToPartition "t" 0 10).1

/-- `/api/fetch?topic=t&limit=-1` panics on a partition with a message: the slice would have the
capacity -1. -/
theorem apiFetch_panics :
    apiFetch oneMessage ⟨"t", none, none, some (-1)⟩ = none ∧
      (oneMessage.partition? "t" 0).bind (·.fetchCapacity 0 (-1)) = some (-1) ∧
      apiFetch oneMessage ⟨"t", none, none, some 1⟩ = some (.ok [⟨0, 10⟩]) := by
  decide +kernel

end AgentBus.Grpcapi
