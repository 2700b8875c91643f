import AgentBus.Broker.Broker

/-!
# Fetching pages of a partition

`Server.Fetch` in `internal/grpcapi/server.go` returns one page of a partition.  Without a
session filter a page is one read of the ring; with one the server scans pages of the ring
until it has `max_count` matches, has used its scan budget or has reached the tail.

The JSON decoder of the envelope fields is a parameter, `peek`, which answers `none` where
`json.Unmarshal` fails.  Timestamps are left out: nothing here reads them.

## Main definitions

* `sessionFilterMatches` — the filter.
* `Scan`, `Scan.page`, `scanLoop` — the filtered scan.
* `fetch` — `Server.Fetch`.
* `paginate` — calling `fetch` again from `nextOffset` until the tail is reached.
-/

namespace AgentBus.Grpcapi

open Broker

variable {α : Type*}

/-! ## Requests and responses -/

/-- `SessionFilter`: the empty string stands for any value. -/
structure SessionFilter where
  tenant : String
  project : String
  sessionID : String
  deriving DecidableEq, Repr

/-- `envelopePeek`: the fields of an envelope the filter looks at. -/
structure EnvelopePeek where
  tenant : String
  project : String
  sessionID : String
  deriving DecidableEq, Repr, Inhabited

/-- `sessionFilterMatches`. -/
def sessionFilterMatches (peek : α → Option EnvelopePeek) (payload : α) :
    Option SessionFilter → Bool
  | none => true
  | some f =>
    if f.tenant = "" ∧ f.project = "" ∧ f.sessionID = "" then true
    else
      match peek payload with
      | none => false
      | some p =>
        if f.tenant ≠ "" ∧ f.tenant ≠ p.tenant then false
        else if f.project ≠ "" ∧ f.project ≠ p.project then false
        else if f.sessionID ≠ "" ∧ f.sessionID ≠ p.sessionID then false
        else true

/-- `FetchRequest`. -/
structure FetchRequest where
  topic : String
  partition : ℤ
  fromOffset : ℤ
  maxCount : ℤ
  sessionFilter : Option SessionFilter
  scanLimit : ℤ
  deriving DecidableEq, Repr

/-- `ConsumeMessage`. -/
structure ConsumeMessage (α : Type*) where
  offset : ℤ
  payload : α
  partition : ℤ
  deriving DecidableEq, Repr

/-- `FetchResponse`. -/
structure FetchResponse (α : Type*) where
  messages : List (ConsumeMessage α)
  nextOffset : ℤ
  head : ℤ
  tail : ℤ
  deriving DecidableEq, Repr

/-- The gRPC status codes that are answered. -/
inductive Code where
  | invalidArgument
  deriving DecidableEq, Repr

/-- A gRPC error. -/
structure Status where
  code : Code
  message : String
  deriving DecidableEq, Repr

/-- A message of the partition as the client sees it. -/
def consumeMessage (partition : ℤ) (m : Message α) : ConsumeMessage α :=
  ⟨m.offset, m.payload, partition⟩

/-! ## The filtered scan -/

/-- The variables of the scan: the matches so far, the cursor and the messages looked at. -/
structure Scan (α : Type*) where
  out : List (Message α)
  offset : ℤ
  scanned : ℕ
  deriving DecidableEq, Repr

/-- The scan of a call that starts at an offset. -/
def Scan.start (offset : ℤ) : Scan α := ⟨[], offset, 0⟩

/-- The loop over the messages of one page, left when there are enough matches. -/
def Scan.collect (keep : Message α → Bool) (maxCount : ℕ) : List (Message α) → Scan α → Scan α
  | [], s => s
  | m :: ms, s =>
    let s := { s with scanned := s.scanned + 1 }
    if keep m then
      let s := { s with out := s.out ++ [m] }
      if maxCount ≤ s.out.length then s else Scan.collect keep maxCount ms s
    else Scan.collect keep maxCount ms s

/-- One page: its matches are collected and the cursor moves on by its length. -/
def Scan.page (keep : Message α → Bool) (maxCount : ℕ) (s : Scan α) (msgs : List (Message α)) :
    Scan α :=
  let s := s.collect keep maxCount msgs
  { s with offset := s.offset + msgs.length }

/-- The condition of the scan's loop. -/
def Scan.Going (maxCount scanLimit : ℕ) (tail : ℤ) (s : Scan α) : Prop :=
  s.out.length < maxCount ∧ s.scanned < scanLimit ∧ s.offset < tail

instance (maxCount scanLimit : ℕ) (tail : ℤ) (s : Scan α) :
    Decidable (s.Going maxCount scanLimit tail) :=
  inferInstanceAs (Decidable (_ ∧ _ ∧ _))

variable {maxCount : ℕ} {s : Scan α}

/-- The loop keeps the cursor, takes the first matches that fit, and looks at every message if
there is room after it. -/
theorem Scan.collect_spec (keep : Message α → Bool) (msgs : List (Message α))
    (h : s.out.length < maxCount) :
    (s.collect keep maxCount msgs).offset = s.offset ∧
      (s.collect keep maxCount msgs).out =
        s.out ++ (msgs.filter keep).take (maxCount - s.out.length) ∧
      ((s.collect keep maxCount msgs).out.length < maxCount →
        (s.collect keep maxCount msgs).scanned = s.scanned + msgs.length) := by
  induction msgs generalizing s with
  | nil => simp [Scan.collect]
  | cons m ms ih =>
    rw [Scan.collect]
    by_cases hm : keep m
    · have hsub : maxCount - s.out.length = maxCount - (s.out.length + 1) + 1 := by omega
      by_cases hfull : maxCount ≤ s.out.length + 1
      · have hzero : maxCount - (s.out.length + 1) = 0 := by omega
        simp [hm, hfull, hsub, hzero]
      · have ih' := ih (s := { s with out := s.out ++ [m], scanned := s.scanned + 1 })
          (by simp; omega)
        simp only [hm, if_true, List.length_append, List.length_singleton, if_neg hfull,
          List.filter_cons_of_pos, hsub, List.take_succ_cons]
        simpa [Nat.add_assoc, Nat.add_comm 1] using ih'
    · have ih' := ih (s := { s with scanned := s.scanned + 1 }) h
      simpa [hm, Nat.add_assoc, Nat.add_comm 1] using ih'

theorem Scan.page_offset (keep : Message α → Bool) (msgs : List (Message α))
    (h : s.out.length < maxCount) :
    (s.page keep maxCount msgs).offset = s.offset + msgs.length := by
  simp [Scan.page, (Scan.collect_spec keep msgs h).1]

theorem Scan.page_out (keep : Message α → Bool) (msgs : List (Message α))
    (h : s.out.length < maxCount) :
    (s.page keep maxCount msgs).out =
      s.out ++ (msgs.filter keep).take (maxCount - s.out.length) := by
  simp [Scan.page, (Scan.collect_spec keep msgs h).2.1]

theorem Scan.page_scanned (keep : Message α → Bool) (msgs : List (Message α))
    (h : s.out.length < maxCount) (hroom : (s.page keep maxCount msgs).out.length < maxCount) :
    (s.page keep maxCount msgs).scanned = s.scanned + msgs.length :=
  (Scan.collect_spec keep msgs h).2.2 hroom

/-- The loop of the filtered path; `read` reads a page of the ring. -/
def scanLoop (read : ℤ → Option (List (Message α))) (keep : Message α → Bool)
    (maxCount scanLimit : ℕ) (tail : ℤ) (s : Scan α) : Option (Scan α) :=
  if _h : s.Going maxCount scanLimit tail then
    match read s.offset with
    | none => none
    | some [] => some s
    | some (m :: ms) => scanLoop read keep maxCount scanLimit tail (s.page keep maxCount (m :: ms))
  else some s
termination_by (tail - s.offset).toNat
decreasing_by
  have hout := Scan.page_offset keep (m :: ms) _h.1
  have htail := _h.2.2
  rw [hout]
  simp
  omega

/-- Whatever is read, the cursor moves on before anything is collected. -/
theorem scanLoop_moves {read : ℤ → Option (List (Message α))} {keep : Message α → Bool}
    {scanLimit : ℕ} {tail : ℤ} {s' : Scan α}
    (h : scanLoop read keep maxCount scanLimit tail s = some s') :
    s' = s ∨ s.offset < s'.offset := by
  fun_induction scanLoop with
  | case1 s going hread => cases h
  | case2 s going hread =>
    cases h
    exact .inl rfl
  | case3 s going m ms hread ih =>
    have hoff := Scan.page_offset keep (m :: ms) going.1
    rw [List.length_cons] at hoff
    rcases ih h with rfl | hlt
    · exact .inr (by omega)
    · exact .inr (by omega)
  | case4 s stopped =>
    cases h
    exact .inl rfl

/-- The scan does not fail if no read fails. -/
theorem exists_scanLoop {read : ℤ → Option (List (Message α))} (hread : ∀ c, read c ≠ none)
    (keep : Message α → Bool) (maxCount scanLimit : ℕ) (tail : ℤ) (s : Scan α) :
    ∃ s', scanLoop read keep maxCount scanLimit tail s = some s' := by
  fun_induction scanLoop with
  | case1 s going hnone => exact absurd hnone (hread _)
  | case2 s going hnil => exact ⟨s, rfl⟩
  | case3 s going m ms hcons ih => exact ih
  | case4 s stopped => exact ⟨s, rfl⟩

/-! ## The call -/

/-- The bound on the number of messages of a response. -/
def clampMaxCount (n : ℤ) : ℕ := if n ≤ 0 then 256 else if 4096 < n then 4096 else n.toNat

/-- The scan budget of a call. -/
def clampScanLimit (n : ℤ) : ℕ := if n ≤ 0 then 16384 else if 65536 < n then 65536 else n.toNat

/-- The page size of the scan. -/
def pageSize (scanLimit : ℕ) : ℕ := if scanLimit < 1024 then scanLimit else 1024

theorem clampMaxCount_pos (n : ℤ) : 0 < clampMaxCount n := by
  unfold clampMaxCount
  split
  · omega
  · split <;> omega

theorem clampScanLimit_pos (n : ℤ) : 0 < clampScanLimit n := by
  unfold clampScanLimit
  split
  · omega
  · split <;> omega

theorem pageSize_pos {n : ℕ} (h : 0 < n) : 0 < pageSize n := by
  unfold pageSize
  split <;> omega

/-- `Server.Fetch`; `none` is a panic of the ring's `Fetch`. -/
def fetch [Inhabited α] (peek : α → Option EnvelopePeek) (b : Broker α) (req : FetchRequest) :
    Option (Except Status (FetchResponse α)) :=
  if req.topic = "" then some (.error ⟨.invalidArgument, "topic is required"⟩)
  else if req.partition < 0 then some (.error ⟨.invalidArgument, "partition must be >= 0"⟩)
  else
    let info := (b.topicPartitionInfo req.topic req.partition).getD (0, 0)
    let response (msgs : List (Message α)) (next : ℤ) : FetchResponse α :=
      ⟨msgs.map (consumeMessage req.partition), next, info.1, info.2⟩
    -- A topic that does not exist yet has no partitions; the caller may poll.
    if (b.partitionCount req.topic : ℤ) ≤ req.partition then
      some (.ok (response [] req.fromOffset))
    else
      let maxCount := clampMaxCount req.maxCount
      match req.sessionFilter with
      | none =>
        (b.fetchPartition req.topic req.partition req.fromOffset maxCount).map fun msgs =>
          .ok (response msgs (req.fromOffset + msgs.length))
      | some filter =>
        let scanLimit := clampScanLimit req.scanLimit
        (scanLoop
          (fun offset => b.fetchPartition req.topic req.partition offset (pageSize scanLimit))
          (fun m => sessionFilterMatches peek m.payload (some filter))
          maxCount scanLimit info.2 (Scan.start req.fromOffset)).map fun s =>
            .ok (response s.out s.offset)

/-- A filtered call that returns something also returns an offset further on, whatever the partition
holds, and one that returns nothing does not go back. -/
theorem fetch_moves [Inhabited α] {peek : α → Option EnvelopePeek} {b : Broker α}
    {req : FetchRequest} {filter : SessionFilter} {r : FetchResponse α}
    (hfilter : req.sessionFilter = some filter) (h : fetch peek b req = some (.ok r)) :
    r.tail = ((b.topicPartitionInfo req.topic req.partition).getD (0, 0)).2 ∧
      (r.messages = [] ∧ r.nextOffset = req.fromOffset ∨ req.fromOffset < r.nextOffset) := by
  simp only [fetch, hfilter] at h
  split_ifs at h with htopic hpartition hmissing
  · cases h
  · cases h
  · cases h
    exact ⟨rfl, .inl ⟨rfl, rfl⟩⟩
  · obtain ⟨s, hs, hr⟩ := Option.map_eq_some_iff.mp h
    cases hr
    refine ⟨rfl, ?_⟩
    rcases scanLoop_moves hs with rfl | hlt
    · exact .inl ⟨rfl, rfl⟩
    · exact .inr hlt

/-- The messages of all pages: `fetch` is called again from `nextOffset` until that reaches the
tail.  `none` if `n` calls are not enough, or if one fails. -/
def paginate [Inhabited α] (peek : α → Option EnvelopePeek) (b : Broker α) :
    ℕ → FetchRequest → Option (List (ConsumeMessage α))
  | 0, _ => none
  | n + 1, req =>
    match fetch peek b req with
    | some (.ok r) =>
      if r.tail ≤ r.nextOffset then some r.messages
      else (paginate peek b n { req with fromOffset := r.nextOffset }).map (r.messages ++ ·)
    | _ => none

end AgentBus.Grpcapi
