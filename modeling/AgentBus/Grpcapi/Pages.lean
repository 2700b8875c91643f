import AgentBus.Grpcapi.Pagination

/-!
# Unfiltered pagination

Without a filter a page is one read of the ring.  The read starts at the head when the request is
older, but `next_offset` is counted from the requested offset.  A client that starts at the head or
later gets every retained message once and in order; one that starts below the head gets the
messages behind its first `next_offset` again, or, from an empty partition, never reaches the tail.

## Main results

* `fetch_unfiltered` — a page is one read of the ring.
* `paginate_from` — paging from the head on.
* `paginate_first`, `paginate_below` — the first message that paging returns, and paging from below
  the head.
-/

namespace AgentBus.Grpcapi

open Broker

variable {α : Type*}

variable [Inhabited α] {peek : α → Option EnvelopePeek} {b : Broker α} {req : FetchRequest}
  {t : Topic α} {ps : List α}

/-- A call without a filter is one read of the ring. -/
theorem fetch_unfiltered (peek : α → Option EnvelopePeek)
    (hserves : Serves b req.topic req.partition t) (hfilter : req.sessionFilter = none)
    (ht : t.Represents ps) :
    fetch peek b req = some (.ok
      { messages := (((Topic.log ps).drop (max req.fromOffset t.head).toNat).take
          (clampMaxCount req.maxCount)).map (consumeMessage req.partition)
        nextOffset := req.fromOffset +
          (min (clampMaxCount req.maxCount) (ps.length - (max req.fromOffset t.head).toNat) : ℕ)
        head := t.head
        tail := t.tail }) := by
  obtain ⟨hread, hinfo, hcount⟩ := hserves.calls
  simp [fetch, hserves.named, not_lt.mpr hserves.nonneg, hinfo, hcount, hfilter, hread,
    ht.fetch req.fromOffset (Int.natCast_nonneg (clampMaxCount req.maxCount))]

/-- **Paging from the head on** returns the rest of the log. -/
theorem paginate_from (hserves : Serves b req.topic req.partition t)
    (hfilter : req.sessionFilter = none) (ht : t.Represents ps)
    (hhead : (t.head : ℤ) ≤ req.fromOffset) :
    ∃ n, paginate peek b n req =
      some (((Topic.log ps).drop req.fromOffset.toNat).map (consumeMessage req.partition)) := by
  have htail := ht.tail
  have hcount := clampMaxCount_pos req.maxCount
  -- Every page that does not end at the tail is full, so the next one starts behind it.
  induction hd : (t.tail - req.fromOffset).toNat using Nat.strong_induction_on
    generalizing req with
  | _ d ih =>
    have hfetch := fetch_unfiltered peek hserves hfilter ht
    rw [max_eq_left hhead] at hfetch
    obtain ⟨o, ho⟩ := Int.eq_ofNat_of_zero_le ((Int.natCast_nonneg t.head).trans hhead)
    rw [ho, Int.toNat_natCast] at hfetch ⊢
    by_cases hlast : ps.length ≤ o + clampMaxCount req.maxCount
    · refine ⟨1, ?_⟩
      rw [List.take_of_length_le (by simp; omega)] at hfetch
      simp only [paginate, hfetch]
      rw [if_pos (by omega)]
    · obtain ⟨n, hn⟩ := @ih (t.tail - (o + clampMaxCount req.maxCount : ℕ) : ℤ).toNat (by omega)
        { req with fromOffset := (o + clampMaxCount req.maxCount : ℕ) } hserves hfilter
        (by dsimp only; omega) hcount rfl
      refine ⟨n + 1, ?_⟩
      rw [min_eq_left (by omega), ← Nat.cast_add] at hfetch
      simp only [Int.toNat_natCast] at hn
      simp only [paginate, hfetch, hn]
      rw [if_neg (by omega), Option.map_some, ← List.map_append, ← List.drop_drop,
        List.take_append_drop]

/-- The first message that paging returns is the oldest one that is asked for and retained. -/
theorem paginate_first {n : ℕ} {xs : List (ConsumeMessage α)}
    (h : paginate peek b n req = some xs) (hserves : Serves b req.topic req.partition t)
    (hfilter : req.sessionFilter = none) (ht : t.Represents ps) (hps : ps ≠ [])
    (hlt : req.fromOffset < t.tail) :
    xs.head?.map ConsumeMessage.offset = some (max req.fromOffset t.head) := by
  have htail := ht.tail
  have hhead := ht.head
  have hcap := t.cap_pos
  have hpos := List.length_pos_iff.mpr hps
  have hcount := clampMaxCount_pos req.maxCount
  obtain ⟨o, ho⟩ := Int.eq_ofNat_of_zero_le
    (le_max_of_le_right (Int.natCast_nonneg _) : 0 ≤ max req.fromOffset (t.head : ℤ))
  have holt : o < ps.length := by omega
  -- The page is not empty, and paging returns the page first.
  obtain ⟨page, hpage⟩ : ∃ page, ((Topic.log ps).drop o).take (clampMaxCount req.maxCount) =
      ⟨o, ps[o]⟩ :: page := by
    obtain ⟨k, hk⟩ := Nat.exists_eq_succ_of_ne_zero hcount.ne'
    rw [hk, List.drop_eq_getElem_cons (by simpa using holt), List.take_succ_cons]
    refine ⟨((Topic.log ps).drop (o + 1)).take k, ?_⟩
    simp [Topic.log]
  have hfetch := fetch_unfiltered peek hserves hfilter ht
  rw [ho, Int.toNat_natCast, hpage] at hfetch
  rw [ho]
  cases n with
  | zero => cases h
  | succ n =>
    simp only [paginate, hfetch] at h
    split at h
    · cases h
      rfl
    · obtain ⟨ys, -, rfl⟩ := Option.map_eq_some_iff.mp h
      rfl

/-- Paging from below the head does not return the retained messages: the second page starts with a
message of the first one, or there is no second page. -/
theorem paginate_below (hserves : Serves b req.topic req.partition t)
    (hfilter : req.sessionFilter = none) (ht : t.Represents ps) (hlt : req.fromOffset < t.head)
    (n : ℕ) :
    paginate peek b n req ≠
      some (((Topic.log ps).drop t.head).map (consumeMessage req.partition)) := by
  intro hn
  have htail := ht.tail
  have hhead := ht.head
  have hcap := t.cap_pos
  have hcount := clampMaxCount_pos req.maxCount
  have hfetch := fetch_unfiltered peek hserves hfilter ht
  rw [max_eq_right hlt.le, Int.toNat_natCast] at hfetch
  by_cases hps : ps = []
  · subst hps
    simp only [List.length_nil] at htail hhead hfetch
    rw [paginate_stuck hfetch (by simp) (by simp; omega)] at hn
    cases hn
  · have hpos := List.length_pos_iff.mpr hps
    cases n with
    | zero => cases hn
    | succ n =>
      simp only [paginate, hfetch] at hn
      rw [if_neg (by omega)] at hn
      obtain ⟨ys, hys, heq⟩ := Option.map_eq_some_iff.mp hn
      have hfirst := paginate_first hys hserves hfilter ht hps (by dsimp only; omega)
      have hrest : ys = (((Topic.log ps).drop t.head).drop (clampMaxCount req.maxCount)).map
          (consumeMessage req.partition) := by
        refine List.append_cancel_left (heq.trans ?_)
        rw [← List.map_append, List.take_append_drop]
      rw [hrest, List.drop_drop, List.head?_map, List.head?_drop, Topic.getElem?_log,
        Option.map_map, Option.map_map, Option.map_eq_some_iff] at hfirst
      obtain ⟨p, hp, hoffset⟩ := hfirst
      have hlast := (List.getElem?_eq_some_iff.mp hp).1
      simp only [Function.comp_apply, consumeMessage] at hoffset
      omega

/-- **Unfiltered pagination.**  Calling `Fetch` from the previous `next_offset` until it reaches the
tail returns every retained message from the start offset on, once and in increasing order, if and
only if the start offset is not below the head. -/
theorem unfiltered_pagination_iff (peek : α → Option EnvelopePeek) (b : Broker α)
    (req : FetchRequest) (cap : ℕ) (ps : List α)
    (hserves : Serves b req.topic req.partition ((newTopic cap).publishAll ps))
    (hfilter : req.sessionFilter = none) :
    (∃ n, paginate peek b n req = some
        (((Topic.log ps).filter fun m =>
            decide ((((newTopic cap).publishAll ps).head : ℤ) ≤ m.offset ∧
              req.fromOffset ≤ m.offset)).map (consumeMessage req.partition))) ↔
      (((newTopic cap).publishAll ps).head : ℤ) ≤ req.fromOffset := by
  have ht : ((newTopic cap : Topic α).publishAll ps).Represents ps :=
    (Topic.represents_newTopic cap).publishAll ps
  generalize (newTopic cap : Topic α).publishAll ps = t at hserves ht ⊢
  rw [filter_log_eq_drop]
  constructor
  · rintro ⟨n, hn⟩
    by_contra hlt
    rw [not_le] at hlt
    rw [max_eq_right hlt.le, Int.toNat_natCast] at hn
    exact paginate_below hserves hfilter ht hlt n hn
  · intro hle
    rw [max_eq_left hle]
    exact paginate_from hserves hfilter ht hle

/-- A broker over rings of one capacity with two messages in partition 0. -/
def twoMessages (cap : ℕ) : Broker ℕ :=
  let b := ((Broker.new cap).publishToPartition "t" 0 10).1
  (b.publishToPartition "t" 0 20).1

/-- A request without a filter from the first offset on. -/
def plainRequest : FetchRequest :=
  { topic := "t", partition := 0, fromOffset := 0, maxCount := 1, sessionFilter := none
    scanLimit := 0 }

/-- A ring of one message has dropped the first of two: paging from offset 0 returns the second one
twice. -/
theorem unfiltered_pagination_repeats :
    paginate (fun _ => none) (twoMessages 1) 2 plainRequest = some [⟨1, 20, 0⟩, ⟨1, 20, 0⟩] := by
  decide +kernel

/-- A ring that has dropped nothing: two pages of one message each. -/
theorem unfiltered_pagination_two :
    paginate (fun _ => none) (twoMessages 8) 2 plainRequest = some [⟨0, 10, 0⟩, ⟨1, 20, 0⟩] ∧
      ∃ n, paginate (fun _ => none) (twoMessages 8) n plainRequest = some
        (((Topic.log [10, 20]).filter fun m =>
            decide ((((newTopic 8).publishAll [10, 20]).head : ℤ) ≤ m.offset ∧
              plainRequest.fromOffset ≤ m.offset)).map
          (consumeMessage plainRequest.partition)) := by
  have hserves : Serves (twoMessages 8) "t" 0 ((newTopic 8).publishAll [10, 20]) :=
    ⟨by decide, by decide, _, rfl, rfl⟩
  refine ⟨by decide +kernel, ?_⟩
  exact (unfiltered_pagination_iff (fun _ => none) (twoMessages 8) plainRequest 8 [10, 20] hserves
    rfl).mpr (by decide)

end AgentBus.Grpcapi
