import AgentBus.Grpcapi.Fetch

/-!
# Filtered pagination

A client that pages through a partition with a session filter wants every match from its start
offset on, once and in order.  The scan takes the matches of a page until the response is full,
but moves its cursor by the whole page, and counts from an offset below the head although the
ring reads from the head.

What comes of it depends on where the matches lie.  The pages cut the offsets from the start on
into calls, `callsFrom`, and pagination is complete exactly when no call has more matches than a
response holds, and the page of a start below the head has no match that comes again
(`filtered_pagination_iff`).

## Main definitions

* `matchCount`, `pageEnd`, `callsFrom`, `HeadFits` — the condition.
* `Yields` — what is collected from a state of the scan on.
* `matchesFrom` — what ought to be.
-/

namespace AgentBus.Grpcapi

open Broker

variable {α : Type*}

/-- The retained messages from an offset on. -/
theorem filter_log_eq_drop (t : Topic α) (ps : List α) (c : ℤ) :
    (Topic.log ps).filter (fun m => decide ((t.head : ℤ) ≤ m.offset ∧ c ≤ m.offset)) =
      (Topic.log ps).drop (max c t.head).toNat := by
  rw [← Topic.filter_le_log]
  refine List.filter_congr fun m _ => decide_eq_decide.mpr ?_
  omega

/-- Two ways to split a list without duplicates are the same when the second part of the first
lies in that of the second, and none of it in a first part that is longer. -/
theorem append_eq_append_iff_of_nodup {β : Type*} {T D P R : List β} (hnd : (P ++ R).Nodup)
    (hsub : ∀ x ∈ D, x ∈ R) (hlong : P.length < T.length → ∃ x ∈ D, x ∈ T) :
    T ++ D = P ++ R ↔ T = P ∧ D = R := by
  constructor
  · intro h
    rcases List.append_eq_append_iff.mp h with ⟨as, rfl, rfl⟩ | ⟨cs, rfl, rfl⟩
    · cases as with
      | nil => simp
      | cons a as =>
        have ha := hsub a (by simp)
        exact absurd (List.disjoint_of_nodup_append hnd) fun hdis => hdis (by simp) ha
    · cases cs with
      | nil => simp
      | cons c cs =>
        obtain ⟨x, hxD, hxT⟩ := hlong (by simp)
        rw [← h] at hnd
        exact absurd (List.disjoint_of_nodup_append hnd) fun hdis => hdis hxT hxD
  · rintro ⟨rfl, rfl⟩
    rfl

/-! ## Where the calls end -/

/-- What paging reads and looks for: a ring and what was published to it, the messages that match,
and the bounds of a call on the messages it returns and looks at. -/
structure Paging (α : Type*) where
  ring : Topic α
  published : List α
  represents : ring.Represents published
  keep : Message α → Bool
  maxCount : ℕ
  scanLimit : ℕ
  maxCount_pos : 0 < maxCount
  scanLimit_pos : 0 < scanLimit

namespace Paging

variable (p : Paging α)

/-- The page size of a call. -/
def size : ℕ := pageSize p.scanLimit

/-- How many matches are still in the ring with offsets from `lo` on and below `hi`. -/
def matchCount (lo hi : ℤ) : ℕ :=
  (Topic.log p.published).countP fun m => decide (m.offset < hi) &&
    (decide ((p.ring.head : ℤ) ≤ m.offset ∧ lo ≤ m.offset) && p.keep m)

/-- Where the page at `c` takes the cursor: on by as many offsets as the ring has from there on,
or from its head on, and a page at most. -/
def pageEnd (c : ℤ) : ℤ := c + min (p.size : ℤ) (p.ring.tail - max c p.ring.head)

/-- Where the call that started at `a` ends if it gets to the page boundary `c`: at the first
boundary with `maxCount` matches or `scanLimit` offsets behind it, or no message before it. -/
def callEnd (a c : ℤ) : ℤ :=
  if p.matchCount a c < p.maxCount ∧ c - a < p.scanLimit ∧ c < p.ring.tail ∧ c < p.pageEnd c then
    callEnd a (p.pageEnd c)
  else c
termination_by (p.ring.tail - c).toNat

/-- The calls from `c` on: where each starts and where it ends. -/
def callsFrom (c : ℤ) : List (ℤ × ℤ) :=
  let next := p.callEnd c c
  if c < p.ring.tail ∧ c < next then (c, next) :: callsFrom next else []
termination_by (p.ring.tail - c).toNat

/-- The page of a cursor below the head is read from the head on.  It has no match beyond the
offsets the cursor moves past, or a response full of matches before them. -/
def HeadFits (c : ℤ) : Prop :=
  c < p.ring.head →
    p.matchCount (p.pageEnd c) (p.ring.head + p.size) = 0 ∨
      p.matchCount c (p.pageEnd c) = p.maxCount

instance (c : ℤ) : Decidable (p.HeadFits c) := inferInstanceAs (Decidable (_ → _))

/-- The page of a start below the head fits, and no call has more matches than a response. -/
structure Fits (start : ℤ) : Prop where
  head : p.HeadFits start
  calls : ∀ call ∈ p.callsFrom start, p.matchCount call.1 call.2 ≤ p.maxCount

variable {p}

variable {a c : ℤ}

@[simp] theorem callEnd_of_stopped
    (h : ¬ (p.matchCount a c < p.maxCount ∧ c - a < p.scanLimit ∧ c < p.ring.tail)) :
    p.callEnd a c = c := by
  rw [callEnd, if_neg fun hgo => h ⟨hgo.1, hgo.2.1, hgo.2.2.1⟩]

theorem le_callEnd (a c : ℤ) : c ≤ p.callEnd a c := by
  fun_induction callEnd with
  | case1 c going ih => exact going.2.2.2.le.trans ih
  | case2 c stopped => exact le_rfl

@[simp] theorem callsFrom_of_done (h : (p.ring.tail : ℤ) ≤ c) : p.callsFrom c = [] := by
  rw [callsFrom]
  exact if_neg fun hgo => absurd hgo.1 (not_lt.mpr h)

theorem headFits_of_done (h : (p.ring.tail : ℤ) ≤ c) : p.HeadFits c := by
  have hhead := p.represents.head
  have htail := p.represents.tail
  intro hlt
  omega

theorem matchCount_eq_zero {lo hi : ℤ} (h : hi ≤ p.ring.head ∨ hi ≤ lo) :
    p.matchCount lo hi = 0 := by
  rw [matchCount, List.countP_eq_zero]
  intro m _ hm
  simp only [Bool.and_eq_true, decide_eq_true_eq] at hm
  omega

/-- There is no match beyond the page of a cursor in the ring. -/
theorem matchCount_beyond (hhead : p.ring.head ≤ c) :
    p.matchCount (p.pageEnd c) (c + p.size) = 0 := by
  rw [matchCount, List.countP_eq_zero]
  intro m hm hmatch
  simp only [Bool.and_eq_true, decide_eq_true_eq] at hmatch
  unfold pageEnd at hmatch
  have hlast := Topic.offset_lt_of_mem_log hm
  have htail := p.represents.tail
  omega

theorem lt_pageEnd (hps : p.published ≠ []) (hc : c < p.ring.tail) : c < p.pageEnd c := by
  have hlen := List.length_pos_iff.mpr hps
  have hhead := p.represents.head
  have htail := p.represents.tail
  have hcap := p.ring.cap_pos
  have hsize := pageSize_pos p.scanLimit_pos
  rw [pageEnd, size]
  omega

/-- A call below the tail moves on. -/
theorem callsFrom_of_lt (hps : p.published ≠ []) (hc : c < p.ring.tail) :
    p.callsFrom c = (c, p.callEnd c c) :: p.callsFrom (p.callEnd c c) := by
  have hlimit := p.scanLimit_pos
  have hzero : p.matchCount c c = 0 := matchCount_eq_zero (.inr le_rfl)
  have hmoves : c < p.callEnd c c := by
    rw [callEnd, if_pos ⟨hzero ▸ p.maxCount_pos, by omega, hc, lt_pageEnd hps hc⟩]
    exact (lt_pageEnd hps hc).trans_le (le_callEnd _ _)
  rw [callsFrom]
  exact if_pos ⟨hc, hmoves⟩

/-! ## What is collected, against the log -/

variable (p) in
/-- The matches still in the ring from a cursor on. -/
def matchesFrom (c : ℤ) : List (Message α) :=
  ((Topic.log p.published).drop (max c p.ring.head).toNat).filter p.keep

/-- The retained matches from an offset on. -/
theorem filter_log_eq_matchesFrom (c : ℤ) :
    (Topic.log p.published).filter (fun m =>
        decide ((p.ring.head : ℤ) ≤ m.offset ∧ c ≤ m.offset) && p.keep m) = p.matchesFrom c := by
  rw [matchesFrom, ← filter_log_eq_drop, List.filter_filter]
  simp only [Bool.and_comm]

@[simp] theorem matchesFrom_of_done (h : (p.ring.tail : ℤ) ≤ c) : p.matchesFrom c = [] := by
  have htail := p.represents.tail
  rw [matchesFrom, List.drop_eq_nil_of_le (by simp; omega), List.filter_nil]

theorem nodup_matchesFrom (c : ℤ) : (p.matchesFrom c).Nodup :=
  ((Topic.nodup_log p.published).sublist (List.drop_sublist _ _)).filter _

theorem length_matchesFrom {b : ℤ} (h : a ≤ b) :
    (p.matchesFrom a).length = p.matchCount a b + (p.matchesFrom b).length := by
  have hrest : (p.matchesFrom b).length =
      (p.matchesFrom a).countP fun m => ¬ decide (m.offset < b) = true := by
    rw [← filter_log_eq_matchesFrom, ← filter_log_eq_matchesFrom, List.countP_filter,
      ← List.countP_eq_length_filter]
    refine List.countP_congr fun m _ => ?_
    simp only [Bool.and_eq_true, decide_eq_true_eq]
    constructor <;> rintro ⟨h₁, h₂⟩ <;> grind
  rw [hrest, List.length_eq_countP_add_countP fun m => decide (m.offset < b),
    matchCount, ← List.countP_filter, filter_log_eq_matchesFrom]

theorem matchCount_add {b : ℤ} (h : a ≤ b) (h' : b ≤ c) :
    p.matchCount a c = p.matchCount a b + p.matchCount b c := by
  have hfirst := length_matchesFrom (p := p) h
  have hsecond := length_matchesFrom (p := p) h'
  have hlong := length_matchesFrom (p := p) (h.trans h')
  omega

section Page

variable {c : ℤ} {msgs : List (Message α)} (read : p.ring.fetch c p.size = some msgs)

include read

/-- A page is the stretch of the log from the clamped cursor on. -/
theorem page_eq : msgs = ((Topic.log p.published).drop (max c p.ring.head).toNat).take p.size := by
  rw [p.represents.fetch c (by omega), Int.toNat_natCast] at read
  exact (Option.some.inj read).symm

theorem length_page :
    msgs.length = min p.size (p.published.length - (max c (p.ring.head : ℤ)).toNat) := by
  rw [page_eq read]
  simp

theorem pageEnd_eq (hc : c < p.ring.tail) : p.pageEnd c = c + msgs.length := by
  have hlen := length_page read
  have htail := p.represents.tail
  have hhead := p.represents.head
  rw [pageEnd]
  omega

/-- A page below the tail is not empty. -/
theorem page_ne_nil (hps : p.published ≠ []) (hc : c < p.ring.tail) : msgs ≠ [] := by
  rintro rfl
  have hlt := lt_pageEnd hps hc
  rw [pageEnd_eq read hc] at hlt
  simp at hlt

/-- The matches of a page come first. -/
theorem matchesFrom_page :
    p.matchesFrom c = msgs.filter p.keep ++ p.matchesFrom (max c p.ring.head + p.size) := by
  have hnext : (max (max c (p.ring.head : ℤ) + p.size) (p.ring.head : ℤ)).toNat =
      (max c (p.ring.head : ℤ)).toNat + p.size := by omega
  rw [page_eq read, matchesFrom, matchesFrom, hnext, ← List.drop_drop, ← List.filter_append,
    List.take_append_drop]

/-- The matches its cursor moves past come before the rest. -/
theorem matchesFrom_split :
    p.matchesFrom c =
      msgs.filter (fun m => p.keep m && decide (m.offset < c + msgs.length)) ++
        p.matchesFrom (c + msgs.length) := by
  have hmsgs := page_eq read
  have hlen := length_page read
  have hpassed : msgs.filter (fun m => p.keep m && decide (m.offset < c + msgs.length)) =
      (((Topic.log p.published).drop (max c p.ring.head).toNat).take
        (min p.size (c + msgs.length - (max c p.ring.head).toNat).toNat)).filter p.keep := by
    rw [← Topic.filter_lt_drop_log, ← hmsgs, List.filter_filter]
  have hnext : (max (c + msgs.length) (p.ring.head : ℤ)).toNat = (max c (p.ring.head : ℤ)).toNat +
      min p.size (c + msgs.length - (max c (p.ring.head : ℤ)).toNat).toNat := by omega
  rw [hpassed, matchesFrom, matchesFrom, hnext, ← List.drop_drop, ← List.filter_append,
    List.take_append_drop]

/-- How many matches of a page its cursor moves past, and how many it has in all. -/
theorem length_filter_page (hc : c < p.ring.tail) :
    (msgs.filter fun m => p.keep m && decide (m.offset < c + msgs.length)).length =
        p.matchCount c (p.pageEnd c) ∧
      (msgs.filter p.keep).length = p.matchCount c (p.pageEnd c) +
        p.matchCount (p.pageEnd c) (max c p.ring.head + p.size) := by
  have hend := pageEnd_eq read hc
  have hlen := length_page read
  have hpassed := congrArg List.length (matchesFrom_split read)
  have hpage := congrArg List.length (matchesFrom_page read)
  rw [List.length_append, ← hend, length_matchesFrom (b := p.pageEnd c) (by omega)] at hpassed
  rw [List.length_append, length_matchesFrom (b := max c p.ring.head + p.size) (by omega),
    matchCount_add (b := p.pageEnd c) (by omega) (by omega)] at hpage
  exact ⟨by rw [← hend]; omega, by omega⟩

/-- The matches its cursor moves past are the first of the page. -/
theorem prefix_passed (hc : c < p.ring.tail) :
    (msgs.filter fun m => p.keep m && decide (m.offset < c + msgs.length)) <+:
      msgs.filter p.keep := by
  obtain ⟨hpassed, hpage⟩ := length_filter_page read hc
  exact List.prefix_of_prefix_length_le (matchesFrom_split read ▸ List.prefix_append _ _)
    (matchesFrom_page read ▸ List.prefix_append _ _) (by omega)

/-- What is taken of a page is what its cursor moves past if no other match is taken: there is
none, or no room for it. -/
theorem take_eq_passed_iff (hc : c < p.ring.tail) (n : ℕ) :
    (msgs.filter p.keep).take n =
        (msgs.filter fun m => p.keep m && decide (m.offset < c + msgs.length)) ↔
      p.matchCount c (p.pageEnd c) = n ∨
        p.matchCount c (p.pageEnd c) ≤ n ∧
          p.matchCount (p.pageEnd c) (max c p.ring.head + p.size) = 0 := by
  obtain ⟨hpassed, hpage⟩ := length_filter_page read hc
  rw [List.prefix_iff_eq_take.mp (prefix_passed read hc), List.take_eq_take_iff, hpassed, hpage]
  omega

variable {a : ℤ} {k : ℕ} (hroom : k < p.maxCount) (hlt : c < p.pageEnd c)

include hroom hlt

/-- What is taken of a page is what its cursor moves past, if the call has no more matches by then
than the response holds, and the page fits if it is one at the head. -/
theorem take_eq_passed_iff_headFits (hc : c < p.ring.tail) (ha : a ≤ c)
    (hk : k = p.matchCount a c) :
    (msgs.filter p.keep).take (p.maxCount - k) =
        (msgs.filter fun m => p.keep m && decide (m.offset < c + msgs.length)) ↔
      p.HeadFits c ∧ p.matchCount a (p.pageEnd c) ≤ p.maxCount := by
  rw [take_eq_passed_iff read hc, matchCount_add ha hlt.le, ← hk, HeadFits]
  by_cases hhead : (p.ring.head : ℤ) ≤ c
  · have hover := matchCount_beyond hhead
    rw [max_eq_left hhead]
    omega
  · -- below the head nothing has been taken yet
    have hnone : p.matchCount a c = 0 := matchCount_eq_zero (.inl (by omega))
    rw [max_eq_right (by omega)]
    omega

/-- If its cursor is below the head after a page of which all that is taken is passed, the page had
no match. -/
theorem headFits_pageEnd (hc : c < p.ring.tail)
    (htake : (msgs.filter p.keep).take (p.maxCount - k) =
      (msgs.filter fun m => p.keep m && decide (m.offset < c + msgs.length))) :
    p.HeadFits (p.pageEnd c) := by
  intro hbelow
  have hnone : p.matchCount c (p.pageEnd c) = 0 := matchCount_eq_zero (.inl (by omega))
  rw [take_eq_passed_iff read hc, hnone, max_eq_right (by omega)] at htake
  have hnext : p.pageEnd c ≤ p.pageEnd (p.pageEnd c) ∧
      p.pageEnd (p.pageEnd c) ≤ p.ring.head + p.size := by
    unfold pageEnd at *
    omega
  have hadd := matchCount_add (p := p) hnext.1 hnext.2
  omega

end Page

/-! ## The scan across calls -/

variable (p) in
/-- `Yields s ms`: from `s` on, the calls collect `ms`. -/
inductive Yields : Scan α → List (Message α) → Prop
  | done {s : Scan α} (h : (p.ring.tail : ℤ) ≤ s.offset) : Yields s []
  | page {s : Scan α} {msgs ms : List (Message α)}
      (going : s.Going p.maxCount p.scanLimit p.ring.tail)
      (read : p.ring.fetch s.offset p.size = some msgs)
      (h : Yields (s.page p.keep p.maxCount msgs) ms) :
      Yields s ((msgs.filter p.keep).take (p.maxCount - s.out.length) ++ ms)
  | call {s : Scan α} {ms : List (Message α)}
      (stopped : ¬ s.Going p.maxCount p.scanLimit p.ring.tail) (more : s.offset < p.ring.tail)
      (h : Yields (Scan.start s.offset) ms) : Yields s ms

variable {s : Scan α} {ms : List (Message α)}

/-- What is collected from a cursor on is among the matches. -/
theorem Yields.subset (h : p.Yields s ms) : ∀ m ∈ ms, m ∈ p.matchesFrom s.offset := by
  induction h with
  | done h => simp
  | @page s msgs ms going read h ih =>
    intro m hm
    rcases List.mem_append.mp hm with hm | hm
    · rw [matchesFrom_page read]
      exact List.mem_append_left _ (List.mem_of_mem_take hm)
    · rw [matchesFrom_split read, ← Scan.page_offset p.keep msgs going.1]
      exact List.mem_append_right _ (ih m hm)
  | call stopped more h ih => exact ih

/-- The first match from a cursor on is collected if it is within a page. -/
theorem Yields.first (h : p.Yields s ms) {x : Message α} {rest : List (Message α)}
    (hx : p.matchesFrom s.offset = x :: rest)
    (hnear : x.offset < max s.offset p.ring.head + p.size) : x ∈ ms := by
  induction h with
  | done h =>
    rw [matchesFrom_of_done h] at hx
    cases hx
  | @page s msgs ms going read h ih =>
    have hroom := going.1
    rw [matchesFrom_page read] at hx
    cases hmsgs : msgs.filter p.keep with
    | nil =>
      have hmem : x ∈ p.matchesFrom (max s.offset p.ring.head + p.size) := by
        rw [hmsgs, List.nil_append] at hx
        simp [hx]
      have := Topic.le_offset_of_mem_drop_log (List.mem_filter.mp hmem).1
      omega
    | cons y ys =>
      rw [hmsgs, List.cons_append, List.cons.injEq] at hx
      obtain ⟨n, hn⟩ := Nat.exists_eq_add_of_lt hroom
      rw [show p.maxCount - s.out.length = n + 1 by omega, List.take_succ_cons, hx.1]
      simp
  | call stopped more h ih => exact ih hx hnear

/-- A page of which more is taken than its cursor moves past: the next page takes some of it
again. -/
theorem taken_overlaps {msgs : List (Message α)}
    (going : s.Going p.maxCount p.scanLimit p.ring.tail)
    (read : p.ring.fetch s.offset p.size = some msgs)
    (h : p.Yields (s.page p.keep p.maxCount msgs) ms)
    (hlong : (msgs.filter fun m => p.keep m && decide (m.offset < s.offset + msgs.length)).length <
      ((msgs.filter p.keep).take (p.maxCount - s.out.length)).length) :
    ∃ x ∈ ms, x ∈ (msgs.filter p.keep).take (p.maxCount - s.out.length) := by
  have hpage := matchesFrom_page read
  have hsplit := matchesFrom_split read
  obtain ⟨tl, htl⟩ := prefix_passed read going.2.2
  set passed := msgs.filter fun m => p.keep m && decide (m.offset < s.offset + msgs.length)
  rw [List.length_take] at hlong
  rw [← htl] at hlong hpage ⊢
  cases tl with
  | nil => simp at hlong
  | cons x tl =>
    refine ⟨x, ?_, ?_⟩
    · have hnext : p.matchesFrom (s.page p.keep p.maxCount msgs).offset =
          x :: (tl ++ p.matchesFrom (max s.offset p.ring.head + p.size)) := by
        rw [Scan.page_offset p.keep msgs going.1]
        rw [hsplit, List.append_assoc] at hpage
        exact List.append_cancel_left hpage
      have hmem : x ∈ msgs := List.mem_of_mem_filter (htl ▸ by simp : x ∈ msgs.filter p.keep)
      rw [page_eq read] at hmem
      have := Topic.offset_of_mem_drop_log hmem
      refine h.first hnext ?_
      rw [Scan.page_offset p.keep msgs going.1]
      omega
    · rw [List.take_append, List.mem_append]
      obtain ⟨n, hn⟩ : ∃ n, p.maxCount - s.out.length - passed.length = n + 1 :=
        ⟨p.maxCount - s.out.length - passed.length - 1, by omega⟩
      rw [hn]
      simp

/-- **What is collected is what ought to be exactly when no call has too many matches.**  The state
`s` is one of a call that started at `a`, and has all that call's matches so far. -/
theorem Yields.eq_iff (hps : p.published ≠ []) (h : p.Yields s ms) (ha : a ≤ s.offset)
    (hout : s.out.length = p.matchCount a s.offset) (hroom : s.out.length ≤ p.maxCount)
    (hscanned : s.out.length < p.maxCount → (s.scanned : ℤ) = s.offset - a) :
    ms = p.matchesFrom s.offset ↔
      p.HeadFits s.offset ∧
        ∀ call ∈ (a, p.callEnd a s.offset) :: p.callsFrom (p.callEnd a s.offset),
          p.matchCount call.1 call.2 ≤ p.maxCount := by
  induction h generalizing a with
  | @done s h =>
    have hend : p.callEnd a s.offset = s.offset :=
      callEnd_of_stopped fun hgo => absurd hgo.2.2 (not_lt.mpr h)
    refine iff_of_true (matchesFrom_of_done h).symm ⟨headFits_of_done h, ?_⟩
    simpa [hend, callsFrom_of_done h, ← hout] using hroom
  | @page s msgs ms going read h ih =>
    have hc := going.2.2
    have hlt := lt_pageEnd hps hc
    have hnext : (s.page p.keep p.maxCount msgs).offset = p.pageEnd s.offset := by
      rw [Scan.page_offset p.keep msgs going.1, pageEnd_eq read hc]
    have hlooked := hscanned going.1
    have hend : p.callEnd a s.offset = p.callEnd a (p.pageEnd s.offset) := by
      have hbudget := going.2.1
      rw [callEnd, if_pos ⟨hout ▸ going.1, by omega, hc, hlt⟩]
    have hpass := take_eq_passed_iff_headFits read going.1 hlt hc ha hout
    -- a page that is taken as far as it is passed leaves the next state as this one
    have hrest (htake : (msgs.filter p.keep).take (p.maxCount - s.out.length) =
        msgs.filter fun m => p.keep m && decide (m.offset < s.offset + msgs.length)) :=
      ih (a := a) (by omega) (by
        rw [Scan.page_out p.keep msgs going.1, htake, List.length_append, hout, hnext,
          (length_filter_page read hc).1, ← matchCount_add ha hlt.le]) (by
        rw [Scan.page_out p.keep msgs going.1, List.length_append, List.length_take]
        omega) (fun hmore => by
        rw [Scan.page_scanned p.keep msgs going.1 hmore, hnext, pageEnd_eq read hc]
        omega)
    have hnd := nodup_matchesFrom (p := p) s.offset
    have hsub := h.subset
    rw [Scan.page_offset p.keep msgs going.1] at hsub
    rw [matchesFrom_split read] at hnd ⊢
    rw [append_eq_append_iff_of_nodup hnd hsub (taken_overlaps going read h), hend,
      ← pageEnd_eq read hc]
    rw [hnext] at hrest
    rw [← pageEnd_eq read hc] at hpass hrest
    constructor
    · rintro ⟨htake, hms⟩
      exact ⟨(hpass.mp htake).1, ((hrest htake).mp hms).2⟩
    · rintro ⟨hfits, hcalls⟩
      have hfirst := hcalls _ List.mem_cons_self
      rw [matchCount_add (ha.trans hlt.le) (le_callEnd _ _)] at hfirst
      have htake := hpass.mpr ⟨hfits, (Nat.le_add_right _ _).trans hfirst⟩
      have hfits' := headFits_pageEnd read going.1 hlt hc (pageEnd_eq read hc ▸ htake)
      exact ⟨htake, (hrest htake).mpr ⟨hfits', hcalls⟩⟩
  | @call s ms stopped more h ih =>
    have hend : p.callEnd a s.offset = s.offset := by
      refine callEnd_of_stopped fun hgo => stopped ⟨hout ▸ hgo.1, ?_, more⟩
      have := hscanned (hout ▸ hgo.1)
      omega
    have hzero : p.matchCount s.offset s.offset = 0 := matchCount_eq_zero (.inr le_rfl)
    have hstart := ih (a := s.offset) le_rfl (by simp [Scan.start, hzero]) (by simp [Scan.start])
      (by simp [Scan.start])
    rw [hend, List.forall_mem_cons, callsFrom_of_lt hps more]
    simpa [Scan.start, ← hout, hroom] using hstart

theorem fits_of_done (h : (p.ring.tail : ℤ) ≤ c) : p.Fits c :=
  ⟨headFits_of_done h, by simp [callsFrom_of_done h]⟩

/-- What a client collects from an offset on is what ought to be exactly when it fits. -/
theorem Yields.eq_iff_fits (hps : p.published ≠ []) (h : p.Yields (Scan.start c) ms) :
    ms = p.matchesFrom c ↔ p.Fits c := by
  have hzero : p.matchCount c c = 0 := matchCount_eq_zero (.inr le_rfl)
  have hiff := h.eq_iff hps (a := c) le_rfl (by simp [Scan.start, hzero]) (by simp [Scan.start])
    (by simp [Scan.start])
  simp only [Scan.start] at hiff
  by_cases hmore : c < p.ring.tail
  · rw [← callsFrom_of_lt hps hmore] at hiff
    exact hiff.trans ⟨fun h => ⟨h.1, h.2⟩, fun h => ⟨h.1, h.2⟩⟩
  · have hdone := not_lt.mp hmore
    refine iff_of_true (hiff.mpr ⟨headFits_of_done hdone, ?_⟩) (fits_of_done hdone)
    rw [callEnd_of_stopped fun hgo => hmore hgo.2.2]
    simp [callsFrom_of_done hdone, hzero]

/-- **The scan of one call.**  It ends, further on than it started, and what it adds to the
response is what the run collects meanwhile. -/
theorem scanLoop_spec (hps : p.published ≠ []) (s : Scan α) :
    ∃ s', scanLoop (fun c => p.ring.fetch c p.size) p.keep p.maxCount p.scanLimit p.ring.tail s =
        some s' ∧
      ¬ s'.Going p.maxCount p.scanLimit p.ring.tail ∧
      (s.Going p.maxCount p.scanLimit p.ring.tail → s.offset < s'.offset) ∧
      ∃ taken, s'.out = s.out ++ taken ∧
        ∀ ms, p.Yields s' ms → p.Yields s (taken ++ ms) := by
  fun_induction scanLoop with
  | case1 s going read =>
    rw [p.represents.fetch s.offset (by omega)] at read
    cases read
  | case2 s going read => exact absurd rfl (page_ne_nil read hps going.2.2)
  | case3 s going m ms read ih =>
    obtain ⟨s', hloop, hstop, hgo, taken, hout, hyields⟩ := ih
    have hoff := Scan.page_offset p.keep (m :: ms) going.1
    have hout' := Scan.page_out p.keep (m :: ms) going.1
    refine ⟨s', hloop, hstop, ?_, _, by rw [hout, hout', List.append_assoc], ?_⟩
    · intro _
      have hle : (s.page p.keep p.maxCount (m :: ms)).offset ≤ s'.offset := by
        rcases scanLoop_moves hloop with rfl | hlt
        · exact le_rfl
        · exact hlt.le
      rw [hoff, List.length_cons] at hle
      omega
    · intro rest hrest
      rw [List.append_assoc]
      exact .page going read (hyields rest hrest)
  | case4 s stopped => exact ⟨s, rfl, stopped, fun h => absurd h stopped, [], by simp, by simp⟩

end Paging

/-! ## The calls -/

section Calls

variable [Inhabited α] {b : Broker α} {req : FetchRequest} {filter : SessionFilter} {t : Topic α}

/-- The broker holds the partition as the ring `t`. -/
structure Serves (b : Broker α) (topic : String) (partition : ℤ) (t : Topic α) : Prop where
  named : topic ≠ ""
  nonneg : 0 ≤ partition
  found : ∃ set, b.topics topic = some set ∧ set.partitions[partition.toNat]? = some t

/-- The messages a filter lets through. -/
def keeps (peek : α → Option EnvelopePeek) (filter : SessionFilter) (m : Message α) : Bool :=
  sessionFilterMatches peek m.payload (some filter)

/-- What the calls of `Fetch` to the broker answer. -/
theorem Serves.calls {topic : String} {partition : ℤ} (h : Serves b topic partition t) :
    (∀ c n : ℤ, b.fetchPartition topic partition c n = t.fetch c n) ∧
      b.topicPartitionInfo topic partition = some (t.head, t.tail) ∧
      ¬ (b.partitionCount topic : ℤ) ≤ partition := by
  obtain ⟨set, hset, ht⟩ := h.found
  have hnonneg := h.nonneg
  have hlt : partition.toNat < set.partitions.length := (List.getElem?_eq_some_iff.mp ht).1
  refine ⟨?_, ?_, ?_⟩
  · intro c n
    simp [Broker.fetchPartition, Broker.getOrCreate, hset, ht, not_lt.mpr hnonneg]
  · simp [Broker.topicPartitionInfo, hset, ht, not_lt.mpr hnonneg]
  · simp only [Broker.partitionCount, hset]
    omega

/-- A filtered call is a scan of the ring. -/
theorem fetch_filtered (peek : α → Option EnvelopePeek)
    (hserves : Serves b req.topic req.partition t) (hfilter : req.sessionFilter = some filter) :
    fetch peek b req =
      (scanLoop (fun c => t.fetch c (pageSize (clampScanLimit req.scanLimit))) (keeps peek filter)
        (clampMaxCount req.maxCount) (clampScanLimit req.scanLimit) t.tail
        (Scan.start req.fromOffset)).map fun s =>
          .ok ⟨s.out.map (consumeMessage req.partition), s.offset, t.head, t.tail⟩ := by
  obtain ⟨hread, hinfo, hcount⟩ := hserves.calls
  simp only [fetch, if_neg hserves.named, if_neg (not_lt.mpr hserves.nonneg), hinfo,
    Option.getD_some, if_neg hcount, hfilter, hread]
  rfl

variable {peek : α → Option EnvelopePeek}

/-- More calls do not change the result. -/
theorem paginate_unique {n m : ℕ} {xs ys : List (ConsumeMessage α)}
    (hx : paginate peek b n req = some xs) (hy : paginate peek b m req = some ys) : xs = ys := by
  induction n generalizing m req xs ys with
  | zero => cases hx
  | succ n ih =>
    cases m with
    | zero => cases hy
    | succ m =>
      rw [paginate] at hx hy
      split at hx
      · rename_i r hr
        simp only [hr] at hy
        split at hx
        · rename_i hdone
          rw [if_pos hdone] at hy
          cases hx
          cases hy
          rfl
        · rename_i hmore
          rw [if_neg hmore] at hy
          obtain ⟨xs', hx', rfl⟩ := Option.map_eq_some_iff.mp hx
          obtain ⟨ys', hy', rfl⟩ := Option.map_eq_some_iff.mp hy
          rw [ih hx' hy']
      · cases hx

/-- Paging that does not get on never ends. -/
theorem paginate_stuck {r : FetchResponse α} (hfetch : fetch peek b req = some (.ok r))
    (hnext : r.nextOffset = req.fromOffset) (hmore : r.nextOffset < r.tail) (n : ℕ) :
    paginate peek b n req = none := by
  rw [hnext] at hmore
  induction n with
  | zero => rfl
  | succ n ih => simp [paginate, hfetch, hnext, hmore, ih]

/-- Paging from the tail on: one call that returns nothing. -/
theorem paginate_done (hserves : Serves b req.topic req.partition t)
    (hfilter : req.sessionFilter = some filter) (hdone : (t.tail : ℤ) ≤ req.fromOffset) :
    paginate peek b 1 req = some [] := by
  have hstop : ¬ (Scan.start req.fromOffset : Scan α).Going (clampMaxCount req.maxCount)
      (clampScanLimit req.scanLimit) t.tail := by
    rintro ⟨-, -, hlt⟩
    simp only [Scan.start] at hlt
    omega
  rw [paginate, fetch_filtered peek hserves hfilter, scanLoop, dif_neg hstop]
  simp [Scan.start, hdone]

/-- Paging from below the tail of an empty partition never ends. -/
theorem paginate_empty {cap : ℕ} (hserves : Serves b req.topic req.partition (newTopic cap))
    (hfilter : req.sessionFilter = some filter) (hneg : req.fromOffset < 0) (n : ℕ) :
    paginate peek b n req = none := by
  have ht := Topic.represents_newTopic (α := α) cap
  have htail : ((newTopic cap : Topic α).tail : ℤ) = 0 := congrArg _ ht.tail
  have hgoing : (Scan.start req.fromOffset : Scan α).Going (clampMaxCount req.maxCount)
      (clampScanLimit req.scanLimit) (newTopic cap : Topic α).tail :=
    ⟨clampMaxCount_pos _, clampScanLimit_pos _, htail ▸ hneg⟩
  have hread := ht.fetch req.fromOffset
    (Int.natCast_nonneg (pageSize (clampScanLimit req.scanLimit)))
  have hfetch := fetch_filtered peek hserves hfilter
  rw [scanLoop, dif_pos hgoing] at hfetch
  simp only [Scan.start, hread, Topic.log, List.mapIdx_nil, List.drop_nil, List.take_nil,
    Option.map_some, List.map_nil] at hfetch
  exact paginate_stuck hfetch rfl (htail ▸ hneg) n

/-- The paging of a request through a ring that messages were published to. -/
def FetchRequest.paging (req : FetchRequest) (peek : α → Option EnvelopePeek)
    (filter : SessionFilter) (cap : ℕ) (ps : List α) : Paging α where
  ring := (newTopic cap).publishAll ps
  published := ps
  represents := (Topic.represents_newTopic cap).publishAll ps
  keep := keeps peek filter
  maxCount := clampMaxCount req.maxCount
  scanLimit := clampScanLimit req.scanLimit
  maxCount_pos := clampMaxCount_pos _
  scanLimit_pos := clampScanLimit_pos _

/-- **Paging ends**, and what it returns is what the run collects. -/
theorem paginate_yields (peek : α → Option EnvelopePeek) (req : FetchRequest) {cap : ℕ}
    {ps : List α}
    (hserves : Serves b req.topic req.partition ((newTopic cap).publishAll ps))
    (hfilter : req.sessionFilter = some filter) (hps : ps ≠ []) :
    ∃ n ms, paginate peek b n req = some (ms.map (consumeMessage req.partition)) ∧
      (req.paging peek filter cap ps).Yields (Scan.start req.fromOffset) ms := by
  obtain ⟨tail, htail⟩ : ∃ tail : ℤ, ((newTopic cap : Topic α).publishAll ps).tail = tail :=
    ⟨_, rfl⟩
  induction hd : (tail - req.fromOffset).toNat using Nat.strong_induction_on
    generalizing req with
  | _ d ih =>
    by_cases hdone : tail ≤ req.fromOffset
    · exact ⟨1, [], paginate_done hserves hfilter (htail ▸ hdone), .done (htail ▸ hdone)⟩
    · obtain ⟨s', hloop, hstop, hgo, taken, hout, hyields⟩ :=
        (req.paging peek filter cap ps).scanLoop_spec hps (Scan.start req.fromOffset)
      have hlt := hgo ⟨clampMaxCount_pos _, clampScanLimit_pos _, htail ▸ not_le.mp hdone⟩
      simp only [Scan.start, List.nil_append] at hout hlt
      have hfetch := (fetch_filtered peek hserves hfilter).trans (congrArg _ hloop)
      rw [Option.map_some, htail] at hfetch
      by_cases hmore : tail ≤ s'.offset
      · refine ⟨1, taken, ?_, ?_⟩
        · simp [paginate, hfetch, hmore, hout]
        · simpa using hyields [] (.done (htail ▸ hmore))
      · obtain ⟨n, ms, hn, hms⟩ := ih (tail - s'.offset).toNat (by omega)
          { req with fromOffset := s'.offset } hserves hfilter rfl
        refine ⟨n + 1, taken ++ ms, ?_, hyields ms (.call hstop (htail ▸ not_le.mp hmore) hms)⟩
        simp [paginate, hfetch, hmore, hout, hn]

end Calls

theorem consumeMessage_map_injective (partition : ℤ) :
    Function.Injective (List.map (consumeMessage partition : Message α → ConsumeMessage α)) := by
  apply List.map_injective_iff.mpr
  rintro ⟨o, p⟩ ⟨o', p'⟩ h
  cases h
  rfl

/-- **Filtered pagination.**  Calling `Fetch` from the previous `next_offset` until it reaches the
tail returns every retained match from the start offset on, once and in order, if and only if
the partition is not empty or the start is not negative, none of the calls its offsets are cut into
has more matches than a response holds, and a start below the head fits. -/
theorem filtered_pagination_iff [Inhabited α] (peek : α → Option EnvelopePeek) (b : Broker α)
    (req : FetchRequest) (filter : SessionFilter) (cap : ℕ) (ps : List α)
    (hserves : Serves b req.topic req.partition ((newTopic cap).publishAll ps))
    (hfilter : req.sessionFilter = some filter) :
    (∃ n, paginate peek b n req = some
        (((Topic.log ps).filter fun m =>
            decide ((((newTopic cap).publishAll ps).head : ℤ) ≤ m.offset ∧
                req.fromOffset ≤ m.offset) &&
              sessionFilterMatches peek m.payload (some filter)).map
          (consumeMessage req.partition))) ↔
      (ps ≠ [] ∨ 0 ≤ req.fromOffset) ∧
        (req.paging peek filter cap ps).Fits req.fromOffset := by
  have hmatches : (Topic.log ps).filter (fun m =>
      decide ((((newTopic cap).publishAll ps).head : ℤ) ≤ m.offset ∧
        req.fromOffset ≤ m.offset) && sessionFilterMatches peek m.payload (some filter)) =
      (req.paging peek filter cap ps).matchesFrom req.fromOffset :=
    (req.paging peek filter cap ps).filter_log_eq_matchesFrom req.fromOffset
  rw [hmatches]
  by_cases hps : ps = []
  · subst hps
    by_cases hneg : req.fromOffset < 0
    · simp [paginate_empty hserves hfilter hneg, not_le.mpr hneg]
    · have hdone : ((newTopic cap : Topic α).tail : ℤ) ≤ req.fromOffset := not_lt.mp hneg
      refine iff_of_true ⟨1, ?_⟩ ⟨.inr (not_lt.mp hneg), Paging.fits_of_done hdone⟩
      rw [paginate_done hserves hfilter hdone, Paging.matchesFrom_of_done hdone, List.map_nil]
  · obtain ⟨n, ms, hpages, hyields⟩ := paginate_yields peek req hserves hfilter hps
    rw [and_iff_right (.inl hps), ← hyields.eq_iff_fits hps]
    constructor
    · rintro ⟨m, hm⟩
      exact consumeMessage_map_injective req.partition (paginate_unique hpages hm)
    · rintro rfl
      exact ⟨n, hpages⟩

/-- An event of session `s`. -/
def sessionEvent : EnvelopePeek := ⟨"acme", "p", "s"⟩

/-- A broker over rings of one capacity with two events of session `s` in partition 0. -/
def twoEvents (cap : ℕ) : Broker EnvelopePeek :=
  let b := ((Broker.new cap).publishToPartition "agent-events" 0 sessionEvent).1
  (b.publishToPartition "agent-events" 0 sessionEvent).1

/-- A request for session `s` from the first offset on. -/
def sessionRequest (maxCount : ℤ) : FetchRequest :=
  { topic := "agent-events", partition := 0, fromOffset := 0, maxCount := maxCount
    sessionFilter := some ⟨"acme", "p", "s"⟩, scanLimit := 0 }

/-- With a response of one message the second event is skipped; with a ring of one message,
which has dropped the first event, the second is returned twice. -/
theorem filtered_pagination_incomplete :
    paginate some (twoEvents 8) 1 (sessionRequest 1) = some [⟨0, sessionEvent, 0⟩] ∧
      paginate some (twoEvents 1) 1 (sessionRequest 0) =
        some [⟨1, sessionEvent, 0⟩, ⟨1, sessionEvent, 0⟩] := by
  constructor <;> decide +kernel

/-- With a response of two messages both events come back: the one call has two matches. -/
theorem filtered_pagination_two :
    ((sessionRequest 2).paging some ⟨"acme", "p", "s"⟩ 8 [sessionEvent, sessionEvent]).callsFrom 0 =
        [(0, 2)] ∧
      ∃ n, paginate some (twoEvents 8) n (sessionRequest 2) =
        some [⟨0, sessionEvent, 0⟩, ⟨1, sessionEvent, 0⟩] := by
  have hserves : Serves (twoEvents 8) "agent-events" 0
      ((newTopic 8).publishAll [sessionEvent, sessionEvent]) :=
    ⟨by decide, by decide, _, rfl, rfl⟩
  refine ⟨by decide +kernel, ?_⟩
  exact (filtered_pagination_iff some (twoEvents 8) (sessionRequest 2) ⟨"acme", "p", "s"⟩ 8
    [sessionEvent, sessionEvent] hserves rfl).mpr
      ⟨by decide, by decide +kernel, by decide +kernel⟩

end AgentBus.Grpcapi
