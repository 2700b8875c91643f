import Mathlib.Data.List.Sort
import Mathlib.Order.Bounds.Basic

/-!
# Points on a circle

A finite set of points of a linear order, read as a circle: the point that comes next after a key is
the least one that is not below the key, or the least of all.  Taking points away does not change
which one comes next, unless that is one of them (`IsNext.of_subset`).

`search` is the binary search of Go's `sort.Search`, and finds the next point in a sorted list
(`exists_isNext_search`).

## Main definitions

* `IsNext` — the point that comes next.
* `search` — binary search for the first index with a property.
-/

namespace AgentBus.Clockwise

/-! ## The next point -/

section Next

variable {α : Type*} [LinearOrder α] {S T : Set α} {k p q : α}

/-- `p` is the point of `S` that comes next, from `k` on. -/
def IsNext (S : Set α) (k p : α) : Prop :=
  IsLeast {q ∈ S | k ≤ q} p ∨ ((∀ q ∈ S, q < k) ∧ IsLeast S p)

theorem IsNext.mem (h : IsNext S k p) : p ∈ S := by
  rcases h with h | ⟨-, h⟩
  · exact h.1.1
  · exact h.1

theorem IsNext.unique (h : IsNext S k p) (h' : IsNext S k q) : p = q := by
  rcases h with h | ⟨hall, h⟩
  · rcases h' with h' | ⟨hall', -⟩
    · exact h.unique h'
    · exact absurd h.1.2 (not_le.mpr (hall' p h.1.1))
  · rcases h' with h' | ⟨-, h'⟩
    · exact absurd h'.1.2 (not_le.mpr (hall q h'.1.1))
    · exact h.unique h'

/-- The next point stays the next one when others are taken away. -/
theorem IsNext.of_subset (h : IsNext T k p) (hsub : S ⊆ T) (hp : p ∈ S) : IsNext S k p := by
  rcases h with ⟨⟨-, hk⟩, hleast⟩ | ⟨hall, -, hleast⟩
  · exact .inl ⟨⟨hp, hk⟩, fun q hq => hleast ⟨hsub hq.1, hq.2⟩⟩
  · exact .inr ⟨fun q hq => hall q (hsub hq), hp, fun q hq => hleast (hsub hq)⟩

end Next

/-! ## Binary search -/

/-- The loop of `sort.Search` on the indexes from `i` to `j`, with at most `fuel` rounds. -/
def searchLoop (f : ℕ → Bool) : ℕ → ℕ → ℕ → ℕ
  | 0, i, _ => i
  | fuel + 1, i, j =>
    if i < j then
      if f ((i + j) / 2) then searchLoop f fuel i ((i + j) / 2)
      else searchLoop f fuel ((i + j) / 2 + 1) j
    else i

/-- `sort.Search`: the first index below `n` with the property, or `n`. -/
def search (n : ℕ) (f : ℕ → Bool) : ℕ := searchLoop f n 0 n

/-- What is left of `i` fails, and what is right of `j` holds; each round keeps it. -/
theorem searchLoop_spec {f : ℕ → Bool} {n : ℕ}
    (hmono : ∀ a b, a ≤ b → b < n → f a = true → f b = true) {fuel i j : ℕ} (hij : i ≤ j)
    (hj : j ≤ n) (hfuel : j - i ≤ fuel) (hleft : ∀ a < i, f a = false)
    (hright : ∀ a, j ≤ a → a < n → f a = true) :
    searchLoop f fuel i j ≤ n ∧ (∀ a < searchLoop f fuel i j, f a = false) ∧
      ∀ a, searchLoop f fuel i j ≤ a → a < n → f a = true := by
  induction fuel generalizing i j with
  | zero =>
    obtain rfl : i = j := by omega
    exact ⟨hj, hleft, hright⟩
  | succ fuel ih =>
    rw [searchLoop]
    by_cases hlt : i < j
    · rw [if_pos hlt]
      cases hf : f ((i + j) / 2) with
      | true =>
        rw [if_pos rfl]
        refine ih (by omega) (by omega) (by omega) hleft ?_
        intro a ha han
        exact hmono _ a ha han hf
      | false =>
        rw [if_neg Bool.false_ne_true]
        refine ih (by omega) hj (by omega) ?_ hright
        intro a ha
        refine Bool.eq_false_iff.mpr fun hfa => ?_
        rw [hmono a _ (by omega) (by omega) hfa] at hf
        cases hf
    · rw [if_neg hlt]
      obtain rfl : i = j := by omega
      exact ⟨hj, hleft, hright⟩

theorem search_spec {f : ℕ → Bool} {n : ℕ}
    (hmono : ∀ a b, a ≤ b → b < n → f a = true → f b = true) :
    search n f ≤ n ∧ (∀ a < search n f, f a = false) ∧
      ∀ a, search n f ≤ a → a < n → f a = true := by
  refine searchLoop_spec hmono (Nat.zero_le n) le_rfl (by omega) ?_ ?_
  · intro a ha
    exact absurd ha (Nat.not_lt_zero a)
  · intro a ha han
    omega

section Sorted

variable {α : Type*} [LinearOrder α] {ps : List α} {k : α}

/-- The index of the next point in a sorted list: the first that is not below the key, or 0. -/
def nextIndex (ps : List α) (k : α) : ℕ :=
  let idx := search ps.length fun i => ps[i]?.any fun p => k ≤ p
  if idx = ps.length then 0 else idx

/-- **Binary search finds the next point** of a sorted list. -/
theorem exists_isNext_search (hsorted : ps.SortedLE) (hne : ps ≠ []) :
    ∃ p, ps[nextIndex ps k]? = some p ∧ IsNext {q | q ∈ ps} k p := by
  have hmono : ∀ a b, a ≤ b → b < ps.length → (ps[a]?.any fun p => decide (k ≤ p)) = true →
      (ps[b]?.any fun p => decide (k ≤ p)) = true := by
    intro a b hab hb hka
    have ha : a < ps.length := by omega
    simp only [List.getElem?_eq_getElem ha, List.getElem?_eq_getElem hb, Option.any_some,
      decide_eq_true_eq] at hka ⊢
    exact hka.trans (hsorted.getElem_le_getElem_of_le hab)
  obtain ⟨hle, hbelow, habove⟩ := search_spec hmono
  rw [nextIndex]
  generalize search ps.length _ = idx at hle hbelow habove
  have hbelow' : ∀ a (ha : a < ps.length), a < idx → ps[a] < k := by
    intro a ha hidx
    simpa [List.getElem?_eq_getElem ha] using hbelow a hidx
  by_cases hend : idx = ps.length
  · have hpos : 0 < ps.length := List.length_pos_iff.mpr hne
    rw [if_pos hend]
    refine ⟨ps[0], List.getElem?_eq_getElem hpos, .inr ⟨?_, List.getElem_mem hpos, ?_⟩⟩
    · intro q hq
      obtain ⟨a, ha, rfl⟩ := List.mem_iff_getElem.mp hq
      exact hbelow' a ha (by omega)
    · intro q hq
      obtain ⟨a, ha, rfl⟩ := List.mem_iff_getElem.mp hq
      exact hsorted.getElem_le_getElem_of_le (Nat.zero_le a)
  · have hlt : idx < ps.length := by omega
    rw [if_neg hend]
    refine ⟨ps[idx], List.getElem?_eq_getElem hlt, .inl ⟨⟨List.getElem_mem hlt, ?_⟩, ?_⟩⟩
    · simpa [List.getElem?_eq_getElem hlt] using habove idx le_rfl hlt
    · rintro q ⟨hq, hkq⟩
      obtain ⟨a, ha, rfl⟩ := List.mem_iff_getElem.mp hq
      by_cases hidx : a < idx
      · exact absurd hkq (not_le.mpr (hbelow' a ha hidx))
      · exact hsorted.getElem_le_getElem_of_le (not_lt.mp hidx)

end Sorted

end AgentBus.Clockwise
