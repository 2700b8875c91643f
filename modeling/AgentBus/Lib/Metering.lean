import Mathlib.Algebra.Order.Field.Basic

/-!
# What an allowance bounds

A machine answers calls that carry their time.  An allowance is a number of answers it can still
grant: an answer costs one, and the allowance grows no faster than some rate and never past some
bound.  Then the answers granted in any window of time are at most the bound and what the rate
gives in the window (`Allowance.granted_le`).

What calls of one kind are answered may also be asked of two runs.  If the states of the two are
alike for that kind, and calls of other kinds keep them alike, the answers are those of the run in
which only the calls of the kind are made (`Alike.answers_filter`).

## Main definitions

* `log` — the calls with their answers.
* `granted` — how many calls of some kind are granted in a window.
* `Allowance` — what is asked of the number.
* `answers` — what the calls of a kind are answered.
* `Alike` — what is asked of the relation between two runs.
-/

namespace AgentBus.Metering

variable {K σ α : Type*}

/-- Calls one after the other, with their answers. -/
def log (step : σ → K → α → σ × Bool) : σ → List (K × α) → List (K × α × Bool)
  | _, [] => []
  | s, (t, a) :: calls => (t, a, (step s t a).2) :: log step (step s t a).1 calls

/-- The state after some calls. -/
def after (step : σ → K → α → σ × Bool) (s : σ) (calls : List (K × α)) : σ :=
  calls.foldl (fun s c => (step s c.1 c.2).1) s

/-- How many calls of a kind are granted in a window. -/
def granted [LinearOrder K] (kind : α → Bool) (t₁ t₂ : K) (entries : List (K × α × Bool)) : ℕ :=
  entries.countP fun e => kind e.2.1 && e.2.2 && decide (t₁ ≤ e.1 ∧ e.1 ≤ t₂)

section Log

variable {step : σ → K → α → σ × Bool}

@[simp] theorem fst_log (step : σ → K → α → σ × Bool) (s : σ) (calls : List (K × α)) :
    (log step s calls).map Prod.fst = calls.map Prod.fst := by
  induction calls generalizing s with
  | nil => rfl
  | cons c calls ih => simp [log, ih]

theorem log_append (s : σ) (calls calls' : List (K × α)) :
    log step s (calls ++ calls') = log step s calls ++ log step (after step s calls) calls' := by
  induction calls generalizing s with
  | nil => rfl
  | cons c calls ih => exact congrArg _ (ih _)

variable [LinearOrder K] {kind : α → Bool}

theorem granted_append (t₁ t₂ : K) (s : σ) (calls calls' : List (K × α)) :
    granted kind t₁ t₂ (log step s (calls ++ calls')) =
      granted kind t₁ t₂ (log step s calls) +
        granted kind t₁ t₂ (log step (after step s calls) calls') := by
  rw [log_append, granted, List.countP_append]
  rfl

@[simp] theorem granted_eq_zero {s : σ} {calls : List (K × α)} {t₁ t₂ : K}
    (hcalls : ∀ c ∈ calls, ¬ (t₁ ≤ c.1 ∧ c.1 ≤ t₂)) :
    granted kind t₁ t₂ (log step s calls) = 0 := by
  refine List.countP_eq_zero.mpr fun e he => ?_
  have hmem : e.1 ∈ calls.map Prod.fst := by
    rw [← fst_log step s]
    exact List.mem_map_of_mem he
  obtain ⟨c, hc, heq⟩ := List.mem_map.mp hmem
  have hout := hcalls c hc
  rw [heq] at hout
  simp [hout]

theorem granted_cons (s : σ) (u t₁ t₂ : K) (a : α) (calls : List (K × α)) :
    granted kind t₁ t₂ (log step s ((u, a) :: calls)) =
      granted kind t₁ t₂ (log step (step s u a).1 calls) +
        if (kind a && (step s u a).2 && decide (t₁ ≤ u ∧ u ≤ t₂)) = true then 1 else 0 := by
  simp only [log, granted, List.countP_cons]

/-- Where the times do not decrease, the first is the least. -/
theorem pairwise_cons {c : K × α} {calls : List (K × α)}
    (hsorted : ((c :: calls).map Prod.fst).Pairwise (· ≤ ·)) :
    (∀ c' ∈ calls, c.1 ≤ c'.1) ∧ (calls.map Prod.fst).Pairwise (· ≤ ·) := by
  rw [List.map_cons, List.pairwise_cons] at hsorted
  exact ⟨fun c' hc' => hsorted.1 c'.1 (List.mem_map_of_mem hc'), hsorted.2⟩

theorem exists_le_of_pairwise [Nonempty K] {calls : List (K × α)}
    (hsorted : (calls.map Prod.fst).Pairwise (· ≤ ·)) : ∃ t, ∀ c ∈ calls, t ≤ c.1 := by
  cases calls with
  | nil => exact ⟨Classical.arbitrary K, by simp⟩
  | cons c calls =>
    refine ⟨c.1, fun c' hc' => ?_⟩
    rcases List.mem_cons.mp hc' with rfl | hc'
    · exact le_rfl
    · exact (pairwise_cons hsorted).1 c' hc'

end Log

/-! ## Two runs -/

/-- What the calls of a kind are answered. -/
def answers (kind : α → Bool) (entries : List (K × α × Bool)) : List (K × α × Bool) :=
  entries.filter fun e => kind e.2.1

/-- What is granted is read off the answers. -/
theorem granted_answers [LinearOrder K] (kind : α → Bool) (t₁ t₂ : K)
    (entries : List (K × α × Bool)) :
    granted kind t₁ t₂ (answers kind entries) = granted kind t₁ t₂ entries := by
  rw [granted, answers, List.countP_filter]
  refine List.countP_congr fun e _ => ?_
  cases kind e.2.1 <;> simp

/-- States that `R` relates at a time answer calls of the kind alike, and stay related after them,
after a call of another kind in the first of them, and at later times. -/
structure Alike [LinearOrder K] (step : σ → K → α → σ × Bool) (kind : α → Bool)
    (R : K → σ → σ → Prop) : Prop where
  later : ∀ t t' s s', R t s s' → t ≤ t' → R t' s s'
  other : ∀ t s s' a, R t s s' → kind a = false → R t (step s t a).1 s'
  answer : ∀ t s s' a, R t s s' → kind a = true → (step s t a).2 = (step s' t a).2
  own : ∀ t s s' a, R t s s' → kind a = true → R t (step s t a).1 (step s' t a).1

/-- **Calls of other kinds do not show**: without them the answers are the same. -/
theorem Alike.answers_filter [LinearOrder K] {step : σ → K → α → σ × Bool} {kind : α → Bool}
    {R : K → σ → σ → Prop} (h : Alike step kind R) {calls : List (K × α)} {t : K} {s s' : σ}
    (hs : R t s s') (hcalls : ∀ c ∈ calls, t ≤ c.1)
    (hsorted : (calls.map Prod.fst).Pairwise (· ≤ ·)) :
    answers kind (log step s calls) = log step s' (calls.filter fun c => kind c.2) := by
  induction calls generalizing t s s' with
  | nil => rfl
  | cons c calls ih =>
    obtain ⟨u, a⟩ := c
    obtain ⟨hlater, hsorted⟩ := pairwise_cons hsorted
    have hu := h.later t u s s' hs (hcalls (u, a) (by simp))
    cases hkind : kind a with
    | false =>
      have hrest := ih (h.other u s s' a hu hkind) hlater hsorted
      simpa [log, answers, hkind] using hrest
    | true =>
      have hrest := ih (h.own u s s' a hu hkind) hlater hsorted
      have hanswer := h.answer u s s' a hu hkind
      simpa [log, answers, hkind, hanswer] using hrest

variable [Field K] [LinearOrder K] [IsStrictOrderedRing K]

/-- `φ s t` is an allowance in the states and at the times of `I`: it is between 0 and the bound,
it grows no faster than the rate, and a granted call of the kind takes one off. -/
structure Allowance (step : σ → K → α → σ × Bool) (kind : α → Bool) (rate bound : K)
    (I : σ → K → Prop) (φ : σ → K → K) : Prop where
  nonneg : ∀ s t, I s t → 0 ≤ φ s t
  le_bound : ∀ s t, I s t → φ s t ≤ bound
  later : ∀ s t t', I s t → t ≤ t' → I s t'
  grows : ∀ s t t', I s t → t ≤ t' → φ s t' ≤ φ s t + rate * (t' - t)
  keeps : ∀ s t a, I s t → I (step s t a).1 t
  costs : ∀ s t a, I s t →
    φ (step s t a).1 t + (if kind a && (step s t a).2 then 1 else 0) ≤ φ s t

variable {step : σ → K → α → σ × Bool} {kind : α → Bool} {rate bound : K} {I : σ → K → Prop}
  {φ : σ → K → K}

namespace Allowance

theorem nonneg_until (h : Allowance step kind rate bound I φ) (hrate : 0 ≤ rate) {s : σ} {t t₂ : K}
    (hs : I s t) (ht : t ≤ t₂) : 0 ≤ φ s t + rate * (t₂ - t) :=
  add_nonneg (h.nonneg s t hs) (mul_nonneg hrate (sub_nonneg.mpr ht))

/-- What is granted from `t` on is at most the allowance at `t` and what the rate gives. -/
theorem granted_le_of_le (h : Allowance step kind rate bound I φ) (hrate : 0 ≤ rate)
    {calls : List (K × α)} {s : σ} {t t₁ t₂ : K} (hs : I s t) (ht : t ≤ t₂)
    (hcalls : ∀ c ∈ calls, t ≤ c.1) (hsorted : (calls.map Prod.fst).Pairwise (· ≤ ·)) :
    (granted kind t₁ t₂ (log step s calls) : K) ≤ φ s t + rate * (t₂ - t) := by
  induction calls generalizing s t with
  | nil => simpa [granted, log] using h.nonneg_until hrate hs ht
  | cons c calls ih =>
    obtain ⟨u, a⟩ := c
    obtain ⟨hlater, hsorted⟩ := pairwise_cons hsorted
    have htu : t ≤ u := hcalls (u, a) (by simp)
    by_cases hu : u ≤ t₂
    · have hsu := h.later s t u hs htu
      have hrest := ih (h.keeps s u a hsu) hu hlater hsorted
      have hcost := h.costs s u a hsu
      have hgrow := h.grows s t u hs htu
      have hone : (if (kind a && (step s u a).2 && decide (t₁ ≤ u ∧ u ≤ t₂)) = true then (1 : K)
          else 0) ≤ if (kind a && (step s u a).2) = true then 1 else 0 := by
        split
        · rename_i hall
          rw [if_pos (Bool.and_eq_true_iff.mp hall).1]
        · split <;> simp
      rw [granted_cons]
      push_cast
      calc _ ≤ (φ (step s u a).1 u + rate * (t₂ - u)) +
            if (kind a && (step s u a).2) = true then 1 else 0 := add_le_add hrest hone
        _ = (φ (step s u a).1 u + if (kind a && (step s u a).2) = true then 1 else 0) +
            rate * (t₂ - u) := add_right_comm ..
        _ ≤ (φ s t + rate * (u - t)) + rate * (t₂ - u) :=
          add_le_add (hcost.trans hgrow) le_rfl
        _ = φ s t + rate * (t₂ - t) := by
          rw [add_assoc, ← mul_add, add_comm (u - t), sub_add_sub_cancel]
    · -- this call and those after it are past the window
      rw [granted_eq_zero]
      · simpa using h.nonneg_until hrate hs ht
      · intro c hc hin
        rcases List.mem_cons.mp hc with rfl | hc
        · exact hu hin.2
        · exact hu ((hlater c hc).trans hin.2)

/-- **What is granted in a window** is at most the bound and what the rate gives. -/
theorem granted_le (h : Allowance step kind rate bound I φ) (hrate : 0 ≤ rate)
    {calls : List (K × α)} {s : σ} {t t₁ t₂ : K} (hs : I s t) (hwindow : t₁ ≤ t₂)
    (hcalls : ∀ c ∈ calls, t ≤ c.1) (hsorted : (calls.map Prod.fst).Pairwise (· ≤ ·)) :
    (granted kind t₁ t₂ (log step s calls) : K) ≤ bound + rate * (t₂ - t₁) := by
  have hgain := mul_nonneg hrate (sub_nonneg.mpr hwindow)
  have hzero : 0 ≤ bound + rate * (t₂ - t₁) :=
    add_nonneg ((h.nonneg s t hs).trans (h.le_bound s t hs)) hgain
  induction calls generalizing s t with
  | nil => simpa [granted, log] using hzero
  | cons c calls ih =>
    obtain ⟨u, a⟩ := c
    obtain ⟨hlater, hrest⟩ := pairwise_cons hsorted
    have htu : t ≤ u := hcalls (u, a) (by simp)
    by_cases hu : t₁ ≤ u
    · -- the window begins here, unless all of it is over
      by_cases hmax : max t t₁ ≤ t₂
      · have hsm := h.later s t (max t t₁) hs (le_max_left ..)
        have hfrom : ∀ c ∈ (u, a) :: calls, max t t₁ ≤ c.1 := by
          intro c hc
          rcases List.mem_cons.mp hc with rfl | hc
          · exact max_le htu hu
          · exact (max_le htu hu).trans (hlater c hc)
        have hle : (granted kind t₁ t₂ (log step s ((u, a) :: calls)) : K) ≤ _ :=
          h.granted_le_of_le hrate hsm hmax hfrom hsorted
        have hless : rate * (t₂ - max t t₁) ≤ rate * (t₂ - t₁) :=
          mul_le_mul_of_nonneg_left (sub_le_sub_left (le_max_right t t₁) t₂) hrate
        exact hle.trans (add_le_add (h.le_bound s _ hsm) hless)
      · rw [granted_eq_zero]
        · simpa using hzero
        · have ht : t₂ < t := (lt_max_iff.mp (not_le.mp hmax)).resolve_right (not_lt.mpr hwindow)
          exact fun c hc hin => absurd ht (not_lt.mpr ((hcalls c hc).trans hin.2))
    · have hnot : ¬ (t₁ ≤ u ∧ u ≤ t₂) := fun hin => hu hin.1
      rw [granted_cons, decide_eq_false hnot, Bool.and_false, if_neg Bool.false_ne_true,
        Nat.add_zero]
      exact ih (h.keeps s u a (h.later s t u hs htu)) hlater hrest

end Allowance

end AgentBus.Metering
