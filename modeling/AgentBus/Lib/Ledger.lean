import AgentBus.Lib.Pool
import Mathlib.Algebra.Order.Group.Multiset
import Mathlib.Tactic.Abel

/-!
# Threads that issue and then settle

The threads of a pool often do a thing in two steps: they write an item down, and later they act on
it.  What was written down is the list `issued`, what was acted on is `settled`, and a thread that
is between the two has the item `pending`.

Two facts carry such a program.  Nothing is lost or done twice: in every reachable world what was
issued is, up to order, what was settled together with what is pending (`Reach.balance`).  And if
items of one key are settled in the order they were issued (`InOrder`), then once nothing is pending
both lists agree key by key (`InOrder.filter_eq`).

A program whose state does not say in which order things were done is given a record of it by
`Program.trace`; `Program.noted` gives each thread a record of its own.

## Main definitions

* `Program.trace`, `Program.noted` — a program with a record of what its threads do.
* `InOrder` — settled in the order of issue, key by key.
-/

namespace AgentBus.Pool

variable {σ τ ρ ℓ ε ω κ : Type*}

/-- The program that records, at each step of a thread, what `emit` gives for the state the thread
was in. -/
def Program.trace (P : Program σ τ ρ ℓ ε) (emit : τ → List ω) :
    Program (σ × List ω) τ ρ ℓ ε where
  entry := P.entry
  thread s t l := (P.thread s.1 t l).map fun r => ((r.1, s.2 ++ emit t), r.2)
  env s e := (P.env s.1 e).map fun s' => (s', s.2)

/-- The program whose threads each keep a record of their own: what `note` gives for the state a
step of the thread is taken in. -/
def Program.noted (P : Program σ τ ρ ℓ ε) (note : σ → τ → List ω) :
    Program σ (τ × List ω) ρ ℓ ε where
  entry r := (P.entry r, [])
  thread s t l := (P.thread s t.1 l).map fun r => (r.1, r.2, t.2 ++ note s t.1)
  env := P.env

/-- The items that threads have pending, without their order. -/
theorem coe_flatMap_set {ts : List τ} {i : ℕ} {t : τ} (pending : τ → List ω)
    (h : ts[i]? = some t) (t' : τ) :
    ((ts.set i t').flatMap pending : Multiset ω) + pending t = ts.flatMap pending + pending t' := by
  induction ts generalizing i with
  | nil => cases h
  | cons u ts ih =>
    cases i with
    | zero =>
      cases h
      simp only [List.set_cons_zero, List.flatMap_cons, ← Multiset.coe_add]
      abel
    | succ i =>
      have hrest := ih h
      simp only [List.set_cons_succ, List.flatMap_cons, ← Multiset.coe_add, add_assoc, hrest]

/-- **The balance rule.**  If each step of a thread settles or keeps pending what it had pending and
what it issues, then what was issued is, up to order, what was settled and what is pending. -/
theorem Program.Reach.balance {P : Program σ τ ρ ℓ ε} {G : Guard σ τ ℓ ε} {s₀ : σ}
    {I : σ → Prop} {L : σ → τ → Prop} {R : τ → τ → Prop}
    (issued settled : σ → List ω) (pending : τ → List ω)
    (inv : ∀ w, P.Reach G s₀ w → Holds I L R w)
    (init : (issued s₀).Perm (settled s₀)) (entry : ∀ r, pending (P.entry r) = [])
    (run : ∀ s t l s' t', I s → L s t → G.thread s t l → P.thread s t l = some (s', t') →
      ∃ a b, issued s' = issued s ++ a ∧ settled s' = settled s ++ b ∧
        (pending t ++ a).Perm (b ++ pending t'))
    (env : ∀ s e s', P.env s e = some s' → issued s' = issued s ∧ settled s' = settled s)
    {w : World σ τ} (h : P.Reach G s₀ w) :
    (issued w.shared).Perm (settled w.shared ++ w.threads.flatMap pending) := by
  induction h with
  | init => simpa using init
  | @step w w' a hr hok hs ih =>
    cases a with
    | spawn r =>
      cases hs
      simpa [entry] using ih
    | run i l =>
      simp only [Program.step] at hs
      cases hi : w.threads[i]? with
      | none => simp [hi] at hs
      | some t =>
        simp only [hi, Option.map_eq_some_iff] at hs
        obtain ⟨⟨s', t'⟩, hrun, rfl⟩ := hs
        obtain ⟨a, b, hissued, hsettled, hperm⟩ :=
          run _ _ _ _ _ (inv w hr).shared ((inv w hr).each i t hi) (hok t hi) hrun
        have hset := coe_flatMap_set pending hi t'
        rw [hissued, hsettled]
        rw [← Multiset.coe_eq_coe] at ih hperm ⊢
        simp only [← Multiset.coe_add] at ih hperm ⊢
        refine add_right_cancel (b := (pending t : Multiset ω)) ?_
        calc _ = (settled w.shared : Multiset ω) + w.threads.flatMap pending +
              (pending t + a) := by rw [ih]; abel
          _ = settled w.shared + b + (w.threads.flatMap pending + pending t') := by
              rw [hperm]; abel
          _ = _ := by rw [← hset]; abel
    | env e =>
      simp only [Program.step, Option.map_eq_some_iff] at hs
      obtain ⟨s', hstep, rfl⟩ := hs
      obtain ⟨hissued, hsettled⟩ := env _ _ _ hstep
      rw [hissued, hsettled]
      exact ih

/-! ## Items of one key in order -/

variable [DecidableEq κ]

/-- The items of each key are settled in the order they were issued. -/
def InOrder (key : ω → κ) (issued settled : List ω) : Prop :=
  ∀ k, (settled.filter fun x => key x = k) <+: issued.filter fun x => key x = k

namespace InOrder

variable {key : ω → κ} {issued settled : List ω}

theorem refl (key : ω → κ) (xs : List ω) : InOrder key xs xs := fun _ => List.prefix_refl _

theorem issue (h : InOrder key issued settled) (xs : List ω) :
    InOrder key (issued ++ xs) settled := by
  intro k
  rw [List.filter_append]
  exact (h k).trans (List.prefix_append _ _)

/-- An item is settled when it is the next of its key. -/
theorem settle (h : InOrder key issued settled) {x : ω}
    (hx : ((settled ++ [x]).filter fun y => key y = key x) <+:
      issued.filter fun y => key y = key x) : InOrder key issued (settled ++ [x]) := by
  intro k
  by_cases hk : key x = k
  · rw [← hk]
    exact hx
  · simpa [List.filter_append, hk] using h k

/-- **Once nothing is pending, what was settled is what was issued**, key by key. -/
theorem filter_eq (h : InOrder key issued settled) (hperm : issued.Perm settled) (k : κ) :
    (settled.filter fun x => key x = k) = issued.filter fun x => key x = k :=
  (h k).eq_of_length (hperm.filter _).length_eq.symm

end InOrder

end AgentBus.Pool
