import Mathlib.Data.Option.Basic

/-!
# Machines that run a list of actions

A deterministic machine whose actions may be refused.  What every action keeps, every run keeps.

A statement about some moment of a history is about its last action or about the history before it
(`concat_eq_append_cons_iff`).
-/

namespace AgentBus.Machine

variable {σ α : Type*} {step : σ → α → Option σ}

/-- The state after some actions; `none` when one of them is refused. -/
def run (step : σ → α → Option σ) : σ → List α → Option σ
  | s, [] => some s
  | s, a :: as => (step s a).bind fun s' => run step s' as

/-- **The invariant rule.** -/
theorem run_invariant {I : σ → Prop} (hstep : ∀ s a s', I s → step s a = some s' → I s')
    {s s' : σ} {as : List α} (hs : I s) (h : run step s as = some s') : I s' := by
  induction as generalizing s with
  | nil =>
    cases h
    exact hs
  | cons a as ih =>
    obtain ⟨t, ht, h⟩ := Option.bind_eq_some_iff.mp h
    exact ih (hstep s a t hs ht) h

/-- **An action of a history is the last one, or one of those before it.** -/
theorem concat_eq_append_cons_iff {as before after : List α} {a b : α} :
    as ++ [a] = before ++ b :: after ↔
      (before = as ∧ b = a ∧ after = []) ∨
        ∃ rest, after = rest ++ [a] ∧ as = before ++ b :: rest := by
  constructor
  · intro h
    rcases List.eq_nil_or_concat after with rfl | ⟨rest, c, rfl⟩
    · obtain ⟨rfl, ha⟩ := List.append_inj' h rfl
      exact .inl ⟨rfl, (List.singleton_inj.mp ha).symm, rfl⟩
    · rw [List.concat_eq_append, ← List.cons_append, ← List.append_assoc] at h
      obtain ⟨rfl, ha⟩ := List.append_inj' h rfl
      obtain rfl := List.singleton_inj.mp ha
      exact .inr ⟨rest, List.concat_eq_append, rfl⟩
  · rintro (⟨rfl, rfl, rfl⟩ | ⟨rest, rfl, rfl⟩)
    · rfl
    · simp

end AgentBus.Machine
