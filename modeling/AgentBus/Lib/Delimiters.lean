import Mathlib.Data.List.Basic

/-!
# Delimiters

A list is cut in one way at the first occurrence of an element, and at the last one.
-/

namespace AgentBus.Delimiters

variable {α : Type*} {c : α} {l l' r r' : List α}

theorem append_cons_inj (hl : c ∉ l) (hl' : c ∉ l') (h : l ++ c :: r = l' ++ c :: r') :
    l = l' ∧ r = r' := by
  induction l generalizing l' with
  | nil =>
    cases l' with
    | nil => exact ⟨rfl, (List.cons.inj h).2⟩
    | cons d l' =>
      have hd := (List.cons.inj h).1
      exact absurd (hd ▸ List.mem_cons_self) hl'
  | cons d l ih =>
    cases l' with
    | nil =>
      have hd := (List.cons.inj h).1
      exact absurd (hd ▸ List.mem_cons_self) hl
    | cons d' l' =>
      obtain ⟨hd, htail⟩ := List.cons.inj h
      obtain ⟨heq, hr⟩ := ih (fun hm => hl (List.mem_cons_of_mem _ hm))
        (fun hm => hl' (List.mem_cons_of_mem _ hm)) htail
      exact ⟨by rw [hd, heq], hr⟩

theorem append_cons_inj_last (hr : c ∉ r) (hr' : c ∉ r') (h : l ++ c :: r = l' ++ c :: r') :
    l = l' ∧ r = r' := by
  have hreverse := congrArg List.reverse h
  simp only [List.reverse_append, List.reverse_cons, List.append_assoc,
    List.singleton_append] at hreverse
  obtain ⟨hrr, hll⟩ := append_cons_inj (by simpa using hr) (by simpa using hr') hreverse
  exact ⟨List.reverse_injective hll, List.reverse_injective hrr⟩

end AgentBus.Delimiters
