import AgentBus.Workflow.Store

/-!
# The history of a key

The folded fields of an execution depend on the events of its key alone: not on other keys,
not on where the execution was allocated and not on the run-time flags.  `history` is that
dependence as a function, and `Store.view_applyAll` says that folding a list of events into
a store without retention computes it key by key.

A key has an execution exactly if its history has a submit that starts one
(`history_isSome_iff`).

## Main definitions

* `foldView`, `history` — the folded fields as a function of the events of a key.
* `Starts` — a submit that starts an execution.
-/

namespace AgentBus.Workflow

open AgentStream

/-- The fold of an event of its own key, on the folded fields. -/
def foldView (o : Option Execution) (e : Event) : Option Execution :=
  (foldKey 0 o e).map Execution.folded

/-- The folded fields that a list of events leaves under `k`. -/
def history (k : String) (es : List Event) : Option Execution :=
  (es.filter fun e => e.key = k).foldl foldView none

/-- The event is a submit that starts an execution. -/
def Starts (e : Event) : Prop := eventType e = some .submitted ∧ (newExecution 0 e).isSome = true

instance (e : Event) : Decidable (Starts e) :=
  inferInstanceAs (Decidable (eventType e = some .submitted ∧ (newExecution 0 e).isSome = true))

/-! ## The fold and the folded fields -/

/-- An event that an execution accepts is accepted under any allocation and flags, to the same
end. -/
theorem Execution.Folds.flagged {x x' : Execution} {e : Event} (h : Folds x e x') (ref : ℕ)
    (reserved completing : Bool) :
    ∃ y, Folds { x with ref := ref, reserved := reserved, completing := completing } e y ∧
      y.folded = x'.folded := by
  cases h with
  | leased p ty payload status attempt => exact ⟨_, .leased p ty payload status attempt, rfl⟩
  | heartbeat p ty payload status attempt worker =>
    exact ⟨_, .heartbeat p ty payload status attempt worker, rfl⟩
  | completed p ty payload live attempt leased =>
    exact ⟨_, .completed p ty payload live attempt leased, rfl⟩
  | failed p ty payload status attempt => exact ⟨_, .failed p ty payload status attempt, rfl⟩
  | retry p ty payload status => exact ⟨_, .retry p ty payload status, rfl⟩
  | dead p ty payload live => exact ⟨_, .dead p ty payload live, rfl⟩

/-- The fold reads and writes folded fields only, apart from clearing flags. -/
theorem Execution.folded_apply_folded (x : Execution) (e : Event) :
    (x.folded.apply e).map Execution.folded = (x.apply e).map Execution.folded := by
  cases hx : x.apply e with
  | some x' =>
    obtain ⟨y, hy, heq⟩ := (apply_eq_some_iff.mp hx).flagged 0 false false
    change Folds x.folded e y at hy
    rw [apply_eq_some_iff.mpr hy, Option.map_some, Option.map_some, heq]
  | none =>
    cases hy : x.folded.apply e with
    | none => rfl
    | some y =>
      obtain ⟨x', hx', -⟩ := (apply_eq_some_iff.mp hy).flagged x.ref x.reserved x.completing
      change Folds x e x' at hx'
      rw [apply_eq_some_iff.mpr hx'] at hx
      cases hx

/-- The folded fields of a new execution do not depend on the allocation. -/
@[simp] theorem folded_newExecution (ref : ℕ) (e : Event) :
    (newExecution ref e).map Execution.folded = (newExecution 0 e).map Execution.folded := by
  cases hp : SubmitPayload.unmarshal e.payload with
  | none => simp [newExecution, hp]
  | some p =>
    by_cases hty : p.taskType = ""
    · simp [newExecution, hp, hty]
    · simp [newExecution, hp, hty, Execution.folded, Execution.record]

@[simp] theorem folded_foldKey (ref : ℕ) (o : Option Execution) (e : Event) :
    (foldKey ref o e).map Execution.folded = foldView (o.map Execution.folded) e := by
  cases o with
  | none =>
    simp only [foldView, foldKey, Option.map_none]
    split
    · exact folded_newExecution ref e
    · rfl
  | some x =>
    have hap := x.folded_apply_folded e
    simp only [foldView, foldKey, Option.map_some, Option.some.injEq]
    cases hx : x.apply e with
    | none =>
      rw [hx, Option.map_none, Option.map_eq_none_iff] at hap
      rw [hap]
      rfl
    | some x' =>
      rw [hx, Option.map_some] at hap
      obtain ⟨y, hy, hfold⟩ := Option.map_eq_some_iff.mp hap
      simp [hy, hfold]

namespace Store

/-- The folded fields under every key after one event. -/
theorem view_apply {s : Store} (h : s.retainTerminal ≤ 0) (e : Event) (k : String) :
    ((s.apply e).1.find? k).map Execution.folded =
      if e.key = k then foldView ((s.find? k).map Execution.folded) e
      else (s.find? k).map Execution.folded := by
  rw [find?_apply h]
  by_cases hk : k = e.key
  · subst hk
    simp only [if_true, folded_foldKey]
  · simp only [hk, if_false, Ne.symm hk]

/-- **Folding a list of events computes the history of every key.** -/
theorem view_applyAll {s : Store} (h : s.retainTerminal ≤ 0) (es : List Event) (k : String) :
    ((s.applyAll es).find? k).map Execution.folded =
      (es.filter fun e => e.key = k).foldl foldView ((s.find? k).map Execution.folded) := by
  induction es generalizing s with
  | nil => rfl
  | cons e es ih =>
    have hstep := ih (s := (s.apply e).1) (by rwa [retainTerminal_apply])
    rw [view_apply h] at hstep
    by_cases hk : e.key = k
    · simpa [applyAll, hk] using hstep
    · simpa [applyAll, hk] using hstep

end Store

/-! ## Histories -/

theorem history_append (k : String) (es es' : List Event) :
    history k (es ++ es') = (es'.filter fun e => e.key = k).foldl foldView (history k es) := by
  rw [history, history, List.filter_append, List.foldl_append]

theorem history_concat (k : String) (es : List Event) (e : Event) :
    history k (es ++ [e]) = if e.key = k then foldView (history k es) e else history k es := by
  rw [history_append]
  by_cases hk : e.key = k <;> simp [hk]

theorem foldView_isSome (o : Option Execution) (e : Event) :
    (foldView o e).isSome = true ↔ o.isSome = true ∨ Starts e := by
  cases o with
  | some x => simp [foldView, foldKey]
  | none =>
    by_cases hty : eventType e = some .submitted <;> simp [foldView, foldKey, hty, Starts]

theorem foldl_foldView_isSome (es : List Event) (o : Option Execution) :
    (es.foldl foldView o).isSome = true ↔ o.isSome = true ∨ ∃ e ∈ es, Starts e := by
  induction es generalizing o with
  | nil => simp
  | cons e es ih => simp [ih, foldView_isSome, or_assoc]

/-- **A key has an execution exactly if a submit of it starts one.** -/
theorem history_isSome_iff (k : String) (es : List Event) :
    (history k es).isSome = true ↔ ∃ e ∈ es, e.key = k ∧ Starts e := by
  rw [history, foldl_foldView_isSome]
  simp only [Option.isSome_none, Bool.false_eq_true, false_or, List.mem_filter, decide_eq_true_eq,
    and_assoc]

theorem history_eq_none_iff (k : String) (es : List Event) :
    history k es = none ↔ ∀ e ∈ es, e.key = k → ¬ Starts e := by
  rw [← Option.not_isSome_iff_eq_none, history_isSome_iff]
  simp only [not_exists, not_and]

end AgentBus.Workflow
