import Mathlib.Data.List.Basic

/-!
# Pools of threads over a shared state

A concurrent component is given by a `Program`: what a request starts, what one
atomic step of a thread does to the shared state and to the thread itself, and
what the environment may do.  A `World` holds the shared state and every thread
ever started, in starting order; a finished thread stays in the list with its
answer, so that a statement about what a call returned is a statement about the
world.

The proof rule is `Runs.local_invariant`: an assertion on the shared state, an
assertion on the shared state seen by each thread, and a symmetric compatibility
of any two threads hold along a run as soon as one step of one thread keeps all
three; `Reach.local_invariant` is the rule for everything that is reachable.
`Reach.served` adds the dual shape, that whatever the shared state owes is served by
some thread.

A `Guard` restricts the steps of a run by the state each step is taken in; runs
under the trivial guard `Guard.all` are all the runs.  `Guard.Beside` also
restricts a step by what the other threads are doing.  `Runs.later_invariant` is
the rule for the threads that are started after some point of a run.

## Main definitions

* `Program`, `World`, `Act`, `Program.step` — the transition system.
* `Guard`, `Program.Reach` — the worlds reached by guarded runs.
* `Program.exec`, `Program.execWithin` — running a list of actions.
* `Program.Runs`, `Guard.Beside` — runs from a world, under a condition on each step.
* `Runs.local_invariant`, `Reach.local_invariant`, `Runs.later_invariant`, `Reach.served` — the
  invariant rules.
* `Program.solo` — one thread that goes on by itself.
-/

namespace AgentBus.Pool

/-- A program for a pool of threads: `ρ` are the requests that start a thread, `τ`
the thread states, `ℓ` the choices a thread's step resolves (which branch of the
outside world it meets), and `ε` the steps of the environment. -/
structure Program (σ τ ρ ℓ ε : Type*) where
  /-- The state a thread starts in. -/
  entry : ρ → τ
  /-- One atomic step of one thread. -/
  thread : σ → τ → ℓ → Option (σ × τ)
  /-- One step of the environment. -/
  env : σ → ε → Option σ

/-- The shared state and the threads, in the order they were started. -/
structure World (σ τ : Type*) where
  shared : σ
  threads : List τ

/-- What can happen next. -/
inductive Act (ρ ℓ ε : Type*) where
  /-- A request arrives and its thread is started. -/
  | spawn (r : ρ)
  /-- Thread `i` takes its next atomic step. -/
  | run (i : ℕ) (l : ℓ)
  /-- The environment takes a step. -/
  | env (e : ε)

/-- A restriction on the steps of a run, judged in the state before the step. -/
structure Guard (σ τ ℓ ε : Type*) where
  thread : σ → τ → ℓ → Prop
  env : σ → ε → Prop

/-- The guard that allows every step. -/
def Guard.all {σ τ ℓ ε : Type*} : Guard σ τ ℓ ε := ⟨fun _ _ _ => True, fun _ _ => True⟩

variable {σ τ ρ ℓ ε : Type*}

instance (s : σ) (t : τ) (l : ℓ) : Decidable ((Guard.all : Guard σ τ ℓ ε).thread s t l) :=
  isTrue trivial

instance (s : σ) (e : ε) : Decidable ((Guard.all : Guard σ τ ℓ ε).env s e) := isTrue trivial

/-- One step of the pool. -/
def Program.step (P : Program σ τ ρ ℓ ε) (w : World σ τ) : Act ρ ℓ ε → Option (World σ τ)
  | .spawn r => some { w with threads := w.threads ++ [P.entry r] }
  | .run i l =>
    match w.threads[i]? with
    | none => none
    | some t => (P.thread w.shared t l).map fun r => ⟨r.1, w.threads.set i r.2⟩
  | .env e => (P.env w.shared e).map fun s => { w with shared := s }

variable {w w' : World σ τ} {i : ℕ} {t : τ} {I : σ → Prop} {L : σ → τ → Prop} {R : τ → τ → Prop}

/-- What a step of a thread is. -/
theorem Program.step_run {P : Program σ τ ρ ℓ ε} {l : ℓ} (h : P.step w (.run i l) = some w') :
    ∃ t s' t', w.threads[i]? = some t ∧ P.thread w.shared t l = some (s', t') ∧
      w' = ⟨s', w.threads.set i t'⟩ := by
  simp only [Program.step] at h
  cases hi : w.threads[i]? with
  | none => simp [hi] at h
  | some t =>
    simp only [hi, Option.map_eq_some_iff] at h
    obtain ⟨⟨s', t'⟩, hstep, rfl⟩ := h
    exact ⟨t, s', t', rfl, hstep, rfl⟩

/-- Run a list of actions; `none` when one of them is not enabled. -/
def Program.exec (P : Program σ τ ρ ℓ ε) : World σ τ → List (Act ρ ℓ ε) → Option (World σ τ)
  | w, [] => some w
  | w, a :: as => (P.step w a).bind fun w' => P.exec w' as

/-- Whether a guard allows an action in a world. -/
def Guard.Allows (G : Guard σ τ ℓ ε) (w : World σ τ) : Act ρ ℓ ε → Prop
  | .spawn _ => True
  | .run i l => ∀ t, w.threads[i]? = some t → G.thread w.shared t l
  | .env e => G.env w.shared e

/-- The worlds reached from the idle world over `s₀` by runs whose steps all meet
the guard. -/
inductive Program.Reach (P : Program σ τ ρ ℓ ε) (G : Guard σ τ ℓ ε) (s₀ : σ) :
    World σ τ → Prop
  | init : P.Reach G s₀ ⟨s₀, []⟩
  | step {w w' : World σ τ} (a : Act ρ ℓ ε) :
      P.Reach G s₀ w → G.Allows w a → P.step w a = some w' → P.Reach G s₀ w'

variable {P : Program σ τ ρ ℓ ε} {G : Guard σ τ ℓ ε} {s₀ : σ}

theorem Guard.all_allows (w : World σ τ) (a : Act ρ ℓ ε) :
    (Guard.all : Guard σ τ ℓ ε).Allows w a := by
  cases a with
  | spawn r => trivial
  | run i l => intro t _; trivial
  | env e => trivial

/-- Executing actions from a reachable world reaches a world. -/
theorem Program.Reach.exec (h : P.Reach Guard.all s₀ w) (as : List (Act ρ ℓ ε))
    (hw : P.exec w as = some w') : P.Reach Guard.all s₀ w' := by
  induction as generalizing w with
  | nil =>
    cases hw
    exact h
  | cons a as ih =>
    obtain ⟨v, hv, hw⟩ := Option.bind_eq_some_iff.mp hw
    exact ih (h.step a (Guard.all_allows w a) hv) hw

instance Guard.decidableAllows (G : Guard σ τ ℓ ε) [∀ s t l, Decidable (G.thread s t l)]
    [∀ s e, Decidable (G.env s e)] (w : World σ τ) (a : Act ρ ℓ ε) : Decidable (G.Allows w a) :=
  match a with
  | .spawn _ => isTrue trivial
  | .run i l => inferInstanceAs (Decidable (∀ t ∈ w.threads[i]?, G.thread w.shared t l))
  | .env e => inferInstanceAs (Decidable (G.env w.shared e))

/-- Run a list of actions; `none` when one of them is not enabled or not allowed. -/
def Program.execWithin (P : Program σ τ ρ ℓ ε) (G : Guard σ τ ℓ ε)
    [∀ s t l, Decidable (G.thread s t l)] [∀ s e, Decidable (G.env s e)] :
    World σ τ → List (Act ρ ℓ ε) → Option (World σ τ)
  | w, [] => some w
  | w, a :: as =>
    if G.Allows w a then (P.step w a).bind fun w' => P.execWithin G w' as else none

/-- Executing allowed actions from a reachable world reaches a world. -/
theorem Program.Reach.execWithin [∀ s t l, Decidable (G.thread s t l)]
    [∀ s e, Decidable (G.env s e)] (h : P.Reach G s₀ w) (as : List (Act ρ ℓ ε))
    (hw : P.execWithin G w as = some w') : P.Reach G s₀ w' := by
  induction as generalizing w with
  | nil =>
    cases hw
    exact h
  | cons a as ih =>
    unfold Program.execWithin at hw
    split at hw
    · rename_i hok
      obtain ⟨v, hv, hw⟩ := Option.bind_eq_some_iff.mp hw
      exact ih (h.step a hok hv) hw
    · cases hw

/-- What a run of actions ends with is found in a reachable world. -/
theorem Program.exists_reach {γ : Type*} {f : World σ τ → γ} {as : List (Act ρ ℓ ε)} {y : γ}
    (h : (P.exec ⟨s₀, []⟩ as).map f = some y) : ∃ w, P.Reach Guard.all s₀ w ∧ f w = y := by
  obtain ⟨w, hw, hy⟩ := Option.map_eq_some_iff.mp h
  exact ⟨w, Reach.init.exec as hw, hy⟩

/-- What a run of allowed actions ends with is found in a world reached under the guard. -/
theorem Program.exists_reach_within [∀ s t l, Decidable (G.thread s t l)]
    [∀ s e, Decidable (G.env s e)] {γ : Type*} {f : World σ τ → γ} {as : List (Act ρ ℓ ε)} {y : γ}
    (h : (P.execWithin G ⟨s₀, []⟩ as).map f = some y) : ∃ w, P.Reach G s₀ w ∧ f w = y := by
  obtain ⟨w, hw, hy⟩ := Option.map_eq_some_iff.mp h
  exact ⟨w, Reach.init.execWithin as hw, hy⟩

/-- A thread of the pool after thread `i` moved to `t'` is `t'` or another thread. -/
theorem getElem?_set_cases {ts : List τ} {j : ℕ} {t' u : τ} (h : (ts.set i t')[j]? = some u) :
    (j = i ∧ u = t') ∨ (j ≠ i ∧ ts[j]? = some u) := by
  by_cases hj : j = i
  · subst hj
    rw [List.getElem?_set_self'] at h
    obtain ⟨_, _, rfl⟩ := Option.map_eq_some_iff.mp h
    exact .inl ⟨rfl, rfl⟩
  · rw [List.getElem?_set_ne (Ne.symm hj)] at h
    exact .inr ⟨hj, h⟩

/-- A thread of the pool after a start is the new one or one that was there. -/
theorem getElem?_append_singleton_cases {ts : List τ} {j : ℕ} {u : τ}
    (h : (ts ++ [t])[j]? = some u) : (j = ts.length ∧ u = t) ∨ ts[j]? = some u := by
  rcases Nat.lt_trichotomy j ts.length with hj | hj | hj
  · rw [List.getElem?_append_left hj] at h
    exact .inr h
  · subst hj
    simp at h
    exact .inl ⟨rfl, h.symm⟩
  · rw [List.getElem?_append_right (by omega)] at h
    have hne : j - ts.length ≠ 0 := by omega
    simp [hne] at h

/-- The assertions a pool keeps: one on the shared state, one on each thread in view
of the shared state, and a compatibility of any two threads. -/
structure Holds (I : σ → Prop) (L : σ → τ → Prop) (R : τ → τ → Prop) (w : World σ τ) :
    Prop where
  shared : I w.shared
  each : ∀ (i : ℕ) t, w.threads[i]? = some t → L w.shared t
  pair : ∀ (i j : ℕ) t u, i ≠ j → w.threads[i]? = some t → w.threads[j]? = some u → R t u

theorem Holds.of_mem (h : Holds I L R w) (ht : t ∈ w.threads) : L w.shared t := by
  obtain ⟨i, hi⟩ := List.getElem?_of_mem ht
  exact h.each i t hi

/-! ## Runs from a world -/

/-- The worlds reached from `w₀` by steps that are all `ok`. -/
inductive Program.Runs (P : Program σ τ ρ ℓ ε) (ok : World σ τ → Act ρ ℓ ε → Prop)
    (w₀ : World σ τ) : World σ τ → Prop
  | refl : P.Runs ok w₀ w₀
  | step {w w' : World σ τ} (a : Act ρ ℓ ε) :
      P.Runs ok w₀ w → ok w a → P.step w a = some w' → P.Runs ok w₀ w'

/-- A thread takes a step that meets the guard, and that every other thread admits. -/
def Guard.Beside (G : Guard σ τ ℓ ε) (A : σ → τ → ℓ → τ → Prop) (w : World σ τ) :
    Act ρ ℓ ε → Prop
  | .spawn _ => True
  | .run i l => ∀ t ∈ w.threads[i]?, G.thread w.shared t l ∧
      ∀ u ∈ w.threads.eraseIdx i, A w.shared t l u
  | .env e => G.env w.shared e

instance Guard.decidableBeside (G : Guard σ τ ℓ ε) (A : σ → τ → ℓ → τ → Prop)
    [∀ s t l, Decidable (G.thread s t l)] [∀ s e, Decidable (G.env s e)]
    [∀ s t l u, Decidable (A s t l u)] (w : World σ τ) (a : Act ρ ℓ ε) :
    Decidable (G.Beside A w a) :=
  match a with
  | .spawn _ => isTrue trivial
  | .run i l => inferInstanceAs (Decidable (∀ t ∈ w.threads[i]?, G.thread w.shared t l ∧
      ∀ u ∈ w.threads.eraseIdx i, A w.shared t l u))
  | .env e => inferInstanceAs (Decidable (G.env w.shared e))

variable {ok : World σ τ → Act ρ ℓ ε → Prop} {A : σ → τ → ℓ → τ → Prop} {w₀ : World σ τ}

/-- Reaching a world is running to it from the idle world. -/
theorem Program.Reach.toRuns (h : P.Reach G s₀ w) :
    P.Runs (G.Beside fun _ _ _ _ => True) ⟨s₀, []⟩ w := by
  induction h with
  | init => exact .refl
  | @step w w' a _ hok hs ih =>
    refine ih.step a ?_ hs
    cases a with
    | spawn r => trivial
    | run i l => exact fun t ht => ⟨hok t ht, fun _ _ => trivial⟩
    | env e => exact hok

/-- Run a list of actions; `none` when one of them is not enabled or not `ok`. -/
def Program.execIf (P : Program σ τ ρ ℓ ε) (ok : World σ τ → Act ρ ℓ ε → Prop)
    [∀ w a, Decidable (ok w a)] : World σ τ → List (Act ρ ℓ ε) → Option (World σ τ)
  | w, [] => some w
  | w, a :: as => if ok w a then (P.step w a).bind fun w' => P.execIf ok w' as else none

theorem Program.Runs.execIf [∀ w a, Decidable (ok w a)] (h : P.Runs ok w₀ w) (as : List (Act ρ ℓ ε))
    (hw : P.execIf ok w as = some w') : P.Runs ok w₀ w' := by
  induction as generalizing w with
  | nil =>
    cases hw
    exact h
  | cons a as ih =>
    unfold Program.execIf at hw
    split at hw
    · rename_i hok
      obtain ⟨v, hv, hw⟩ := Option.bind_eq_some_iff.mp hw
      exact ih (h.step a hok hv) hw
    · cases hw

theorem holds_idle (init : I s₀) :
    Holds I L R ⟨s₀, []⟩ where
  shared := init
  each _ _ ht := by simp at ht
  pair _ _ _ _ _ ht := by simp at ht

section Holds

variable {I : σ → Prop} {L : σ → τ → Prop} {R : τ → τ → Prop} {w : World σ τ}

/-- A thread is started. -/
theorem Holds.spawn (h : Holds I L R w) (symm : ∀ t u, R t u → R u t) {t : τ}
    (hL : L w.shared t) (hR : ∀ u, L w.shared u → R t u) :
    Holds I L R { w with threads := w.threads ++ [t] } := by
  refine ⟨h.shared, ?_, ?_⟩
  · intro i u hu
    rcases getElem?_append_singleton_cases hu with ⟨_, rfl⟩ | hu
    · exact hL
    · exact h.each i u hu
  · intro i j u v hij hu hv
    rcases getElem?_append_singleton_cases hu with ⟨hi, rfl⟩ | hu' <;>
      rcases getElem?_append_singleton_cases hv with ⟨hj, rfl⟩ | hv'
    · omega
    · exact hR v (h.each j v hv')
    · exact symm _ _ (hR u (h.each i u hu'))
    · exact h.pair i j u v hij hu' hv'

/-- A thread takes a step; `hrest` is what a thread that does not move may rely on. -/
theorem Holds.run (h : Holds I L R w) (symm : ∀ t u, R t u → R u t) {k : ℕ} {s' : σ} {t' : τ}
    (hI : I s') (hL : L s' t')
    (hrest : ∀ j u, j ≠ k → w.threads[j]? = some u → L s' u ∧ R t' u) :
    Holds I L R ⟨s', w.threads.set k t'⟩ := by
  refine ⟨hI, ?_, ?_⟩
  · intro i t ht
    rcases getElem?_set_cases ht with ⟨_, rfl⟩ | ⟨hne, ht⟩
    · exact hL
    · exact (hrest i t hne ht).1
  · intro i j t u hij ht hu
    rcases getElem?_set_cases ht with ⟨hi, rfl⟩ | ⟨hi, ht'⟩ <;>
      rcases getElem?_set_cases hu with ⟨hj, rfl⟩ | ⟨hj, hu'⟩
    · omega
    · exact (hrest j u hj hu').2
    · exact symm _ _ (hrest i t hi ht').2
    · exact h.pair i j t u hij ht' hu'

end Holds

/-- **The local invariant rule.**  It is enough to look at the thread that moves, at
one thread that does not and admits the step, and at the environment. -/
theorem Program.Runs.local_invariant (symm : ∀ t u, R t u → R u t) (init : Holds I L R w₀)
    (spawn : ∀ s r, I s → L s (P.entry r) ∧ ∀ u, L s u → R (P.entry r) u)
    (run : ∀ s t l s' t', I s → L s t → G.thread s t l → P.thread s t l = some (s', t') →
      (I s' ∧ L s' t') ∧ ∀ u, L s u → R t u → A s t l u → L s' u ∧ R t' u)
    (env : ∀ s e s', I s → G.env s e → P.env s e = some s' →
      I s' ∧ ∀ u, L s u → L s' u)
    {w : World σ τ} (h : P.Runs (G.Beside A) w₀ w) : Holds I L R w := by
  induction h with
  | refl => exact init
  | @step w w' a _ hok hs ih =>
    cases a with
    | spawn r =>
      cases hs
      obtain ⟨hL, hR⟩ := spawn w.shared r ih.shared
      exact ih.spawn symm hL hR
    | run k l =>
      obtain ⟨t₀, s', t', hk, hstep, rfl⟩ := Program.step_run hs
      obtain ⟨hthread, hbeside⟩ := hok t₀ hk
      obtain ⟨⟨hI, hL⟩, hother⟩ :=
        run w.shared t₀ l s' t' ih.shared (ih.each k t₀ hk) hthread hstep
      refine ih.run symm hI hL fun j u hj hu => ?_
      exact hother u (ih.each j u hu) (ih.pair k j t₀ u (Ne.symm hj) hk hu)
        (hbeside u (List.mem_eraseIdx_iff_getElem?.mpr ⟨j, hj, hu⟩))
    | env e =>
      simp only [Program.step, Option.map_eq_some_iff] at hs
      obtain ⟨s', hstep, rfl⟩ := hs
      obtain ⟨hI, hL⟩ := env w.shared e s' ih.shared hok hstep
      exact ⟨hI, fun i t ht => hL t (ih.each i t ht), ih.pair⟩

/-- **The rule for the threads that are started later**: an assertion on the shared state, and one
on every thread started after `w₀`. -/
theorem Program.Runs.later_invariant {L : τ → Prop} (init : I w₀.shared)
    (spawn : ∀ r, L (P.entry r))
    (run : ∀ w i t l s' t', ok w (.run i l) → I w.shared → P.thread w.shared t l = some (s', t') →
      I s' ∧ (L t → L t'))
    (env : ∀ w e s', ok w (.env e) → I w.shared → P.env w.shared e = some s' → I s')
    {w : World σ τ} (h : P.Runs ok w₀ w) :
    I w.shared ∧ ∀ (i : ℕ) t, w₀.threads.length ≤ i → w.threads[i]? = some t → L t := by
  induction h with
  | refl =>
    refine ⟨init, ?_⟩
    intro i t hi ht
    rw [List.getElem?_eq_none hi] at ht
    cases ht
  | @step w w' a _ hok hs ih =>
    obtain ⟨hI, hL⟩ := ih
    cases a with
    | spawn r =>
      cases hs
      refine ⟨hI, ?_⟩
      intro i t hi ht
      rcases getElem?_append_singleton_cases ht with ⟨_, rfl⟩ | ht
      · exact spawn r
      · exact hL i t hi ht
    | run k l =>
      obtain ⟨t₀, s', t', hk, hstep, rfl⟩ := Program.step_run hs
      obtain ⟨hI', hL'⟩ := run w k t₀ l s' t' hok hI hstep
      refine ⟨hI', ?_⟩
      intro i t hi ht
      rcases getElem?_set_cases ht with ⟨rfl, rfl⟩ | ⟨-, ht⟩
      · exact hL' (hL i t₀ hi hk)
      · exact hL i t hi ht
    | env e =>
      simp only [Program.step, Option.map_eq_some_iff] at hs
      obtain ⟨s', hstep, rfl⟩ := hs
      exact ⟨env w e s' hok hI hstep, hL⟩

/-- The local invariant rule for everything that is reachable. -/
theorem Program.Reach.local_invariant (symm : ∀ t u, R t u → R u t) (init : I s₀)
    (spawn : ∀ s r, I s → L s (P.entry r) ∧ ∀ u, L s u → R (P.entry r) u)
    (run : ∀ s t l s' t', I s → L s t → G.thread s t l → P.thread s t l = some (s', t') →
      (I s' ∧ L s' t') ∧ ∀ u, L s u → R t u → L s' u ∧ R t' u)
    (env : ∀ s e s', I s → G.env s e → P.env s e = some s' →
      I s' ∧ ∀ u, L s u → L s' u)
    {w : World σ τ} (h : P.Reach G s₀ w) : Holds I L R w := by
  refine Program.Runs.local_invariant symm (holds_idle init) spawn ?_ env h.toRuns
  intro s t l s' t' hs ht hg hstep
  obtain ⟨hself, hother⟩ := run s t l s' t' hs ht hg hstep
  exact ⟨hself, fun u hu hpair _ => hother u hu hpair⟩

/-- Runs whose steps are all allowed by a guard, in view of what the guard gives so far. -/
theorem Program.Runs.toReach
    (allows : ∀ w a, P.Runs ok ⟨s₀, []⟩ w → P.Reach G s₀ w → ok w a → G.Allows w a)
    (h : P.Runs ok ⟨s₀, []⟩ w) : P.Reach G s₀ w := by
  induction h with
  | refl => exact .init
  | @step w w' a hr hok hs ih => exact ih.step a (allows w a hr ih hok) hs

/-- **The service rule.**  If whatever the state owes after a step is served by the
thread that moved, or was owed before and not by that thread, then in every reachable
world each thing owed is served by some thread. -/
theorem Program.Reach.served {κ : Type*}
    (owed : σ → κ → Prop) (serves : τ → κ → Prop)
    (inv : ∀ w, P.Reach G s₀ w → Holds I L R w)
    (init : ∀ k, ¬ owed s₀ k)
    (run : ∀ s t l s' t' k, I s → L s t → G.thread s t l → P.thread s t l = some (s', t') →
      owed s' k → serves t' k ∨ (owed s k ∧ ¬ serves t k))
    (env : ∀ s e s' k, I s → G.env s e → P.env s e = some s' → owed s' k → owed s k)
    {w : World σ τ} (h : P.Reach G s₀ w) :
    ∀ k, owed w.shared k → ∃ t ∈ w.threads, serves t k := by
  induction h with
  | init => intro k hk; exact absurd hk (init k)
  | @step w w' a hr hok hs ih =>
    intro k hk
    have hw := inv w hr
    cases a with
    | spawn r =>
      cases hs
      obtain ⟨t, ht, hserve⟩ := ih k hk
      exact ⟨t, List.mem_append_left _ ht, hserve⟩
    | run i l =>
      obtain ⟨t₀, s', t', hi, hstep, rfl⟩ := Program.step_run hs
      have hlen : i < w.threads.length := (List.getElem?_eq_some_iff.mp hi).1
      rcases run w.shared t₀ l s' t' k hw.shared (hw.each i t₀ hi) (hok t₀ hi) hstep hk
        with hserve | ⟨howed, hnot⟩
      · exact ⟨t', List.mem_set hlen t', hserve⟩
      · obtain ⟨u, hu, hserve⟩ := ih k howed
        obtain ⟨j, hj⟩ := List.getElem?_of_mem hu
        have hne : i ≠ j := by
          rintro rfl
          rw [hi] at hj
          cases hj
          exact hnot hserve
        refine ⟨u, List.mem_of_getElem? (i := j) ?_, hserve⟩
        rw [List.getElem?_set_ne hne, hj]
    | env e =>
      simp only [Program.step, Option.map_eq_some_iff] at hs
      obtain ⟨s', hstep, rfl⟩ := hs
      exact ih k (env w.shared e s' k hw.shared hok hstep hk)

/-! ## A thread by itself -/

/-- One thread goes on by itself. -/
def Program.solo (P : Program σ τ ρ ℓ ε) : σ → τ → List ℓ → Option (σ × τ)
  | s, t, [] => some (s, t)
  | s, t, l :: ls => (P.thread s t l).bind fun r => P.solo r.1 r.2 ls

/-- What a thread does by itself is a run of the pool. -/
theorem Program.exec_solo {t' : τ} {s' : σ} {ls : List ℓ} (hi : w.threads[i]? = some t)
    (h : P.solo w.shared t ls = some (s', t')) :
    P.exec w (ls.map (Act.run i)) = some ⟨s', w.threads.set i t'⟩ := by
  induction ls generalizing w t with
  | nil =>
    cases h
    obtain ⟨hlt, rfl⟩ := List.getElem?_eq_some_iff.mp hi
    rw [List.map_nil, Program.exec, List.set_getElem_self hlt]
  | cons l ls ih =>
    obtain ⟨⟨s₁, t₁⟩, hstep, h⟩ := Option.bind_eq_some_iff.mp h
    have hlt : i < w.threads.length := (List.getElem?_eq_some_iff.mp hi).1
    have hnext := ih (w := ⟨s₁, w.threads.set i t₁⟩) (List.getElem?_set_self hlt) h
    simp only [List.map_cons, Program.exec, Program.step, hi, hstep, Option.map_some,
      Option.bind_some]
    rw [hnext, List.set_set]

end AgentBus.Pool
