import AgentBus.Lib.Pool

/-!
# One thread at a time

The runs of a pool in which every request is served to its end before the next one arrives.  The
environment takes its steps in between.

## Main definitions

* `Program.alone`, `Program.call`, `Program.serial` — the runs.
* `Program.answers` — the runs with the ends of their threads.
* `Program.serial_invariant`, `Program.answers_invariant` — the invariant rules.
-/

namespace AgentBus.Pool

variable {σ τ ρ ℓ ε : Type*}

/-- A thread that runs alone takes a step, or the environment does. -/
def Program.alone (P : Program σ τ ρ ℓ ε) (p : σ × τ) : ℓ ⊕ ε → Option (σ × τ)
  | .inl l => P.thread p.1 p.2 l
  | .inr e => (P.env p.1 e).map fun s => (s, p.2)

/-- A request from its start to its end; `none` when it does not end. -/
def Program.call (P : Program σ τ ρ ℓ ε) (ended : τ → Bool) (s : σ) (r : ρ)
    (as : List (ℓ ⊕ ε)) : Option σ :=
  (as.foldlM P.alone (s, P.entry r)).bind fun p => if ended p.2 then some p.1 else none

/-- A sequence of requests. -/
def Program.serial (P : Program σ τ ρ ℓ ε) (ended : τ → Bool) (s : σ)
    (calls : List (ρ × List (ℓ ⊕ ε))) : Option σ :=
  calls.foldlM (fun s q => P.call ended s q.1 q.2) s

/-- A request from its start to its end, after others that have ended as `p.2`. -/
def Program.answer (P : Program σ τ ρ ℓ ε) (ended : τ → Bool) (p : σ × List τ)
    (q : ρ × List (ℓ ⊕ ε)) : Option (σ × List τ) :=
  (q.2.foldlM P.alone (p.1, P.entry q.1)).bind fun r =>
    if ended r.2 then some (r.1, p.2 ++ [r.2]) else none

/-- A sequence of requests, with the ends of their threads in order. -/
def Program.answers (P : Program σ τ ρ ℓ ε) (ended : τ → Bool) (s : σ)
    (calls : List (ρ × List (ℓ ⊕ ε))) : Option (σ × List τ) :=
  calls.foldlM (P.answer ended) (s, [])

variable {P : Program σ τ ρ ℓ ε} {ended : τ → Bool}

theorem Program.alone_invariant {I : σ → τ → Prop}
    (run : ∀ s t l s' t', I s t → P.thread s t l = some (s', t') → I s' t')
    (env : ∀ s t e s', I s t → P.env s e = some s' → I s' t) {as : List (ℓ ⊕ ε)} {p q : σ × τ}
    (hp : I p.1 p.2) (hq : as.foldlM P.alone p = some q) : I q.1 q.2 := by
  induction as generalizing p with
  | nil =>
    cases hq
    exact hp
  | cons a as ih =>
    rw [List.foldlM_cons] at hq
    obtain ⟨p₁, hp₁, hq⟩ := Option.bind_eq_some_iff.mp hq
    refine ih ?_ hq
    cases a with
    | inl l => exact run p.1 p.2 l p₁.1 p₁.2 hp hp₁
    | inr e =>
      obtain ⟨s, hs, rfl⟩ := Option.map_eq_some_iff.mp hp₁
      exact env p.1 p.2 e s hp hs

/-- **The invariant rule** that keeps the ends of the threads: an assertion between the requests,
and one while a request is served. -/
theorem Program.answers_invariant {I : List τ → σ → τ → Prop} {J : List τ → σ → Prop}
    (start : ∀ ts s r, J ts s → I ts s (P.entry r))
    (run : ∀ ts s t l s' t', I ts s t → P.thread s t l = some (s', t') → I ts s' t')
    (env : ∀ ts s t e s', I ts s t → P.env s e = some s' → I ts s' t)
    (finish : ∀ ts s t, I ts s t → ended t = true → J (ts ++ [t]) s)
    {calls : List (ρ × List (ℓ ⊕ ε))} {s s' : σ} {ts : List τ} (hs : J [] s)
    (h : P.answers ended s calls = some (s', ts)) : J ts s' := by
  rw [Program.answers] at h
  generalize ([] : List τ) = before at hs h
  induction calls generalizing s before with
  | nil =>
    cases h
    exact hs
  | cons q calls ih =>
    rw [List.foldlM_cons] at h
    obtain ⟨⟨s₁, ts₁⟩, hs₁, h⟩ := Option.bind_eq_some_iff.mp h
    refine ih ts₁ ?_ h
    obtain ⟨p, hp, hended⟩ := Option.bind_eq_some_iff.mp hs₁
    split at hended <;> cases hended
    rename_i hfin
    refine finish before p.1 p.2 ?_ hfin
    exact Program.alone_invariant (run before) (env before) (start before s q.1 hs) hp

/-- The two ways to run requests agree. -/
theorem Program.serial_eq (P : Program σ τ ρ ℓ ε) (ended : τ → Bool) (s : σ)
    (calls : List (ρ × List (ℓ ⊕ ε))) :
    P.serial ended s calls = (P.answers ended s calls).map Prod.fst := by
  rw [Program.answers]
  generalize ([] : List τ) = before
  induction calls generalizing s before with
  | nil => rfl
  | cons q calls ih =>
    rw [Program.serial, List.foldlM_cons, List.foldlM_cons, Program.call, Program.answer]
    cases q.2.foldlM P.alone (s, P.entry q.1) with
    | none => rfl
    | some p =>
      simp only [Option.bind_some]
      by_cases hfin : ended p.2 = true
      · rw [if_pos hfin, if_pos hfin]
        exact ih p.1 (before ++ [p.2])
      · rw [if_neg hfin, if_neg hfin]
        rfl

/-- **The invariant rule**: an assertion between the requests, and one while a request is served. -/
theorem Program.serial_invariant {I : σ → τ → Prop} {J : σ → Prop}
    (start : ∀ s r, J s → I s (P.entry r))
    (run : ∀ s t l s' t', I s t → P.thread s t l = some (s', t') → I s' t')
    (env : ∀ s t e s', I s t → P.env s e = some s' → I s' t)
    (finish : ∀ s t, I s t → ended t = true → J s) {calls : List (ρ × List (ℓ ⊕ ε))} {s s' : σ}
    (hs : J s) (h : P.serial ended s calls = some s') : J s' := by
  rw [Program.serial_eq] at h
  obtain ⟨⟨s', ts⟩, hanswers, rfl⟩ := Option.map_eq_some_iff.mp h
  exact Program.answers_invariant (I := fun _ => I) (J := fun _ => J) (fun _ => start)
    (fun _ => run) (fun _ => env) (fun _ => finish) hs hanswers

end AgentBus.Pool
