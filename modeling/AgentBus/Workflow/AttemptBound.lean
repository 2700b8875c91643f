import AgentBus.Workflow.Steps

/-!
# The attempt bound

The limit on attempts is enforced where a retry is decided, not where it is folded and not
where a lease is granted.  So an execution stays within its limit as long as every
wf.retry that takes effect meets an execution with attempts left; a wf.retry that is
redelivered while the last attempt runs opens one attempt too many.

The invariant covers the poller too: every event in the log, or fetched from it, was
stamped by a call.

## Main definitions

* `retryGuard` — the steps under which the bound holds.
* `attempt_le_maxAttempts` — the bound.
* `attempt_bound_broken` — a run in which it fails.
-/

namespace AgentBus.Workflow

open AgentStream Pool

/-- A wf.retry that takes effect finds an attempt left. -/
def RetryFits (s : State) (e : Event) : Prop :=
  ∀ x ∈ s.store.find? e.key, eventType e = some .retry → (x.apply e).isSome = true →
    x.attempt < x.maxAttempts

instance (s : State) (e : Event) : Decidable (RetryFits s e) :=
  inferInstanceAs (Decidable (∀ x ∈ s.store.find? e.key, eventType e = some .retry →
    (x.apply e).isSome = true → x.attempt < x.maxAttempts))

/-- No call and no delivery of the poller folds a wf.retry into an execution without an
attempt left. -/
def retryGuard (c : Config) : Guard State Thread Choice EnvStep where
  thread s t _ := ∀ e ∈ t.folding? c, RetryFits s e
  env s e := e = .poll → ∀ p ∈ s.poller.inbox.head?, RetryFits s p.1

instance (c : Config) (s : State) (t : Thread) (l : Choice) :
    Decidable ((retryGuard c).thread s t l) :=
  inferInstanceAs (Decidable (∀ e ∈ t.folding? c, RetryFits s e))

instance (c : Config) (s : State) (e : EnvStep) : Decidable ((retryGuard c).env s e) :=
  inferInstanceAs (Decidable (e = .poll → ∀ p ∈ s.poller.inbox.head?, RetryFits s p.1))

/-! ## One execution -/

/-- Within the limit, and with an attempt left while waiting for a lease. -/
structure Bounded (x : Execution) : Prop where
  le : x.attempt ≤ x.maxAttempts
  pending : x.status = .pending → x.attempt < x.maxAttempts

theorem Bounded.folds {x x' : Execution} {e : Event} (h : Execution.Folds x e x')
    (hfits : eventType e = some .retry → x.attempt < x.maxAttempts) (hx : Bounded x) :
    Bounded x' := by
  cases h with
  | leased p ty payload status attempt =>
    have hlt := hx.pending status
    refine ⟨?_, by simp [Execution.lease, Execution.record]⟩
    simp only [Execution.lease, Execution.record]
    omega
  | heartbeat p ty payload status attempt worker => exact ⟨hx.le, hx.pending⟩
  | completed p ty payload live attempt leased =>
    exact ⟨hx.le, by simp [Execution.complete, Execution.record]⟩
  | failed p ty payload status attempt =>
    exact ⟨hx.le, by simp [Execution.fail, Execution.record]⟩
  | retry p ty payload status => exact ⟨hx.le, fun _ => hfits ty⟩
  | dead p ty payload live => exact ⟨hx.le, by simp [Execution.kill, Execution.record]⟩

/-- A submit that starts an execution leaves it an attempt. -/
def SubmitFits (e : Event) : Prop :=
  eventType e = some .submitted → ∀ ref x, newExecution ref e = some x → Bounded x

/-- A positive 64-bit duration is a 64-bit number of milliseconds. -/
theorem millis_range {ttl : ℤ} (h0 : 0 < ttl) (h1 : ttl < 2 ^ 63) :
    -2 ^ 63 ≤ ttl / Time.millisecond ∧ ttl / Time.millisecond < 2 ^ 63 := by
  simp only [Time.millisecond]
  omega

@[simp] theorem payload_unmarshal (c : Config) (spec : SubmitSpec) :
    SubmitPayload.unmarshal (some (spec.payload c).marshal) = some (spec.payload c) := by
  refine SubmitPayload.unmarshal_marshal _ ?_ ?_
  · have hmax := c.maxAttempts_pos
    have hmax' := c.maxAttempts_lt
    have hspec := spec.maxAttempts_lt
    simp only [SubmitSpec.payload]
    split <;> omega
  · simp only [SubmitSpec.payload]
    split
    · exact millis_range c.leaseTTL_pos c.leaseTTL_lt
    · rename_i hpos
      exact millis_range (not_le.mp hpos) spec.leaseTTL_lt

theorem payload_maxAttempts_pos (c : Config) (spec : SubmitSpec) :
    0 < (spec.payload c).maxAttempts := by
  have hmax := c.maxAttempts_pos
  simp only [SubmitSpec.payload]
  split <;> omega

theorem Frame.submitFits (c : Config) (stamp : Time) (f : Frame) :
    SubmitFits (f.event c stamp) := by
  intro ty ref x hx
  have hf : f.type = .submitted := by simpa using ty
  obtain ⟨spec, rfl⟩ := Frame.eq_submit_of_type hf
  have hpos := payload_maxAttempts_pos c spec
  have hread : SubmitPayload.unmarshal ((Frame.submit spec).event c stamp).payload =
      some (spec.payload c) := payload_unmarshal c spec
  simp only [newExecution, hread, Option.bind_eq_bind, Option.bind_some] at hx
  split at hx
  · cases hx
  · cases hx
    exact ⟨hpos.le, fun _ => hpos⟩

/-! ## The invariant -/

/-- Every tracked execution is within its limit, and no event waiting to be folded starts
one that is not. -/
structure AttemptInv (s : State) : Prop where
  execs : ∀ k x, s.store.find? k = some x → Bounded x
  log : ∀ e ∈ s.log, SubmitFits e
  inbox : ∀ p ∈ s.poller.inbox, SubmitFits p.1

/-- Folding an event keeps every execution within its limit. -/
theorem bounded_apply {s : State} (h : ∀ k x, s.store.find? k = some x → Bounded x) {e : Event}
    (hsub : SubmitFits e) (hfits : RetryFits s e) (k : String) (x : Execution)
    (hx : (s.store.apply e).1.find? k = some x) : Bounded x := by
  obtain ⟨o, hwritten, hfind | ⟨-, hnone, -⟩⟩ := Store.find?_apply_cases s.store e k
  · rw [hfind] at hx
    cases hwritten with
    | same refused => exact h k x hx
    | created nx key ty absent valid =>
      cases hx
      exact hsub ty _ _ valid
    | folded y y' key present folds =>
      cases hx
      refine Bounded.folds folds (fun ty => hfits y (key ▸ present) ty ?_) (h k y present)
      rw [Execution.apply_eq_some_iff.mpr folds]
      rfl
  · rw [hnone] at hx
    cases hx

theorem AttemptInv.thread {c : Config} {s s' : State} {t t' : Thread} {l : Choice}
    (h : AttemptInv s) (hg : (retryGuard c).thread s t l) (hsteps : Steps c s t l s' t') :
    AttemptInv s' := by
  have hexecs : ∀ k x, s'.store.find? k = some x → Bounded x := by
    intro k x hx
    have hchange := hsteps.findChange k
    rw [hx] at hchange
    generalize ho : some x = o at hchange
    cases hchange with
    | same => exact h.execs k x ho.symm
    | evicted retained => cases ho
    | reserved b y thread next present pending free =>
      cases ho
      exact ⟨(h.execs k y present).le, (h.execs k y present).pending⟩
    | unreserved b y z thread key present ref =>
      cases ho
      exact ⟨(h.execs k z present).le, (h.execs k z present).pending⟩
    | fenced a y thread next key present live current leased free =>
      cases ho
      exact ⟨(h.execs k y present).le, (h.execs k y present).pending⟩
    | released a y thread key present =>
      cases ho
      exact ⟨(h.execs k y present).le, (h.execs k y present).pending⟩
    | created f stamp nx thread next key type absent valid =>
      cases ho
      exact f.submitFits c stamp (by simp [type]) _ _ valid
    | folded f stamp y x' thread next key present folds =>
      cases ho
      subst thread key
      refine Bounded.folds folds (fun ty => hg _ rfl y (by simpa using present) ty ?_)
        (h.execs _ y present)
      rw [Execution.apply_eq_some_iff.mpr folds]
      rfl
  have hrest : (∀ e ∈ s'.log, SubmitFits e) ∧ s'.poller = s.poller := by
    cases hsteps with
    | publish f stamp valid =>
      refine ⟨?_, rfl⟩
      intro e he
      rcases List.mem_append.mp he with he | he
      · exact h.log e he
      · rw [List.mem_singleton.mp he]
        exact f.submitFits c stamp
    | _ => exact ⟨h.log, rfl⟩
  exact ⟨hexecs, hrest.1, hrest.2 ▸ h.inbox⟩

theorem AttemptInv.environment {c : Config} {s s' : State} {e : EnvStep} (h : AttemptInv s)
    (hg : (retryGuard c).env s e) (hstep : Environs c s e s') : AttemptInv s' := by
  cases hstep with
  | tick now le => exact ⟨h.execs, h.log, h.inbox⟩
  | fetch p inbox => exact ⟨h.execs, h.log, fun q hq => h.log q.1 (inbox q hq)⟩
  | deliver e o p inbox =>
    have hsub : SubmitFits e := h.inbox (e, o) (by simp [inbox])
    have hfits : RetryFits s e := hg rfl (e, o) (by simp [inbox])
    exact ⟨bounded_apply h.execs hsub hfits, h.log, fun q hq => h.inbox q (by simp [inbox, hq])⟩

/-- **The attempt bound.**  In every run of calls and poller deliveries in which no wf.retry
takes effect on an execution without an attempt left, no execution is ever leased more
often than its limit allows. -/
theorem attempt_le_maxAttempts (c : Config) {w : World State Thread}
    (h : (coordinator c).Reach (retryGuard c) (State.init c) w) {k : String} {x : Execution}
    (hx : w.shared.store.find? k = some x) : x.attempt ≤ x.maxAttempts := by
  have hinv := Program.Reach.local_invariant (I := AttemptInv) (L := fun _ _ => True)
    (R := fun _ _ => True) (fun _ _ _ => trivial)
    ⟨fun k x hx => by simp [State.init, Store.empty, Store.find?] at hx, by simp [State.init],
      by simp [State.init]⟩
    (fun _ _ _ => ⟨trivial, fun _ _ => trivial⟩)
    (fun s t l s' t' hs _ hg hstep =>
      ⟨⟨hs.thread hg (coordinator_steps hstep), trivial⟩, fun _ _ _ => ⟨trivial, trivial⟩⟩)
    (fun s e s' hs hg hstep =>
      ⟨hs.environment hg (environment_spec hstep), fun _ _ => trivial⟩) h
  exact (hinv.shared.execs k x hx).le

/-! ## One attempt too many -/

/-- The first attempt fails, the second is leased. -/
def secondLease : List (Act Request Choice EnvStep) :=
  firstAttempt 2 ++ arrive 2 7 (.fail ⟨firstHolder, "boom", true⟩) ++
    arrive 3 8 (.leaseBatch ⟨"build", "w2", 1, 0⟩)

/-- The poller reads the three partitions and delivers the retry of the first attempt
while the second runs; a third lease is granted. -/
def thirdLease : List (Act Request Choice EnvStep) :=
  secondLease ++ List.replicate 8 (.env .poll) ++ arrive 4 8 (.leaseBatch ⟨"build", "w3", 1, 0⟩)

/-- The third attempt of an execution that may have two. -/
theorem attempt_bound_broken :
    ∃ w, (coordinator .default).Reach Guard.all (State.init .default) w ∧
      (w.shared.store.find? "acme/p/w").map (fun x => (x.attempt, x.maxAttempts)) =
        some (3, 2) := by
  have hrun : ((coordinator .default).exec ⟨State.init .default, []⟩ thirdLease).map
      (fun w => (w.shared.store.find? "acme/p/w").map fun x => (x.attempt, x.maxAttempts)) =
        some (some (3, 2)) := by
    decide +kernel
  obtain ⟨w, hw, heq⟩ := Program.exists_reach hrun
  exact ⟨w, hw, heq⟩

/-- The second of two attempts is within the bound. -/
theorem attempt_bound_second :
    ∃ w, (coordinator .default).Reach (retryGuard .default) (State.init .default) w ∧
      ∃ x, w.shared.store.find? "acme/p/w" = some x ∧ x.attempt = 2 ∧
        x.attempt ≤ x.maxAttempts := by
  have hrun : ((coordinator .default).execWithin (retryGuard .default)
      ⟨State.init .default, []⟩ secondLease).map
      (fun w => (w.shared.store.find? "acme/p/w").map Execution.attempt) = some (some 2) := by
    decide +kernel
  obtain ⟨w, hreach, heq⟩ := Program.exists_reach_within hrun
  obtain ⟨x, hx, hatt⟩ := Option.map_eq_some_iff.mp heq
  exact ⟨w, hreach, x, hx, hatt, attempt_le_maxAttempts .default hreach hx⟩

end AgentBus.Workflow
