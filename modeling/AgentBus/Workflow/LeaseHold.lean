import AgentBus.Workflow.Progress

/-!
# Who may end a lease

While its lease has not expired, a running attempt should be ended by the worker that holds it: by
a `Complete` or a `Fail` of that attempt.  `SweepExpired` and `Fail` decide on copies and append
their wf.retry or wf.dead later, and the fold accepts these events at any attempt.  A decision that
has become stale takes a newer lease away.

The guard of this module excludes stale decisions and nothing else: when the second event of a
`Fail` is folded into a running execution it is still the attempt that failed, and when the event
of a sweep is folded into one its lease has not been renewed since.

## Main definitions

* `Frame.Fresh`, `holdGuard` — no stale decision takes effect.
* `Frame.Ends` — the frames of a `Complete` or a `Fail` of one attempt.
* `Thread.Decided` — what a call that has decided relies on.
-/

namespace AgentBus.Workflow

open AgentStream Pool

/-- The frame a thread is about to fold. -/
def Thread.frame? : Thread → Option Frame
  | .folding f _ => some f
  | _ => none

/-- The lease a decision was made on is still the current one. -/
def Frame.Fresh (x : Execution) : Frame → Prop
  | .verdict a _ => x.attempt = a.attempt
  | .sweep y _ _ => x.leaseDeadline = y.leaseDeadline
  | _ => True

instance (x : Execution) (f : Frame) : Decidable (f.Fresh x) :=
  match f with
  | .verdict a _ => inferInstanceAs (Decidable (x.attempt = a.attempt))
  | .sweep y _ _ => inferInstanceAs (Decidable (x.leaseDeadline = y.leaseDeadline))
  | .submit _ | .grant _ _ _ | .heartbeat _ | .complete _ | .fail _ _ => isTrue trivial

/-- No stale decision is folded into a running execution.  The poller is not part of the calls. -/
def holdGuard : Guard State Thread Choice EnvStep where
  thread s t _ := ∀ f ∈ t.frame?, ∀ x ∈ s.store.find? f.key, x.status = .running → f.Fresh x
  env _ e := e ≠ .poll

instance (s : State) (t : Thread) (l : Choice) : Decidable (holdGuard.thread s t l) :=
  inferInstanceAs (Decidable (∀ f ∈ t.frame?, ∀ x ∈ s.store.find? f.key,
    x.status = .running → f.Fresh x))

instance (s : State) (e : EnvStep) : Decidable (holdGuard.env s e) :=
  inferInstanceAs (Decidable (e ≠ .poll))

/-- The frames of a `Complete` or a `Fail` of attempt `n` of the execution under `k`. -/
def Frame.Ends (k : String) (n : ℤ) : Frame → Prop
  | .complete a => a.key = k ∧ a.attempt = n
  | .fail a _ | .verdict a _ => a.key = k ∧ a.attempt = n
  | _ => False

instance (k : String) (n : ℤ) (f : Frame) : Decidable (f.Ends k n) :=
  match f with
  | .complete a => inferInstanceAs (Decidable (a.key = k ∧ a.attempt = n))
  | .fail a _ | .verdict a _ => inferInstanceAs (Decidable (a.key = k ∧ a.attempt = n))
  | .submit _ | .grant _ _ _ | .heartbeat _ | .sweep _ _ _ => isFalse id

/-! ## Decisions in flight -/

/-- What a frame was decided on: `Fail` works on a copy of its own execution, and a sweep on leases
that have expired. -/
def Frame.Decided (now : Time) : Frame → Prop
  | .fail a x | .verdict a x => x.key = a.key
  | .sweep x rest _ => x.leaseDeadline < now ∧ ∀ y ∈ rest, y.leaseDeadline < now
  | _ => True

/-- What a call was decided on. -/
def Thread.Decided (now : Time) : Thread → Prop
  | .preparing f | .publishing f _ | .folding f _ => f.Decided now
  | .expiring at' => at' ≤ now
  | .sweeping rest _ => ∀ y ∈ rest, y.leaseDeadline < now
  | _ => True

theorem Frame.Decided.mono {now now' : Time} {f : Frame} (h : f.Decided now) (hle : now ≤ now') :
    f.Decided now' := by
  cases f with
  | sweep x rest n =>
    exact ⟨h.1.trans_le hle, fun y hy => (h.2 y hy).trans_le hle⟩
  | fail a x => exact h
  | verdict a x => exact h
  | submit | grant | heartbeat | complete => trivial

theorem Thread.Decided.mono {now now' : Time} {t : Thread} (h : t.Decided now) (hle : now ≤ now') :
    t.Decided now' := by
  cases t with
  | preparing f => exact Frame.Decided.mono h hle
  | publishing f stamp => exact Frame.Decided.mono h hle
  | folding f stamp => exact Frame.Decided.mono h hle
  | expiring at' => exact le_trans h hle
  | sweeping rest n => exact fun y hy => (h y hy).trans_le hle
  | _ => trivial

section Steps

variable {c : Config} {s s' : State} {t t' : Thread} {l : Choice}

variable {now : Time} {f : Frame} {x : Execution}

theorem Frame.Decided.onError (h : f.Decided now) : f.onError.Decided now := by
  cases f with
  | sweep x rest n => exact h.2
  | _ => trivial

theorem Frame.Decided.onFolded (h : f.Decided now) : f.onFolded.Decided now := by
  cases f with
  | sweep x rest n => exact h.2
  | fail a x => exact h
  | _ => trivial

/-- What `ExpiredLeases` collects has expired. -/
theorem Store.leaseDeadline_of_expired {m : Store} {order : List String} {y : Execution}
    (hy : y ∈ (m.expiredLeases now order).2) : y.leaseDeadline < now := by
  obtain ⟨k, -, hk⟩ := List.mem_filterMap.mp hy
  have hexp := (Option.filter_eq_some_iff.mp hk).2
  simp only [expired, Bool.and_eq_true, decide_eq_true_eq] at hexp
  exact hexp.2

/-- What the moving call was decided on. -/
theorem Steps.decided (h : Steps c s t l s' t') (hs : s.store.Indexed) (ht : t.Decided s.clock) :
    t'.Decided s'.clock := by
  cases h with
  | quiet t t' l h =>
    cases h with
    | heartbeat a => exact heartbeatStart_ind s a (fun _ => trivial) fun _ _ => trivial
    | fail a => exact failStart_ind s a (fun _ => trivial) fun x hx => hs.keyed _ x hx.1
    | sweep => exact le_rfl
    | stamp f => exact ht
    | error f stamp => exact Frame.Decided.onError ht
    | reclaim x rest n =>
      exact ⟨ht x List.mem_cons_self, fun y hy => ht y (List.mem_cons_of_mem _ hy)⟩
    | _ => trivial
  | begin a r h => split <;> trivial
  | reserve b r h =>
    rcases b.onReserve_cases r.2 with ⟨x, -, heq⟩ | heq | heq <;> rw [heq] <;> trivial
  | publish f stamp valid => exact ht
  | fold f stamp => exact Frame.Decided.onFolded ht
  | expire now order perm =>
    intro y hy
    exact (Store.leaseDeadline_of_expired hy).trans_le ht
  | wait | unreserve | abort => trivial

/-- Only a decision of `Fail` or of a sweep appends a wf.retry or a wf.dead. -/
theorem Frame.eq_decision_of_type (h : f.type = .retry ∨ f.type = .dead) :
    (∃ a x, f = .verdict a x) ∨ ∃ x rest n, f = .sweep x rest n := by
  cases f with
  | verdict a x => exact .inl ⟨a, x, rfl⟩
  | sweep x rest n => exact .inr ⟨x, rest, n, rfl⟩
  | submit | grant | heartbeat | complete | fail => simp [Frame.type] at h

/-- A decision that is not stale ends a running attempt for its own worker, or after its lease. -/
theorem Frame.Fresh.ends (hfresh : f.Fresh x) (hdecided : f.Decided now)
    (hheld : now ≤ x.leaseDeadline) (hty : f.type = .retry ∨ f.type = .dead) :
    f.Ends f.key x.attempt := by
  rcases Frame.eq_decision_of_type hty with ⟨a, y, rfl⟩ | ⟨y, rest, n, rfl⟩
  · exact ⟨hdecided.symm, hfresh.symm⟩
  · have heq : x.leaseDeadline = y.leaseDeadline := hfresh
    exact absurd (heq ▸ hheld) (not_le_of_gt hdecided.1)

/-- What a fold that is not stale does to a running attempt. -/
theorem Execution.Folds.ends {x' : Execution} {stamp : Time}
    (h : Execution.Folds x (f.event c stamp) x') (hrun : x.status = .running) (hfresh : f.Fresh x)
    (hdecided : f.Decided now) (hheld : now ≤ x.leaseDeadline) :
    (x'.status = .running ∧ x'.attempt = x.attempt) ∨ f.Ends f.key x.attempt := by
  cases h with
  | leased p ty payload status attempt =>
    rw [hrun] at status
    cases status
  | heartbeat p ty payload status attempt worker => exact .inl ⟨hrun, rfl⟩
  | completed p ty payload live attempt leased =>
    rw [Frame.eventType_event, Option.some_inj] at ty
    obtain ⟨a, rfl⟩ := Frame.eq_complete_of_type ty
    exact .inr ⟨rfl, attempt⟩
  | failed p ty payload status attempt =>
    rw [Frame.eventType_event, Option.some_inj] at ty
    obtain ⟨a, y, rfl⟩ := Frame.eq_fail_of_type ty
    exact .inr ⟨rfl, attempt⟩
  | retry p ty payload status =>
    rw [Frame.eventType_event, Option.some_inj] at ty
    exact .inr (hfresh.ends hdecided hheld (.inl ty))
  | dead p ty payload live =>
    rw [Frame.eventType_event, Option.some_inj] at ty
    exact .inr (hfresh.ends hdecided hheld (.inr ty))

/-- A step that ends a running attempt before its deadline folds an event of its own worker. -/
theorem Steps.lease_kept (h : Steps c s t l s' t') (ht : t.Decided s.clock)
    (hg : holdGuard.thread s t l) {k : String} (hx : s.store.find? k = some x)
    (hrun : x.status = .running) (hheld : s.clock ≤ x.leaseDeadline) :
    (∃ y, s'.store.find? k = some y ∧ y.status = .running ∧ y.attempt = x.attempt) ∨
      ∃ f stamp, t = .folding f stamp ∧ l = .go ∧ f.Ends k x.attempt := by
  have hlive : x.terminal = false := by simp [Execution.terminal, hrun]
  rcases h.find?_of_live hx hlive with ⟨y, hy, heq⟩ | ⟨f, stamp, x', rfl, rfl, rfl, hfolds, hx'⟩
  · have hstatus : y.unflagged.status = x.unflagged.status := congrArg Execution.status heq
    have hattempt : y.unflagged.attempt = x.unflagged.attempt := congrArg Execution.attempt heq
    exact .inl ⟨y, hy, hstatus.trans hrun, hattempt⟩
  · rcases hfolds.ends hrun (hg f rfl x hx hrun) ht hheld with ⟨hrun', hattempt⟩ | hends
    · rcases hx' with hx' | ⟨-, hterm⟩
      · exact .inl ⟨x', hx', hrun', hattempt⟩
      · simp [Execution.terminal, hrun'] at hterm
    · exact .inr ⟨f, stamp, rfl, rfl, hends⟩

end Steps

/-! ## Whole runs -/

theorem hold_holds {c : Config} {w : World State Thread}
    (h : (coordinator c).Reach holdGuard (State.init c) w) :
    Holds (fun s => s.store.Indexed) (fun s t => t.Decided s.clock) (fun _ _ => True) w := by
  refine Program.Reach.local_invariant (I := fun s : State => s.store.Indexed)
    (fun _ _ _ => trivial) (Store.indexed_empty _) ?_ ?_ ?_ h
  · intro s r _
    exact ⟨trivial, fun _ _ => trivial⟩
  · intro s t l s' t' hs ht _ hstep
    have hsteps := coordinator_steps hstep
    refine ⟨⟨hsteps.indexed hs, hsteps.decided hs ht⟩, ?_⟩
    intro u hu _
    exact ⟨hsteps.clock ▸ hu, trivial⟩
  · intro s e s' hs hg hstep
    obtain ⟨now, le, rfl⟩ := (environment_spec hstep).tick_of_ne hg
    exact ⟨hs, fun u hu => hu.mono le⟩

/-- **A lease is not taken away early**, in the runs in which no stale decision is folded into a
running execution.  As long as the clock has not passed the deadline of the attempt an execution is
running, a step that ends this attempt is one of a `Complete` or a `Fail` call for it. -/
theorem lease_ends_by_worker (c : Config) {w w' : World State Thread}
    (h : (coordinator c).Reach holdGuard (State.init c) w) {a : Act Request Choice EnvStep}
    (hok : holdGuard.Allows w a) (hstep : (coordinator c).step w a = some w') {k : String}
    {x : Execution} (hx : w.shared.store.find? k = some x) (hrun : x.status = .running)
    (hheld : w.shared.clock ≤ x.leaseDeadline) :
    (∃ y, w'.shared.store.find? k = some y ∧ y.status = .running ∧ y.attempt = x.attempt) ∨
      ∃ i f stamp, a = .run i .go ∧ w.threads[i]? = some (.folding f stamp) ∧
        f.Ends k x.attempt := by
  have hinv := hold_holds h
  cases a with
  | spawn r =>
    cases hstep
    exact .inl ⟨x, hx, hrun, rfl⟩
  | run i l =>
    simp only [Program.step] at hstep
    cases hi : w.threads[i]? with
    | none => simp [hi] at hstep
    | some t =>
      simp only [hi, Option.map_eq_some_iff] at hstep
      obtain ⟨⟨s', t'⟩, hthread, rfl⟩ := hstep
      rcases (coordinator_steps hthread).lease_kept (hinv.each i t hi) (hok t hi) hx hrun hheld
        with hkept | ⟨f, stamp, rfl, rfl, hends⟩
      · exact .inl hkept
      · exact .inr ⟨i, f, stamp, rfl, hi, hends⟩
  | env e =>
    simp only [Program.step, Option.map_eq_some_iff] at hstep
    obtain ⟨s', henv, rfl⟩ := hstep
    obtain ⟨now, -, rfl⟩ := (environment_spec henv).tick_of_ne hok
    exact .inl ⟨x, hx, hrun, rfl⟩

/-! ## Two leases taken away -/

/-- A sweep has collected the expired lease when a heartbeat renews it. -/
def renewedLease : List (Act Request Choice EnvStep) :=
  firstExpired ++ arrive 3 5 (.heartbeat firstHolder) ++ goOn 2 3

/-- The first attempt is reported as failed twice.  One report is handled, the second attempt is
leased, and the other report appends its decision. -/
def failedTwice : List (Act Request Choice EnvStep) :=
  firstAttempt 3 ++ arrive 2 1 (.fail ⟨firstHolder, "boom", true⟩) ++
    arrive 3 1 (.fail ⟨firstHolder, "boom", true⟩) ++ goOn 2 6 ++
    arrive 4 8 (.leaseBatch ⟨"build", "w2", 1, 0⟩) ++ goOn 3 5

/-- What thread `i` is about to fold ends the attempt that is running, before its deadline and not
for its worker. -/
def steals (i : ℕ) (w w' : World State Thread) : Bool :=
  ((w.threads[i]?).bind Thread.frame?).any fun f =>
    (w.shared.store.find? "acme/p/w").any fun x =>
      decide (x.status = .running ∧ w.shared.clock ≤ x.leaseDeadline ∧
        ¬ f.Ends "acme/p/w" x.attempt ∧
        (w'.shared.store.find? "acme/p/w").map Execution.status = some .pending)

theorem lease_taken_away :
    (∃ w w', (coordinator .default).Reach Guard.all (State.init .default) w ∧
      (coordinator .default).step w (.run 2 .go) = some w' ∧ steals 2 w w' = true) ∧
    ∃ w w', (coordinator .default).Reach Guard.all (State.init .default) w ∧
      (coordinator .default).step w (.run 3 .go) = some w' ∧ steals 3 w w' = true := by
  have hrenewed : (((coordinator .default).exec ⟨State.init .default, []⟩ renewedLease).bind
      fun w => ((coordinator .default).step w (.run 2 .go)).map (steals 2 w)) = some true := by
    decide +kernel
  have htwice : (((coordinator .default).exec ⟨State.init .default, []⟩ failedTwice).bind fun w =>
      ((coordinator .default).step w (.run 3 .go)).map (steals 3 w)) = some true := by
    decide +kernel
  constructor
  · obtain ⟨w, hw, hrest⟩ := Option.bind_eq_some_iff.mp hrenewed
    obtain ⟨w', hw', hsteals⟩ := Option.map_eq_some_iff.mp hrest
    exact ⟨w, w', Program.Reach.init.exec _ hw, hw', hsteals⟩
  · obtain ⟨w, hw, hrest⟩ := Option.bind_eq_some_iff.mp htwice
    obtain ⟨w', hw', hsteals⟩ := Option.map_eq_some_iff.mp hrest
    exact ⟨w, w', Program.Reach.init.exec _ hw, hw', hsteals⟩

/-- The first attempt is about to be failed by its worker. -/
def firstFailure : List (Act Request Choice EnvStep) :=
  firstAttempt 3 ++ arrive 2 3 (.fail ⟨firstHolder, "boom", true⟩)

theorem lease_ends_by_worker_first :
    ∃ w w' x, (coordinator .default).Reach holdGuard (State.init .default) w ∧
      (coordinator .default).step w (.run 2 .go) = some w' ∧
      w.shared.store.find? "acme/p/w" = some x ∧ x.status = .running ∧
      w.shared.clock ≤ x.leaseDeadline ∧
      ((∃ y, w'.shared.store.find? "acme/p/w" = some y ∧ y.status = .running ∧
        y.attempt = x.attempt) ∨
      ∃ i f stamp, (.run 2 .go : Act Request Choice EnvStep) = .run i .go ∧
        w.threads[i]? = some (.folding f stamp) ∧ f.Ends "acme/p/w" x.attempt) := by
  have hrun : (((coordinator .default).execWithin holdGuard ⟨State.init .default, []⟩
      firstFailure).bind fun w => ((coordinator .default).step w (.run 2 .go)).map fun _ =>
        (decide (holdGuard.Allows w (.run 2 .go : Act Request Choice EnvStep)),
          (w.shared.store.find? "acme/p/w").map fun x =>
            (x.status, decide (w.shared.clock ≤ x.leaseDeadline)))) =
      some (true, some (.running, true)) := by
    decide +kernel
  obtain ⟨w, hw, hrest⟩ := Option.bind_eq_some_iff.mp hrun
  obtain ⟨w', hw', heq⟩ := Option.map_eq_some_iff.mp hrest
  rw [Prod.mk.injEq] at heq
  obtain ⟨x, hx, hfacts⟩ := Option.map_eq_some_iff.mp heq.2
  rw [Prod.mk.injEq] at hfacts
  have hreach := Program.Reach.init.execWithin _ hw
  have hheld := of_decide_eq_true hfacts.2
  exact ⟨w, w', x, hreach, hw', hx, hfacts.1, hheld,
    lease_ends_by_worker .default hreach (of_decide_eq_true heq.1) hw' hx hfacts.1 hheld⟩

end AgentBus.Workflow
