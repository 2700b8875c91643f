import AgentBus.Workflow.Counts
import AgentBus.Workflow.Fencing

/-!
# Finished executions and their ids

`Submit` finds out that an id is known by looking it up in the store, and `evictTerminalLocked`
drops the oldest finished executions when a retention bound is set.  While a finished execution is
in the store its id is answered for: a `Submit` that arrives reports it, and a `LeaseBatch` that
arrives is not granted it.  It is in the store until as many others have finished after it as the
bound says, and without a bound for good.

## Main definitions

* `Store.finishes`, `Remembers` — the steps that are taken before an id may be dropped.
* `Finished`, `Thread.Spares` — what holds from the moment an execution has finished.
-/

namespace AgentBus.Workflow

open AgentStream Pool

/-- How many executions have finished. -/
def Store.finishes (m : Store) : ℕ := m.retired.length + m.terminalQ.length

/-- How many had finished once the one under `k` had. -/
def Store.finishesUpTo (k : String) (m : Store) : ℕ := m.retired.length + m.terminalQ.idxOf k + 1

/-- When the step is taken, fewer executions than are to be kept have finished after the one under
`k`, which is finished in `m`.  Without a retention bound this is not asked. -/
def Remembers (k : String) (m : Store) (w : World State Thread)
    (_ : Act Request Choice EnvStep) : Prop :=
  0 < w.shared.store.retainTerminal →
    (w.shared.store.finishes : ℤ) < m.finishesUpTo k + w.shared.store.retainTerminal

instance (k : String) (m : Store) (w : World State Thread) (a : Act Request Choice EnvStep) :
    Decidable (Remembers k m w a) :=
  inferInstanceAs (Decidable (0 < w.shared.store.retainTerminal → _ < _))

/-- The executions under the keys `ended` have finished, in this order. -/
structure Finished (ended : List String) (s : State) : Prop where
  indexed : s.store.Indexed
  kept : ∃ more, s.store.Kept (ended ++ more)

/-- The key of the execution a spec describes. -/
def SubmitSpec.key (spec : SubmitSpec) : String :=
  sessionKey spec.tenant spec.project spec.workflowID

/-- The call does not create the execution under `k`, and says so. -/
def Thread.Knows (k : String) : Thread → Prop
  | .preparing (.submit spec) | .publishing (.submit spec) _ | .folding (.submit spec) _ =>
    spec.key ≠ k
  | .done (.submit spec) answer => spec.key = k → answer = .submit true none
  | _ => True

/-- The call neither creates nor leases the execution under `k`. -/
structure Thread.Spares (k : String) (t : Thread) : Prop where
  knows : t.Knows k
  leases : ∀ p ∈ t.leases, p.1 ≠ k
  holding : ∀ x o, t.holding = some (x, o) → x.key ≠ k

/-- **A finished execution is in the store** until as many others have finished after it as are to
be kept. -/
theorem Finished.find? {s : State} {ended : List String} (hs : Finished ended s) {k : String}
    {i : ℕ} (hk : ended[i]? = some k) (hfew : 0 < s.store.retainTerminal →
      (s.store.finishes : ℤ) < i + 1 + s.store.retainTerminal) :
    ∃ x, s.store.find? k = some x ∧ x.terminal = true := by
  obtain ⟨more, hkept⟩ := hs.kept
  have hi : s.store.retired.length ≤ i := by
    by_contra hlt
    have hne : s.store.retired ≠ [] := List.ne_nil_of_length_pos (by omega)
    obtain ⟨hpos, hle⟩ := hkept.ages.filled hne
    have hlt' := hfew hpos
    unfold Store.finishes at hlt'
    omega
  have hmem : k ∈ s.store.terminalQ := by
    rw [← hkept.ages.queue]
    refine List.mem_of_getElem? (i := i - s.store.retired.length) ?_
    rw [List.getElem?_drop, Nat.add_sub_cancel' hi]
    exact List.getElem?_append_left (List.getElem?_eq_some_iff.mp hk).1 ▸ hk
  have hterm := (hkept.tallied.mem k).mp hmem
  cases hx : s.store.find? k with
  | none => simp [hx] at hterm
  | some x => exact ⟨x, rfl, by simpa [hx] using hterm⟩

section Steps

variable {c : Config} {s s' : State} {t t' : Thread} {l : Choice} {k : String}

/-- A step ends executions after those that have ended. -/
theorem Finished.step {ended : List String} (h : Steps c s t l s' t') (hs : Finished ended s) :
    Finished ended s' := by
  obtain ⟨more, hkept⟩ := hs.kept
  refine ⟨h.indexed hs.indexed, ?_⟩
  cases h with
  | quiet => exact ⟨more, hkept⟩
  | begin a r h => exact ⟨more, hkept.same h.sameStatus⟩
  | reserve b r h => exact ⟨more, hkept.same h.sameStatus⟩
  | wait b => exact ⟨more, hkept.same (Store.sameStatus_waitChan ..)⟩
  | publish f stamp valid => exact ⟨more, hkept⟩
  | fold f stamp => exact ⟨_, List.append_assoc .. ▸ hkept.apply _⟩
  | unreserve b x => exact ⟨more, hkept.same (Store.sameStatus_unreserve ..)⟩
  | abort a => exact ⟨more, hkept.same (Store.sameStatus_abortComplete ..)⟩
  | expire now order perm =>
    exact ⟨more, hkept.same (hkept.tallied.counted.expiredLeases now order)⟩

theorem Finished.environment {ended : List String} {e : EnvStep} (h : Environs c s e s')
    (hs : Finished ended s) : Finished ended s' := by
  obtain ⟨more, hkept⟩ := hs.kept
  cases h with
  | tick now le => exact ⟨hs.indexed, more, hkept⟩
  | fetch p inbox => exact ⟨hs.indexed, more, hkept⟩
  | deliver e o p inbox =>
    exact ⟨hs.indexed.apply e, _, List.append_assoc .. ▸ hkept.apply e⟩

/-- A call that arrives while the execution is in the store does not create it. -/
theorem Steps.knows (h : Steps c s t l s' t') (hsome : (s.store.find? k).isSome = true)
    (ht : t.Knows k) : t'.Knows k := by
  cases h with
  | quiet t t' l h =>
    cases h with
    | known spec => exact fun _ => rfl
    | submit spec absent =>
      rintro rfl
      have hnone : s.store.find? spec.key = none := absent
      rw [hnone] at hsome
      cases hsome
    | heartbeat a => exact heartbeatStart_ind s a (fun _ => trivial) fun _ _ => trivial
    | fail a => exact failStart_ind s a (fun _ => trivial) fun _ _ => trivial
    | stamp f =>
      cases f with
      | submit spec => exact ht
      | grant | heartbeat | complete | fail | verdict | sweep => trivial
    | error f stamp =>
      cases f with
      | submit spec => exact fun hk => absurd hk ht
      | grant | heartbeat | complete | fail | verdict | sweep => trivial
    | _ => trivial
  | begin a r h => split <;> trivial
  | reserve b r h =>
    rcases b.onReserve_cases r.2 with ⟨x, -, heq⟩ | heq | heq <;> rw [heq] <;> trivial
  | publish f stamp valid =>
    cases f with
    | submit spec => exact ht
    | grant | heartbeat | complete | fail | verdict | sweep => trivial
  | fold f stamp =>
    cases f with
    | submit spec => exact fun hk => absurd hk ht
    | grant | heartbeat | complete | fail | verdict | sweep => trivial
  | wait | unreserve | abort | expire => trivial

/-- A call that arrives after an execution has finished spares it. -/
theorem Thread.Spares.step (h : Steps c s t l s' t') (hs : s.store.Indexed) {x : Execution}
    (hx : s.store.find? k = some x) (hterm : x.terminal = true) (ht : t.Spares k) :
    t'.Spares k := by
  refine ⟨h.knows (by rw [hx]; rfl) ht.knows, ?_, ?_⟩
  · intro p hp
    rcases h.leases with ⟨-, hsub⟩ | ⟨b, x, n, stamp, rfl, -, -, hleases⟩
    · exact ht.leases p (hsub.subset hp)
    · rw [hleases] at hp
      rcases List.mem_append.mp hp with hp | hp
      · exact ht.leases p hp
      · rw [List.mem_singleton.mp hp]
        exact ht.holding x (some n) rfl
  · intro z o hz
    rcases h.holding hz with ⟨-, o', hold, -⟩ | ⟨-, -, k', y, hy, hpending, -, rfl, -⟩
    · exact ht.holding z o' hold
    · -- A reserved execution is pending, so it is not the one that has finished.
      have hkey : y.key = k' := hs.keyed k' y hy
      rintro rfl
      cases (hx.symm.trans (congrArg _ hkey)).trans hy
      simp [Execution.terminal, hpending] at hterm

end Steps

/-! ## Whole runs -/

theorem finished_of_reach {c : Config} {w : World State Thread}
    (h : (coordinator c).Reach Guard.all (State.init c) w) : Finished [] w.shared := by
  refine (h.toRuns.later_invariant (I := Finished []) (L := fun _ => True)
    ⟨Store.indexed_empty _, [], Store.kept_empty _⟩ (fun _ => trivial) ?_ ?_).1
  · intro v i t l s' t' _ hv hstep
    exact ⟨hv.step (coordinator_steps hstep), fun _ => trivial⟩
  · intro v e s' _ hv hstep
    exact hv.environment (environment_spec hstep)

theorem spares_start (k : String) (r : Request) : Thread.Spares k (.start r) where
  knows := trivial
  leases _ hp := absurd hp List.not_mem_nil
  holding _ _ hx := by cases hx

/-- **A finished id is not run again** while its execution is in the store.  From a world in which
the execution under `k` has finished, and as long as fewer executions have finished after it than
are to be kept (without a retention bound, whatever the steps), a `Submit` of the id that arrives
later reports that it exists, and a `LeaseBatch` that arrives later returns no lease for it. -/
theorem finished_not_rerun (c : Config) {w w' : World State Thread}
    (h : (coordinator c).Reach Guard.all (State.init c) w) {k : String} {x : Execution}
    (hx : w.shared.store.find? k = some x) (hterm : x.terminal = true)
    (hrun : (coordinator c).Runs (Remembers k w.shared.store) w w') {i : ℕ}
    (hi : w.threads.length ≤ i) {r : Request} {answer : Response}
    (hdone : w'.threads[i]? = some (.done r answer)) :
    (∀ spec, r = .submit spec → spec.key = k → answer = .submit true none) ∧
      ∀ leases err, answer = .leaseBatch leases err → ∀ lease ∈ leases, lease.token.1 ≠ k := by
  obtain ⟨hindexed, ended, hkept⟩ := finished_of_reach h
  rw [List.nil_append] at hkept
  have hmem : k ∈ w.shared.store.terminalQ := by
    rw [hkept.tallied.mem, hx]
    exact hterm
  have hk : ended[w.shared.store.retired.length + w.shared.store.terminalQ.idxOf k]? = some k := by
    rw [← List.getElem?_drop, hkept.ages.queue]
    exact List.getElem?_idxOf hmem
  have hfin : Finished ended w.shared := ⟨hindexed, [], (List.append_nil ended).symm ▸ hkept⟩
  have hspares : Thread.Spares k (.done r answer) := by
    refine (hrun.later_invariant (I := Finished ended) (L := Thread.Spares k) hfin
      (spares_start k) ?_ ?_).2 i _ hi hdone
    · intro v j t l s' t' hok hv hstep
      have hsteps := coordinator_steps hstep
      obtain ⟨y, hy, hterm'⟩ := hv.find? hk hok
      exact ⟨hv.step hsteps, fun ht => ht.step hsteps hv.indexed hy hterm'⟩
    · intro v e s' _ hv hstep
      exact hv.environment (environment_spec hstep)
  constructor
  · rintro spec rfl hk
    exact hspares.knows hk
  · rintro leases err rfl lease hl
    exact hspares.leases lease.token (List.mem_map_of_mem hl)

/-! ## An id that is run again -/

/-- Two tasks are submitted and leased, and the first is completed. -/
def oneFinished : List (Act Request Choice EnvStep) :=
  arrive 0 4 (.submit (.plain "v" "build")) ++ arrive 1 4 (.submit (.plain "w" "build")) ++
    arrive 2 14 (.leaseBatch ⟨"build", "w1", 2, 0⟩) ++
    arrive 3 4 (.complete ⟨⟨"acme", "p", "v", "w1", 1⟩, []⟩)

/-- The second is completed; then the first is submitted and leased again. -/
def submittedAgain : List (Act Request Choice EnvStep) :=
  arrive 4 4 (.complete ⟨firstHolder, []⟩) ++ arrive 5 4 (.submit (.plain "v" "build")) ++
    arrive 6 8 (.leaseBatch ⟨"build", "w1", 1, 0⟩)

/-- What a call has answered: whether an id was known, and which leases it was given. -/
def answered (w : World State Thread) (i : ℕ) : Option (Bool × List (String × ℤ)) :=
  match w.threads[i]? with
  | some (.done _ (.submit known none)) => some (known, [])
  | some (.done _ (.leaseBatch leases none)) => some (false, leases.map Lease.token)
  | _ => none

theorem finished_rerun :
    ∃ w w' x, (coordinator keepOne).Reach Guard.all (State.init keepOne) w ∧
      w.shared.store.find? "acme/p/v" = some x ∧ x.status = .completed ∧ w.threads.length = 4 ∧
      (coordinator keepOne).exec w submittedAgain = some w' ∧
      answered w' 5 = some (false, []) ∧ answered w' 6 = some (false, [("acme/p/v", 1)]) := by
  have hrun : (((coordinator keepOne).exec ⟨State.init keepOne, []⟩ oneFinished).bind fun w =>
      ((coordinator keepOne).exec w submittedAgain).map fun w' =>
        decide ((w.shared.store.find? "acme/p/v").map Execution.status = some .completed ∧
          w.threads.length = 4 ∧ answered w' 5 = some (false, []) ∧
          answered w' 6 = some (false, [("acme/p/v", 1)]))) = some true := by
    decide +kernel
  obtain ⟨w, hw, hrest⟩ := Option.bind_eq_some_iff.mp hrun
  obtain ⟨w', hw', heq⟩ := Option.map_eq_some_iff.mp hrest
  obtain ⟨hstatus, hlen, hsubmit, hlease⟩ := of_decide_eq_true heq
  obtain ⟨x, hx, hstatus⟩ := Option.map_eq_some_iff.mp hstatus
  exact ⟨w, w', x, Program.Reach.init.exec _ hw, hx, hstatus, hlen, hw', hsubmit, hlease⟩

/-- A broker that keeps two finished executions. -/
def keepTwo : Config := { Config.default with retainTerminal := 2 }

/-- The second is completed, and the first is submitted again. -/
def submittedSoon : List (Act Request Choice EnvStep) :=
  arrive 4 4 (.complete ⟨firstHolder, []⟩) ++ arrive 5 1 (.submit (.plain "v" "build"))

theorem finished_not_rerun_soon :
    ∃ w w' x r answer, (coordinator keepTwo).Reach Guard.all (State.init keepTwo) w ∧
      w.shared.store.find? "acme/p/v" = some x ∧ x.terminal = true ∧
      (coordinator keepTwo).Runs (Remembers "acme/p/v" w.shared.store) w w' ∧
      w.threads.length ≤ 5 ∧ w'.threads[5]? = some (.done r answer) ∧
      (w.shared.store.finishes = 1 ∧ w'.shared.store.finishes = 2) ∧
      (∀ spec, r = .submit spec → spec.key = "acme/p/v" → answer = .submit true none) ∧
      ∀ leases err, answer = .leaseBatch leases err →
        ∀ lease ∈ leases, lease.token.1 ≠ "acme/p/v" := by
  have hrun : (((coordinator keepTwo).exec ⟨State.init keepTwo, []⟩ oneFinished).bind fun w =>
      ((coordinator keepTwo).execIf (Remembers "acme/p/v" w.shared.store) w submittedSoon).map
        fun w' => ((w.shared.store.find? "acme/p/v").map Execution.terminal,
          decide (w.threads.length ≤ 5),
          decide (w.shared.store.finishes = 1 ∧ w'.shared.store.finishes = 2),
          (w'.threads[5]?).map Thread.finished)) = some (some true, true, true, some true) := by
    decide +kernel
  obtain ⟨w, hw, hrest⟩ := Option.bind_eq_some_iff.mp hrun
  obtain ⟨w', hw', heq⟩ := Option.map_eq_some_iff.mp hrest
  simp only [Prod.mk.injEq] at heq
  obtain ⟨hterm, hlen, hfinishes, hfinished⟩ := heq
  obtain ⟨x, hx, hterm⟩ := Option.map_eq_some_iff.mp hterm
  obtain ⟨t, ht, hfinished⟩ := Option.map_eq_some_iff.mp hfinished
  have hreach := Program.Reach.init.exec _ hw
  have hruns := Program.Runs.refl.execIf _ hw'
  cases t with
  | done r answer =>
    exact ⟨w, w', x, r, answer, hreach, hx, hterm, hruns, of_decide_eq_true hlen, ht,
      of_decide_eq_true hfinishes,
      finished_not_rerun keepTwo hreach hx hterm hruns (of_decide_eq_true hlen) ht⟩
  | _ => cases hfinished

end AgentBus.Workflow
