import AgentBus.Workflow.Fencing
import AgentBus.Workflow.Queues

/-!
# Wake-ups of waiting workers

A `LeaseBatch` that finds nothing asks for the wake-up channel of its task type and blocks on it.
The channel is closed when an execution is enqueued.  Two steps escape it.  `ReserveNext` and
`WaitChan` are separate lock sections, so work that arrives in between is not announced to the
caller; and `Unreserve` puts an execution back without closing the channel.  With no retention,
no other step makes work available without closing the channel: this covers every call, failing
publishes and the poller.

## Main definitions

* `Store.Parked` — what a worker blocked on a channel relies on.
* `wakeupGuard`, `Admits` — the runs in which neither step escapes.
-/

namespace AgentBus.Workflow

open AgentStream Pool

namespace Store

/-- A worker of the task type that is blocked on the channel: while the channel is open it is the
one the next enqueue closes, and there is no work. -/
structure Parked (m : Store) (taskType : String) (ch : ℕ) : Prop where
  made : ch < m.chans
  idle : m.closed ch = false → m.wake taskType = some ch ∧ m.available taskType = false

variable {m m' : Store} {taskType : String} {ch : ℕ} {k : String} {x x' : Execution}

/-- A blocked worker stays blocked for a reason when no work appears and its channel stays. -/
theorem Parked.mono (h : m.Parked taskType ch) (hchans : m.chans ≤ m'.chans)
    (hclosed : m'.closed ch = false → m.closed ch = false)
    (hwake : m.closed ch = false → m.wake taskType = some ch → m'.wake taskType = some ch)
    (hwork : ∀ k ∈ m'.queues taskType, ∀ x', m'.find? k = some x' → x'.free = true →
      k ∈ m.queues taskType ∧ ∃ x, m.find? k = some x ∧ x.free = true) :
    m'.Parked taskType ch := by
  refine ⟨h.made.trans_le hchans, ?_⟩
  intro hopen
  obtain ⟨hw, hidle⟩ := h.idle (hclosed hopen)
  refine ⟨hwake (hclosed hopen) hw, ?_⟩
  rw [available_eq_false_iff] at hidle ⊢
  intro k hk x' hx'
  by_contra hfree
  obtain ⟨hk, x, hx, hfree⟩ := hwork k hk x' hx' (by simpa using hfree)
  rw [hidle k hk x hx] at hfree
  cases hfree

/-- Writing an execution that is not made available. -/
theorem Parked.put (h : m.Parked taskType ch)
    (hfree : k ∈ m.queues taskType → x'.free = true → ∃ x, m.find? k = some x ∧ x.free = true) :
    (m.put k x').Parked taskType ch := by
  refine h.mono le_rfl id (fun _ => id) ?_
  intro k' hk' y hy hyfree
  refine ⟨hk', ?_⟩
  rw [find?_put] at hy
  split at hy
  · rename_i hkk
    cases hy
    subst hkk
    exact hfree hk' hyfree
  · exact ⟨y, hy, hyfree⟩

/-- The completion fence does not make work available. -/
theorem Parked.fence (h : m.Parked taskType ch) (hx : m.find? k = some x) (completing : Bool) :
    (m.put k { x with completing := completing }).Parked taskType ch :=
  h.put fun _ hfree => ⟨x, hx, hfree⟩

/-- A channel that is open after an enqueue was open before and is not the one that was closed. -/
theorem open_of_enqueue {closed : ℕ → Bool} {wake : Option ℕ}
    (h : (match wake with
      | some ch => Function.update closed ch true
      | none => closed) ch = false) : closed ch = false ∧ wake ≠ some ch := by
  cases wake with
  | none => exact ⟨h, nofun⟩
  | some ch' =>
    dsimp only at h
    by_cases hcc : ch = ch'
    · subst hcc
      rw [Function.update_self] at h
      cases h
    · rw [Function.update_of_ne hcc] at h
      exact ⟨h, fun heq => hcc (Option.some.inj heq).symm⟩

/-- **Enqueuing closes the channel** of the task type. -/
theorem Parked.reconcileQueue (h : m.Parked taskType ch) :
    (m.reconcileQueue k x).Parked taskType ch := by
  unfold Store.reconcileQueue
  split
  · by_cases hty : taskType = x.taskType
    · subst hty
      refine ⟨h.made, ?_⟩
      intro hopen
      obtain ⟨hopen, hne⟩ := open_of_enqueue hopen
      exact absurd (h.idle hopen).1 hne
    · refine h.mono le_rfl ?_ ?_ ?_
      · intro hopen
        exact (open_of_enqueue hopen).1
      · intro _ hw
        exact (Function.update_of_ne hty ..).trans hw
      · intro k' hk' y hy hyfree
        dsimp only at hk'
        rw [Function.update_of_ne hty] at hk'
        exact ⟨hk', y, hy, hyfree⟩
  · exact h

/-- `Apply` announces the work it makes available. -/
theorem Parked.apply (hret : m.retainTerminal ≤ 0) (hl : m.Lined) (h : m.Parked taskType ch)
    (e : Event) : (m.apply e).1.Parked taskType ch := by
  have hkeep := apply_keeping hret e
  generalize (m.apply e).1 = m' at hkeep
  cases hkeep with
  | ignored refused => exact h
  | created nx ty absent valid =>
    have hput : (m.put e.key nx).Parked taskType ch := by
      refine h.put ?_
      intro hk _
      obtain ⟨-, x, hx, -⟩ := hl.entry _ _ hk
      rw [absent] at hx
      cases hx
    have hpark := hput.reconcileQueue (k := e.key) (x := nx)
    exact ⟨hpark.made, hpark.idle⟩
  | folded x x' terminalQ present folds =>
    have hput : (m.put e.key x').Parked taskType ch := by
      refine h.put ?_
      intro hk _
      exact ⟨x, present, hl.free_of_queued present folds.live (hl.entry _ _ hk).1⟩
    have hpark := hput.reconcileQueue (k := e.key) (x := x')
    exact ⟨hpark.made, hpark.idle⟩

/-- `ReserveNext` takes work away. -/
theorem Parked.reserves (h : m.Parked taskType ch) {ty : String} {r : Store × Option Execution}
    (hr : Reserves m ty (m.queues ty) r) : r.1.Parked taskType ch := by
  -- A queue keeps some of its entries.
  have hpop : ∀ pre rest, m.queues ty = pre ++ rest →
      Parked { m.unqueue pre with queues := Function.update m.queues ty rest } taskType ch := by
    intro pre rest hsplit
    refine h.mono le_rfl id (fun _ => id) ?_
    intro k hk y hy hyfree
    refine ⟨?_, y, hy, hyfree⟩
    dsimp only at hk
    by_cases hty : taskType = ty
    · subst hty
      rw [Function.update_self] at hk
      rw [hsplit]
      exact List.mem_append_right _ hk
    · rwa [Function.update_of_ne hty] at hk
  cases hr with
  | nothing stale => exact hpop _ _ (List.append_nil _).symm
  | found pre rest k x split stale present pending free =>
    refine (hpop (pre ++ [k]) rest (by rw [split]; simp)).put ?_
    intro _ hfree
    simp [Execution.free] at hfree

/-- `Unreserve` adds no work to the other task types. -/
theorem Parked.unreserves (hl : m.Lined) (h : m.Parked taskType ch) (hr : Unreserves m x m')
    (hother : m.closed ch = false → ∀ y, m.find? x.key = some y → y.status = .pending →
      y.taskType ≠ taskType) : m'.Parked taskType ch := by
  -- An entry that is reserved has finished.
  have hput : ∀ y, m.find? x.key = some y →
      (m.put x.key { y with reserved := false }).Parked taskType ch := by
    intro y hy
    refine h.put ?_
    intro hk hfree
    rcases hl.parked _ y hy (hl.entry _ _ hk).1 with hterm | hyfree
    · rw [Execution.free_of_terminal (x := { y with reserved := false }) hterm] at hfree
      cases hfree
    · exact ⟨y, hy, hyfree⟩
  cases hr with
  | ignored => exact h
  | freed y present ref parked => exact hput y present
  | requeued y present ref pending =>
    have hpark := hput y present
    refine ⟨hpark.made, ?_⟩
    intro hopen
    have hty := hother hopen y present pending
    obtain ⟨hw, hidle⟩ := hpark.idle hopen
    refine ⟨hw, ?_⟩
    unfold available at hidle ⊢
    dsimp only
    rw [Function.update_of_ne (Ne.symm hty)]
    exact hidle

/-- `WaitChan` of any task type keeps the channels that were made. -/
theorem Parked.waitChan (h : m.Parked taskType ch) (ty : String) :
    (m.waitChan ty).1.Parked taskType ch := by
  unfold Store.waitChan
  split
  · exact h
  · rename_i hnone
    have hne : ch ≠ m.chans := h.made.ne
    refine h.mono (Nat.le_succ _) ?_ ?_ ?_
    · intro hopen
      exact (Function.update_of_ne hne ..).symm.trans hopen
    · intro _ hw
      have hty : taskType ≠ ty := by
        rintro rfl
        rw [hnone] at hw
        cases hw
      exact (Function.update_of_ne hty ..).trans hw
    · intro k hk y hy hyfree
      exact ⟨hk, y, hy, hyfree⟩

/-- A worker that asks for the channel while there is no work. -/
theorem Lined.parked_waitChan (hl : m.Lined) (hidle : m.available taskType = false) :
    (m.waitChan taskType).1.Parked taskType (m.waitChan taskType).2 := by
  unfold Store.waitChan
  split
  · rename_i ch hch
    exact ⟨hl.wake _ _ hch, fun _ => ⟨hch, hidle⟩⟩
  · exact ⟨Nat.lt_succ_self _, fun _ => ⟨Function.update_self .., hidle⟩⟩

end Store

/-! ## Whole runs -/

/-- The call is about to ask for a wake-up channel, unless its time is up. -/
def Thread.asking? : Thread → Option Batch
  | .idle b => some b
  | _ => none

/-- The call is blocked: its task type and its channel. -/
def Thread.waiting? : Thread → Option (String × ℕ)
  | .waiting b ch => some (b.call.taskType, ch)
  | _ => none

/-- The call is about to give an execution back. -/
def Thread.returning? : Thread → Option Execution
  | .unreserving _ x => some x
  | _ => none

/-- `WaitChan` is called only while the queue of the task type still holds no work. -/
def wakeupGuard : Guard State Thread Choice EnvStep where
  thread s t _ := ∀ b ∈ t.asking?, s.clock < b.deadline →
    s.store.available b.call.taskType = false
  env _ _ := True

/-- `Unreserve` puts an execution back only while no call is blocked on an open channel of its
task type. -/
def Admits (s : State) (t : Thread) (_ : Choice) (u : Thread) : Prop :=
  ∀ x ∈ t.returning?, ∀ p ∈ u.waiting?, s.store.closed p.2 = false →
    ∀ y ∈ s.store.find? x.key, y.status = .pending → y.taskType ≠ p.1

instance (s : State) (t : Thread) (l : Choice) : Decidable (wakeupGuard.thread s t l) :=
  inferInstanceAs (Decidable (∀ b ∈ t.asking?, s.clock < b.deadline →
    s.store.available b.call.taskType = false))

instance (s : State) (e : EnvStep) : Decidable (wakeupGuard.env s e) :=
  inferInstanceAs (Decidable True)

instance (s : State) (t : Thread) (l : Choice) (u : Thread) : Decidable (Admits s t l u) :=
  inferInstanceAs (Decidable (∀ x ∈ t.returning?, ∀ p ∈ u.waiting?,
    s.store.closed p.2 = false → ∀ y ∈ s.store.find? x.key, y.status = .pending →
      y.taskType ≠ p.1))

/-- What a blocked call relies on. -/
def Waits (s : State) (t : Thread) : Prop := ∀ p ∈ t.waiting?, s.store.Parked p.1 p.2

section Steps

variable {c : Config} {s s' : State} {t t' : Thread} {l : Choice}

/-- An execution that accepts a published lease is reserved. -/
theorem Accounted.reserved_of_leased {m : Store} {log : List Event} (h : Accounted m log)
    {e : Event} (he : e ∈ log) {x x' : Execution} (hx : m.find? e.key = some x)
    (hfolds : Execution.Folds x e x') (hty : eventType e = some .leased) : x.reserved = true := by
  have hattempt : e.attempt = x.attempt + 1 := by
    cases hfolds with
    | leased p ty payload status attempt => exact attempt
    | heartbeat p ty | completed p ty | failed p ty | retry p ty | dead p ty =>
      rw [hty] at ty
      cases ty
  obtain ⟨y, hy, hle⟩ := h _ _ (mem_tokens he hty)
  obtain rfl := Option.some.inj (hy.symm.trans hx)
  rcases hle with hle | ⟨-, hres⟩
  · omega
  · exact hres

/-- The execution a call gives back is reserved. -/
theorem TokenLocal.reserved_of_returning (ht : TokenLocal c s t) {x : Execution}
    (hx : t.returning? = some x) (y : Execution) (hy : s.store.find? x.key = some y) :
    y.reserved = true := by
  have hhold : t.holding = some (x, none) := by
    cases t with
    | unreserving b x' =>
      cases hx
      rfl
    | _ => cases hx
  obtain ⟨z, hz, -, hres, -⟩ := ht.holding x none hhold
  obtain rfl := Option.some.inj (hz.symm.trans hy)
  exact hres

/-- Every step keeps the queues. -/
theorem Steps.lined (h : Steps c s t l s' t') (hs : TokenInv s) (ht : TokenLocal c s t)
    (hl : s.store.Lined) : s'.store.Lined := by
  cases h with
  | quiet => exact hl
  | begin a r h => exact hl.begins h
  | reserve b r h => exact hl.reserves h
  | wait b => exact hl.waitChan _
  | publish f stamp valid => exact hl
  | fold f stamp =>
    refine hl.apply hs.kept hs.indexed ?_
    intro x x' hx hfolds hty
    exact hs.accounted.reserved_of_leased (ht.folding _ rfl) hx hfolds hty
  | unreserve b x =>
    exact hl.unreserves (Store.unreserve_spec s.store x) (ht.reserved_of_returning rfl)
  | abort a => exact hl.abortComplete _ _ _
  | expire now order perm => exact ⟨hl.nodup, hl.entry, hl.parked, hl.wake⟩

/-- A call that is admitted leaves the other calls blocked for a reason. -/
theorem Steps.parked (h : Steps c s t l s' t') (hs : TokenInv s) (hl : s.store.Lined)
    {taskType : String} {ch : ℕ}
    (hadmits : ∀ x ∈ t.returning?, s.store.closed ch = false → ∀ y ∈ s.store.find? x.key,
      y.status = .pending → y.taskType ≠ taskType)
    (hp : s.store.Parked taskType ch) : s'.store.Parked taskType ch := by
  cases h with
  | quiet => exact hp
  | begin a r h =>
    cases h with
    | refused duplicate => exact hp
    | fenced x present live current leased free => exact hp.fence present true
  | reserve b r h => exact hp.reserves h
  | wait b => exact hp.waitChan _
  | publish f stamp valid => exact hp
  | fold f stamp => exact hp.apply hs.kept hl _
  | unreserve b x =>
    exact hp.unreserves hl (Store.unreserve_spec s.store x) (hadmits x rfl)
  | abort a =>
    simp only [Store.abortComplete]
    split
    · exact hp
    · rename_i x hx
      exact hp.fence hx false
  | expire now order perm => exact ⟨hp.made, hp.idle⟩

/-- Only a call that asks for the channel in time gets blocked. -/
theorem Quiet.waiting? (h : Quiet c s t l t') : t'.waiting? = none := by
  cases h with
  | heartbeat a => exact heartbeatStart_ind s a (fun _ => rfl) fun _ _ => rfl
  | fail a => exact failStart_ind s a (fun _ => rfl) fun _ _ => rfl
  | error f stamp => cases f <;> rfl
  | _ => rfl

theorem idle_due {b : Batch} {ch : ℕ}
    (h : (coordinator c).thread s (.idle b) .go = some (s', .waiting b ch)) :
    s.clock < b.deadline := by
  simp only [coordinator, Thread.step] at h
  split at h
  · cases h
  · rename_i hdue
    exact lt_of_not_ge hdue

/-- A call that starts to wait does so while there is no work. -/
theorem waits_of_step (hstep : (coordinator c).thread s t l = some (s', t'))
    (hl : s.store.Lined) (hg : wakeupGuard.thread s t l) : Waits s' t' := by
  intro p hp
  have h := coordinator_steps hstep
  cases h with
  | quiet t t' l h =>
    rw [h.waiting?] at hp
    cases hp
  | wait b =>
    cases hp
    exact hl.parked_waitChan (hg b rfl (idle_due hstep))
  | begin a r h => split at hp <;> cases hp
  | reserve b r h =>
    rcases b.onReserve_cases r.2 with ⟨x, -, hx⟩ | hx | hx <;> rw [hx] at hp <;> cases hp
  | fold f stamp => cases f <;> cases hp
  | publish | unreserve | abort | expire => cases hp

end Steps

theorem wakeup_holds {c : Config} (hc : c.retainTerminal ≤ 0) {w : World State Thread}
    (h : (coordinator c).Runs (wakeupGuard.Beside Admits) ⟨State.init c, []⟩ w) :
    Holds (fun s => TokenInv s ∧ s.store.Lined) (fun s t => TokenLocal c s t ∧ Waits s t)
      TokenPair w := by
  refine Program.Runs.local_invariant (fun _ _ => TokenPair.symm)
    (holds_idle ⟨tokenInv_init hc, Store.lined_empty _⟩) ?_ ?_ ?_ h
  · intro s r _
    refine ⟨⟨tokenLocal_start c s r, fun p hp => by cases hp⟩, ?_⟩
    intro u _
    exact tokenPair_start r u
  · intro s t l s' t' ⟨hs, hl⟩ ⟨ht, _⟩ hg hstep
    have hsteps := coordinator_steps hstep
    refine ⟨⟨⟨hs.step hsteps ht, hsteps.lined hs ht hl⟩, ht.self hsteps hs,
      waits_of_step hstep hl hg⟩, ?_⟩
    intro u ⟨hu, hwaits⟩ hpair hadmits
    refine ⟨⟨TokenLocal.other hsteps hs ht hu hpair, ?_⟩, hpair.step hsteps hs ht hu⟩
    intro p hp
    exact hsteps.parked hs hl (fun x hx => hadmits x hx p hp) (hwaits p hp)
  · intro s e s' ⟨hs, hl⟩ _ hstep
    have henv := environment_spec hstep
    obtain ⟨hs', hlocal⟩ := hs.environment henv
    cases henv with
    | tick now le =>
      exact ⟨⟨hs', hl⟩, fun u hu => ⟨hlocal u hu.1, hu.2⟩⟩
    | fetch p inbox =>
      exact ⟨⟨hs', hl⟩, fun u hu => ⟨hlocal u hu.1, hu.2⟩⟩
    | deliver e o p inbox =>
      have he : e ∈ s.log := hs.inbox (e, o) (by rw [inbox]; exact List.mem_cons_self)
      refine ⟨⟨hs', hl.apply hs.kept hs.indexed ?_⟩, ?_⟩
      · intro x x' hx hfolds hty
        exact hs.accounted.reserved_of_leased he hx hfolds hty
      · intro u hu
        exact ⟨hlocal u hu.1, fun p hp => (hu.2 p hp).apply hs.kept hl e⟩

/-- **No lost wake-up**, in the runs in which `WaitChan` is called only while there is no work and
`Unreserve` puts work back only while nobody is blocked on its task type.  A call that is blocked
on an open channel finds no work in the queue of its task type. -/
theorem no_lost_wakeup (c : Config) (hc : c.retainTerminal ≤ 0) {w : World State Thread}
    (h : (coordinator c).Runs (wakeupGuard.Beside Admits) ⟨State.init c, []⟩ w) {b : Batch}
    {ch : ℕ} (hwait : .waiting b ch ∈ w.threads) (hopen : w.shared.store.closed ch = false) :
    w.shared.store.available b.call.taskType = false := by
  have hwaits := ((wakeup_holds hc h).of_mem hwait).2
  exact ((hwaits (b.call.taskType, ch) rfl).idle hopen).2

/-! ## Two lost wake-ups -/

/-- A worker that is ready to wait ten seconds. -/
def patientCall : LeaseCall := ⟨"build", "w1", 1, 10 * Time.second⟩

/-- Work arrives between `ReserveNext` and `WaitChan`. -/
def lateWait : List (Act Request Choice EnvStep) :=
  arrive 0 2 (.leaseBatch patientCall) ++ arrive 1 4 (.submit (.bounded "w" "build" 3)) ++ goOn 0 1

/-- Another worker has the only execution reserved; its publish fails and it gives the execution
back. -/
def silentReturn : List (Act Request Choice EnvStep) :=
  arrive 0 4 (.submit (.bounded "w" "build" 3)) ++ arrive 1 4 (.leaseBatch ⟨"build", "w2", 1, 0⟩) ++
    arrive 2 3 (.leaseBatch patientCall) ++ [Act.run 1 Choice.publishError] ++ goOn 1 1

/-- A worker waits for builds and another kind of work arrives. -/
def otherWork : List (Act Request Choice EnvStep) :=
  arrive 0 3 (.leaseBatch patientCall) ++ arrive 1 4 (.submit (.bounded "v" "deploy" 3))

/-- In both runs a worker is blocked on an open channel with work in the queue. -/
theorem wakeups_lost :
    (∃ w, (coordinator .default).Reach Guard.all (State.init .default) w ∧
      ∃ b ch, w.threads[0]? = some (.waiting b ch) ∧ w.shared.store.closed ch = false ∧
        w.shared.store.available b.call.taskType = true) ∧
    ∃ w, (coordinator .default).Reach Guard.all (State.init .default) w ∧
      ∃ b ch, w.threads[2]? = some (.waiting b ch) ∧ w.shared.store.closed ch = false ∧
        w.shared.store.available b.call.taskType = true := by
  have hlate : ((coordinator .default).exec ⟨State.init .default, []⟩ lateWait).map
      (fun w => (w.threads[0]?, w.shared.store.closed 0, w.shared.store.available "build")) =
        some (some (.waiting ⟨patientCall, 10 * Time.second, []⟩ 0), false, true) := by
    decide +kernel
  have hsilent : ((coordinator .default).exec ⟨State.init .default, []⟩ silentReturn).map
      (fun w => (w.threads[2]?, w.shared.store.closed 0, w.shared.store.available "build")) =
        some (some (.waiting ⟨patientCall, 10 * Time.second, []⟩ 0), false, true) := by
    decide +kernel
  constructor
  · obtain ⟨w, hw, heq⟩ := Program.exists_reach hlate
    simp only [Prod.mk.injEq] at heq
    exact ⟨w, hw, _, _, heq.1, heq.2.1, heq.2.2⟩
  · obtain ⟨w, hw, heq⟩ := Program.exists_reach hsilent
    simp only [Prod.mk.injEq] at heq
    exact ⟨w, hw, _, _, heq.1, heq.2.1, heq.2.2⟩

theorem no_lost_wakeup_other_work :
    ∃ w, (coordinator .default).Runs (wakeupGuard.Beside Admits) ⟨State.init .default, []⟩ w ∧
      .waiting ⟨patientCall, 10 * Time.second, []⟩ 0 ∈ w.threads ∧
      w.shared.store.closed 0 = false ∧ w.shared.store.available "build" = false := by
  have hrun : ((coordinator .default).execIf (wakeupGuard.Beside Admits)
      ⟨State.init .default, []⟩ otherWork).map
      (fun w => (w.threads[0]?, w.shared.store.closed 0)) =
        some (some (.waiting ⟨patientCall, 10 * Time.second, []⟩ 0), false) := by
    decide +kernel
  obtain ⟨w, hw, heq⟩ := Option.map_eq_some_iff.mp hrun
  rw [Prod.mk.injEq] at heq
  have hruns := Program.Runs.refl.execIf _ hw
  have hmem := List.mem_of_getElem? heq.1
  exact ⟨w, hruns, hmem, heq.2, no_lost_wakeup .default (by decide) hruns hmem heq.2⟩

end AgentBus.Workflow
