import AgentBus.Workflow.Coordinator
import AgentBus.Workflow.StoreSpec

/-!
# What a step of the coordinator can do

`Thread.step` inverted once: a step either leaves the shared state alone (`Quiet`) or is
one of the eight that touch it (`Steps`).  `FindChange` then says what such a step does to
the execution under a key.  Every invariant of the coordinator is a case analysis over
these.

## Main definitions

* `Quiet`, `Steps`, `Thread.step_spec` — the inversion of one step.
* `Environs`, `environment_spec` — the steps of the clock and of the poller.
* `Frame.key`, `Frame.type` — what the envelope of a frame is about.
* `FindChange`, `Steps.findChange` — the effect on one key.
-/

namespace AgentBus.Workflow

open AgentStream

/-- The steps that leave the shared state alone. -/
inductive Quiet (c : Config) (s : State) : Thread → Choice → Thread → Prop
  | known (spec : SubmitSpec) :
      Quiet c s (.start (.submit spec)) .go (.done (.submit spec) (.submit true none))
  | submit (spec : SubmitSpec)
      (absent : s.store.get spec.tenant spec.project spec.workflowID = none) :
      Quiet c s (.start (.submit spec)) .go (.preparing (.submit spec))
  | lease (call : LeaseCall) :
      Quiet c s (.start (.leaseBatch call)) .go
        (.leasing ⟨call, s.clock + min call.wait maxLeaseWait, []⟩)
  | heartbeat (a : AttemptCall) : Quiet c s (.start (.heartbeat a)) .go (heartbeatStart s a)
  | fail (a : FailCall) : Quiet c s (.start (.fail a)) .go (failStart s a)
  | sweep : Quiet c s (.start .sweepExpired) .go (.expiring s.clock)
  | full (b : Batch) :
      Quiet c s (.leasing b) .go (.done (.leaseBatch b.call) (.leaseBatch b.out none))
  | late (b : Batch) : Quiet c s (.idle b) .go (.done (.leaseBatch b.call) (.leaseBatch [] none))
  | woken (b : Batch) (ch : ℕ) (closed : s.store.closed ch = true) :
      Quiet c s (.waiting b ch) .go (.leasing b)
  | timeout (b : Batch) (ch : ℕ) :
      Quiet c s (.waiting b ch) .timeout (.done (.leaseBatch b.call) (.leaseBatch [] none))
  | cancel (b : Batch) (ch : ℕ) :
      Quiet c s (.waiting b ch) .cancel
        (.done (.leaseBatch b.call) (.leaseBatch [] (some .cancelled)))
  | read (b : Batch) (x : Execution) :
      Quiet c s (.granting b x) .go (.preparing (.grant b x ((s.store.deref x).attempt + 1)))
  | stamp (f : Frame) : Quiet c s (.preparing f) .go (.publishing f s.clock)
  | error (f : Frame) (stamp : Time) : Quiet c s (.publishing f stamp) .publishError f.onError
  | granted (b : Batch) (x : Execution) (attempt : ℤ) :
      Quiet c s (.granted b x attempt) .go
        (.leasing { b with out := b.out ++ [newLease s x attempt] })
  | extended (a : AttemptCall) :
      Quiet c s (.extended a) .go
        (.done (.heartbeat a)
          (.heartbeat true (leaseDeadline s a.tenant a.project a.workflowID) none))
  | swept (n : ℕ) : Quiet c s (.sweeping [] n) .go (.done .sweepExpired (.sweepExpired n))
  | reclaim (x : Execution) (rest : List Execution) (n : ℕ) :
      Quiet c s (.sweeping (x :: rest) n) .go (.preparing (.sweep x rest n))

theorem Batch.onReserve_cases (b : Batch) (o : Option Execution) :
    (∃ x, o = some x ∧ b.onReserve o = .granting b x) ∨ b.onReserve o = .idle b ∨
      b.onReserve o = .done (.leaseBatch b.call) (.leaseBatch b.out none) := by
  cases o with
  | some x => exact .inl ⟨x, rfl, rfl⟩
  | none =>
    refine .inr ?_
    by_cases hout : b.out = []
    · exact .inl (by simp [Batch.onReserve, hout])
    · exact .inr (by simp [Batch.onReserve, hout])

/-- The first step of `Heartbeat` refuses the call, or has found the attempt running. -/
@[elab_as_elim]
theorem heartbeatStart_ind {motive : Thread → Prop} (s : State) (a : AttemptCall)
    (refused : ∀ err, motive (.done (.heartbeat a) (.heartbeat false 0 err)))
    (found : ∀ x, s.store.find? a.key = some x ∧ x.status = .running ∧ x.attempt = a.attempt ∧
      x.workerID = a.workerID → motive (.preparing (.heartbeat a))) :
    motive (heartbeatStart s a) := by
  unfold heartbeatStart
  split
  · exact refused _
  · rename_i x hx
    split
    · exact refused _
    · rename_i hcheck
      simp only [not_or, not_not] at hcheck
      exact found x ⟨hx, hcheck⟩

/-- The first step of `Fail` refuses the call, or has found the attempt running. -/
@[elab_as_elim]
theorem failStart_ind {motive : Thread → Prop} (s : State) (a : FailCall)
    (refused : ∀ err, motive (.done (.fail a) (.fail false false err)))
    (found : ∀ x, s.store.find? a.key = some x ∧ x.status = .running ∧ x.attempt = a.attempt ∧
      x.workerID = a.workerID → motive (.preparing (.fail a x))) :
    motive (failStart s a) := by
  unfold failStart
  split
  · exact refused _
  · rename_i x hx
    split
    · exact refused _
    · rename_i hcheck
      simp only [not_or, not_not] at hcheck
      exact found x ⟨hx, hcheck.2⟩

/-- The steps of a thread, with what they do to the shared state. -/
inductive Steps (c : Config) (s : State) : Thread → Choice → State → Thread → Prop
  | quiet (t t' : Thread) (l : Choice) (h : Quiet c s t l t') : Steps c s t l s t'
  | begin (a : CompleteCall) (r : Store × Bool × Bool)
      (h : s.store.Begins a.key a.attempt r) :
      Steps c s (.start (.complete a)) .go { s with store := r.1 }
        (if r.2.1 then .preparing (.complete a)
          else .done (.complete a) (.complete false r.2.2 none))
  | reserve (b : Batch) (r : Store × Option Execution)
      (h : s.store.Reserves b.call.taskType (s.store.queues b.call.taskType) r) :
      Steps c s (.leasing b) .go { s with store := r.1 } (b.onReserve r.2)
  | wait (b : Batch) :
      Steps c s (.idle b) .go { s with store := (s.store.waitChan b.call.taskType).1 }
        (.waiting b (s.store.waitChan b.call.taskType).2)
  | publish (f : Frame) (stamp : Time) (valid : (f.event c stamp).validate = .ok ()) :
      Steps c s (.publishing f stamp) .go { s with log := s.log ++ [f.event c stamp] }
        (.folding f stamp)
  | fold (f : Frame) (stamp : Time) :
      Steps c s (.folding f stamp) .go { s with store := (s.store.apply (f.event c stamp)).1 }
        f.onFolded
  | unreserve (b : Batch) (x : Execution) :
      Steps c s (.unreserving b x) .go { s with store := s.store.unreserve x }
        (.done (.leaseBatch b.call)
          (if b.out = [] then .leaseBatch [] (some .publish) else .leaseBatch b.out none))
  | abort (a : CompleteCall) :
      Steps c s (.aborting a) .go
        { s with store := s.store.abortComplete a.tenant a.project a.workflowID }
        (.done (.complete a) (.complete false false (some .publish)))
  | expire (now : Time) (order : List String) (perm : order.Perm s.store.running) :
      Steps c s (.expiring now) (.visit order)
        { s with store := (s.store.expiredLeases now order).1 }
        (.sweeping (s.store.expiredLeases now order).2
          (s.store.expiredLeases now order).2.length)

variable {c : Config} {s s' : State} {t t' : Thread} {l : Choice}

/-- **Every step of a thread is one of the listed ones.** -/
theorem Thread.step_spec (h : Thread.step c s t l = some (s', t')) : Steps c s t l s' t' := by
  unfold Thread.step at h
  split at h
  · rename_i spec
    split at h <;> cases h
    · exact .quiet _ _ _ (.known spec)
    · rename_i habs
      exact .quiet _ _ _ (.submit spec habs)
  · rename_i call
    cases h
    exact .quiet _ _ _ (.lease call)
  · rename_i a
    cases h
    exact .quiet _ _ _ (.heartbeat a)
  · rename_i a
    cases h
    exact .begin a _ (Store.beginComplete_spec s.store a.tenant a.project a.workflowID a.attempt)
  · rename_i a
    cases h
    exact .quiet _ _ _ (.fail a)
  · cases h
    exact .quiet _ _ _ .sweep
  · rename_i b
    split at h <;> cases h
    · exact .quiet _ _ _ (.full b)
    · exact .reserve b _ (Store.reserveNext_spec s.store b.call.taskType)
  · rename_i b
    split at h <;> cases h
    · exact .quiet _ _ _ (.late b)
    · exact .wait b
  · rename_i b ch
    split at h <;> cases h
    rename_i hclosed
    exact .quiet _ _ _ (.woken b ch hclosed)
  · rename_i b ch
    split at h <;> cases h
    exact .quiet _ _ _ (.timeout b ch)
  · rename_i b ch
    cases h
    exact .quiet _ _ _ (.cancel b ch)
  · rename_i b x
    cases h
    exact .quiet _ _ _ (.read b x)
  · rename_i f
    cases h
    exact .quiet _ _ _ (.stamp f)
  · rename_i f stamp
    split at h <;> cases h
    rename_i u hvalid
    exact .publish f stamp hvalid
  · rename_i f stamp
    cases h
    exact .quiet _ _ _ (.error f stamp)
  · rename_i f stamp
    cases h
    exact .fold f stamp
  · rename_i b x attempt
    cases h
    exact .quiet _ _ _ (.granted b x attempt)
  · rename_i a
    cases h
    exact .quiet _ _ _ (.extended a)
  · rename_i b x
    cases h
    exact .unreserve b x
  · rename_i a
    cases h
    exact .abort a
  · rename_i now order
    split at h <;> cases h
    rename_i hperm
    exact .expire now order hperm
  · rename_i n
    cases h
    exact .quiet _ _ _ (.swept n)
  · rename_i x rest n
    cases h
    exact .quiet _ _ _ (.reclaim x rest n)
  · cases h

/-- The same for the coordinator as a program. -/
theorem coordinator_steps (h : (coordinator c).thread s t l = some (s', t')) :
    Steps c s t l s' t' := by
  simp only [coordinator] at h
  exact Thread.step_spec h

/-- The retention bound is fixed. -/
theorem Steps.retainTerminal (h : Steps c s t l s' t') :
    s'.store.retainTerminal = s.store.retainTerminal := by
  cases h with
  | quiet => rfl
  | begin a r h => cases h <;> rfl
  | reserve b r h => cases h <;> rfl
  | wait b =>
    dsimp only
    unfold Store.waitChan
    split <;> rfl
  | publish f stamp valid => rfl
  | fold f stamp => exact Store.retainTerminal_apply _ _
  | unreserve b x =>
    dsimp only
    unfold Store.unreserve
    split
    · rfl
    · split
      · rfl
      · dsimp only
        split <;> rfl
  | abort a =>
    simp only [Store.abortComplete]
    split <;> rfl
  | expire now order perm => rfl

theorem Steps.poller (h : Steps c s t l s' t') : s'.poller = s.poller := by
  cases h <;> rfl

theorem Steps.clock (h : Steps c s t l s' t') : s'.clock = s.clock := by
  cases h <;> rfl

/-- The steps of the environment. -/
inductive Environs (c : Config) (s : State) : EnvStep → State → Prop
  | tick (now : Time) (le : s.clock ≤ now) : Environs c s (.tick now) { s with clock := now }
  | fetch (p : Poller) (inbox : ∀ q ∈ p.inbox, q.1 ∈ s.log) :
      Environs c s .poll { s with poller := p }
  | deliver (e : Event) (o : ℕ) (p : Poller) (inbox : s.poller.inbox = (e, o) :: p.inbox) :
      Environs c s .poll { s with store := (s.store.apply e).1, poller := p }

/-- **Every step of the environment is one of the listed ones.** -/
theorem environment_spec {e : EnvStep} (h : (coordinator c).env s e = some s') :
    Environs c s e s' := by
  simp only [coordinator] at h
  cases e with
  | tick now =>
    simp only [State.environment] at h
    split at h <;> cases h
    rename_i hle
    exact .tick now hle
  | poll =>
    simp only [State.environment] at h
    split at h
    · cases h
      refine .fetch _ ?_
      intro q hq
      have hmem := List.mem_of_mem_drop (List.mem_of_mem_take hq)
      exact List.mem_of_mem_filter (List.fst_mem_of_mem_zipIdx hmem)
    · rename_i e o rest hin
      cases h
      exact .deliver e o _ hin

/-- Without the poller, time passes and nothing else. -/
theorem Environs.tick_of_ne {e : EnvStep} (h : Environs c s e s') (hne : e ≠ .poll) :
    ∃ now, s.clock ≤ now ∧ s' = { s with clock := now } := by
  cases h with
  | tick now le => exact ⟨now, le, rfl⟩
  | fetch p inbox => exact absurd rfl hne
  | deliver e o p inbox => exact absurd rfl hne

/-! ## What an envelope is about -/

namespace Frame

/-- The key of the envelope. -/
def key : Frame → String
  | submit spec => sessionKey spec.tenant spec.project spec.workflowID
  | grant _ x _ => x.key
  | heartbeat a => a.key
  | complete a => a.key
  | fail a _ => a.key
  | verdict _ x => x.key
  | sweep x _ _ => x.key

/-- The type of the envelope. -/
def type : Frame → EventType
  | submit _ => .submitted
  | grant _ _ _ => .leased
  | heartbeat _ => .heartbeat
  | complete _ => .completed
  | fail _ _ => .failed
  | verdict a x => (a.verdict x).1
  | sweep x _ _ => (sweepVerdict x).1

@[simp] theorem key_event (c : Config) (now : Time) (f : Frame) : (f.event c now).key = f.key := by
  cases f <;> rfl

@[simp] theorem eventType_event (c : Config) (now : Time) (f : Frame) :
    eventType (f.event c now) = some f.type := by
  cases f <;> exact eventType_newEnvelope ..

theorem verdict_eq (a : FailCall) (x : Execution) :
    (a.verdict x).1 = .retry ∨ (a.verdict x).1 = .dead := by
  unfold FailCall.verdict
  split
  · exact .inl rfl
  · exact .inr rfl

theorem sweepVerdict_eq (x : Execution) :
    (sweepVerdict x).1 = .retry ∨ (sweepVerdict x).1 = .dead := by
  unfold sweepVerdict
  split
  · exact .inl rfl
  · exact .inr rfl

variable {f : Frame}

/-- Only `Complete` appends a completion. -/
theorem eq_complete_of_type (h : f.type = .completed) : ∃ a, f = complete a := by
  cases f with
  | complete a => exact ⟨a, rfl⟩
  | verdict a x => rcases verdict_eq a x with hv | hv <;> simp [type, hv] at h
  | sweep x rest n => rcases sweepVerdict_eq x with hv | hv <;> simp [type, hv] at h
  | _ => simp [type] at h

/-- Only `Submit` appends a submission. -/
theorem eq_submit_of_type (h : f.type = .submitted) : ∃ spec, f = submit spec := by
  cases f with
  | submit spec => exact ⟨spec, rfl⟩
  | verdict a x => rcases verdict_eq a x with hv | hv <;> simp [type, hv] at h
  | sweep x rest n => rcases sweepVerdict_eq x with hv | hv <;> simp [type, hv] at h
  | _ => simp [type] at h

/-- Only `LeaseBatch` appends a lease. -/
theorem eq_grant_of_type (h : f.type = .leased) : ∃ b x n, f = grant b x n := by
  cases f with
  | grant b x n => exact ⟨b, x, n, rfl⟩
  | verdict a x => rcases verdict_eq a x with hv | hv <;> simp [type, hv] at h
  | sweep x rest n => rcases sweepVerdict_eq x with hv | hv <;> simp [type, hv] at h
  | _ => simp [type] at h

end Frame

/-- The envelope a thread is about to fold. -/
def Thread.folding? (c : Config) : Thread → Option Event
  | .folding f stamp => some (f.event c stamp)
  | _ => none

/-! ## What a step does to one key -/

/-- The execution under `k` after a step that takes a thread from `t` to `t'`. -/
inductive FindChange (c : Config) (s : State) (t t' : Thread) (k : String) :
    Option Execution → Prop
  | same : FindChange c s t t' k (s.store.find? k)
  | evicted (retained : 0 < s.store.retainTerminal) : FindChange c s t t' k none
  | reserved (b : Batch) (x : Execution) (thread : t = .leasing b)
      (next : t' = .granting b { x with reserved := true })
      (present : s.store.find? k = some x) (pending : x.status = .pending)
      (free : x.reserved = false) : FindChange c s t t' k (some { x with reserved := true })
  | unreserved (b : Batch) (x y : Execution) (thread : t = .unreserving b x) (key : k = x.key)
      (present : s.store.find? k = some y) (ref : y.ref = x.ref) :
      FindChange c s t t' k (some { y with reserved := false })
  | fenced (a : CompleteCall) (x : Execution) (thread : t = .start (.complete a))
      (next : t' = .preparing (.complete a)) (key : k = a.key)
      (present : s.store.find? k = some x) (live : x.terminal = false)
      (current : x.attempt = a.attempt) (leased : a.attempt ≠ 0) (free : x.completing = false) :
      FindChange c s t t' k (some { x with completing := true })
  | released (a : CompleteCall) (x : Execution) (thread : t = .aborting a) (key : k = a.key)
      (present : s.store.find? k = some x) :
      FindChange c s t t' k (some { x with completing := false })
  | created (f : Frame) (stamp : Time) (nx : Execution) (thread : t = .folding f stamp)
      (next : t' = f.onFolded) (key : k = f.key) (type : f.type = .submitted)
      (absent : s.store.find? k = none)
      (valid : newExecution s.store.refs (f.event c stamp) = some nx) :
      FindChange c s t t' k (some nx)
  | folded (f : Frame) (stamp : Time) (x x' : Execution) (thread : t = .folding f stamp)
      (next : t' = f.onFolded) (key : k = f.key) (present : s.store.find? k = some x)
      (folds : Execution.Folds x (f.event c stamp) x') : FindChange c s t t' k (some x')

theorem FindChange.of_eq {k : String} {o : Option Execution} (h : o = s.store.find? k) :
    FindChange c s t t' k o :=
  h ▸ .same

/-- **What a step does to each key.** -/
theorem Steps.findChange (h : Steps c s t l s' t') (k : String) :
    FindChange c s t t' k (s'.store.find? k) := by
  cases h with
  | quiet => exact .same
  | begin a r h =>
    cases h with
    | refused duplicate => exact .same
    | fenced x present live current leased free =>
      by_cases hk : k = a.key
      · subst hk
        simp only [Store.find?_put_self]
        exact .fenced a x rfl rfl rfl present live current leased free
      · exact .of_eq (by simp [hk])
  | reserve b r h =>
    cases h with
    | nothing stale => exact .of_eq rfl
    | found pre rest k' x split stale present pending free =>
      by_cases hk : k = k'
      · subst hk
        simp only [Store.find?_put_self]
        exact .reserved b x rfl rfl present pending free
      · exact .of_eq (by simp only [Store.find?_put, hk, if_false]; rfl)
  | wait b =>
    refine .of_eq ?_
    dsimp only
    unfold Store.waitChan
    split <;> rfl
  | publish f stamp valid => exact .same
  | fold f stamp =>
    dsimp only
    obtain ⟨o, hwritten, hfind | ⟨hret, hnone, -⟩⟩ :=
      Store.find?_apply_cases s.store (f.event c stamp) k
    · rw [hfind]
      cases hwritten with
      | same refused => exact .same
      | created nx key ty absent valid =>
        rw [Frame.key_event] at key
        exact .created f stamp nx rfl rfl key (by simpa using ty) absent valid
      | folded x x' key present folds =>
        rw [Frame.key_event] at key
        exact .folded f stamp x x' rfl rfl key present folds
    · rw [hnone]
      exact .evicted hret
  | unreserve b x =>
    dsimp only
    rw [Store.find?_unreserve]
    cases hy : s.store.find? k with
    | none => exact .of_eq (by simp [hy])
    | some y =>
      by_cases hk : k = x.key ∧ y.ref = x.ref
      · rw [Option.map_some, if_pos hk]
        exact .unreserved b x y rfl hk.1 hy hk.2
      · rw [Option.map_some, if_neg hk]
        exact .of_eq hy.symm
  | abort a =>
    dsimp only
    rw [Store.find?_abortComplete]
    cases hy : s.store.find? k with
    | none => exact .of_eq (by simp [hy])
    | some y =>
      dsimp only [Option.map_some]
      split
      · rename_i hk
        exact .released a y rfl hk hy
      · exact .of_eq hy.symm
  | expire now order perm => exact .same

/-- A property of the executions that does not depend on the run-time flags, that a submit
establishes and that the fold keeps is kept by every step. -/
theorem Steps.forall_find? (h : Steps c s t l s' t') {P : String → Execution → Prop}
    (flags : ∀ k x r g, P k x → P k { x with reserved := r, completing := g })
    (created : ∀ f stamp ref nx, t = .folding f stamp → f.type = .submitted →
      newExecution ref (f.event c stamp) = some nx → P f.key nx)
    (folded : ∀ f stamp x x', t = .folding f stamp → s.store.find? f.key = some x →
      Execution.Folds x (f.event c stamp) x' → P f.key x → P f.key x')
    (hP : ∀ k x, s.store.find? k = some x → P k x) (k : String) (x : Execution)
    (hx : s'.store.find? k = some x) : P k x := by
  have hchange := h.findChange k
  rw [hx] at hchange
  generalize ho : some x = o at hchange
  cases hchange with
  | same => exact hP k x ho.symm
  | evicted retained => cases ho
  | reserved b y thread next present pending free => cases ho; exact flags k y _ _ (hP k y present)
  | unreserved b y z thread key present ref => cases ho; exact flags k z _ _ (hP k z present)
  | fenced a y thread next key present live current leased free =>
    cases ho; exact flags k y _ _ (hP k y present)
  | released a y thread key present => cases ho; exact flags k y _ _ (hP k y present)
  | created f stamp nx thread next key type absent valid =>
    cases ho
    subst key
    exact created f stamp _ x thread type valid
  | folded f stamp y x' thread next key present folds =>
    cases ho
    subst key
    exact folded f stamp y x thread present folds (hP _ y present)

/-- Only a fold changes more than the run-time flags. -/
theorem Steps.unflagged_find? (h : Steps c s t l s' t') (ht : t.folding? c = none) (k : String) :
    (s'.store.find? k).map Execution.unflagged = (s.store.find? k).map Execution.unflagged := by
  cases h with
  | quiet => rfl
  | begin a r h =>
    cases h with
    | refused duplicate => rfl
    | fenced x present live current leased free =>
      rw [Store.find?_put]
      split
      · rename_i hk
        rw [hk, present]
        rfl
      · rfl
  | reserve b r h =>
    cases h with
    | nothing stale => rfl
    | found pre rest k' x split stale present pending free =>
      rw [Store.find?_put]
      split
      · rename_i hk
        rw [hk, present]
        rfl
      · rfl
  | wait b =>
    dsimp only
    unfold Store.waitChan
    split <;> rfl
  | publish f stamp valid => rfl
  | fold f stamp => cases ht
  | unreserve b x =>
    dsimp only
    rw [Store.find?_unreserve, Option.map_map]
    refine congrFun (congrArg Option.map (funext fun y => ?_)) _
    dsimp only [Function.comp_apply]
    split <;> rfl
  | abort a =>
    dsimp only
    rw [Store.find?_abortComplete, Option.map_map]
    refine congrFun (congrArg Option.map (funext fun y => ?_)) _
    dsimp only [Function.comp_apply]
    split <;> rfl
  | expire now order perm => rfl

theorem Steps.folded_find? (h : Steps c s t l s' t') (ht : t.folding? c = none) (k : String) :
    (s'.store.find? k).map Execution.folded = (s.store.find? k).map Execution.folded := by
  have heq := congrArg (Option.map Execution.folded) (h.unflagged_find? ht k)
  rwa [Option.map_map, Option.map_map] at heq

/-- What a step does to an execution that has not finished. -/
theorem Steps.find?_of_live (h : Steps c s t l s' t') {k : String} {x : Execution}
    (hx : s.store.find? k = some x) (hlive : x.terminal = false) :
    (∃ y, s'.store.find? k = some y ∧ y.unflagged = x.unflagged) ∨
      ∃ f stamp x', t = .folding f stamp ∧ l = .go ∧ k = f.key ∧
        Execution.Folds x (f.event c stamp) x' ∧
        (s'.store.find? k = some x' ∨ (s'.store.find? k = none ∧ x'.terminal = true)) := by
  cases hfold : t.folding? c with
  | none =>
    have heq := h.unflagged_find? hfold k
    rw [hx, Option.map_some] at heq
    obtain ⟨y, hy, heq⟩ := Option.map_eq_some_iff.mp heq
    exact .inl ⟨y, hy, heq⟩
  | some e =>
    cases h with
    | fold f stamp =>
      rcases Store.find?_apply_of_live hx hlive (f.event c stamp) with hsame | ⟨hk, x', hx'⟩
      · exact .inl ⟨x, hsame, rfl⟩
      · rw [Frame.key_event] at hk
        exact .inr ⟨f, stamp, x', rfl, rfl, hk, hx'⟩
    | quiet t t' l h => cases h <;> cases hfold
    | _ => cases hfold

theorem Quiet.folding? (h : Quiet c s t l t') : t'.folding? c = none := by
  cases h with
  | heartbeat a => exact heartbeatStart_ind s a (fun _ => rfl) fun _ _ => rfl
  | fail a => exact failStart_ind s a (fun _ => rfl) fun _ _ => rfl
  | error f stamp => cases f <;> rfl
  | _ => rfl

/-- Only a publish adds to the log, and only a publish leaves an event to be folded. -/
theorem Steps.log_cases (h : Steps c s t l s' t') :
    (s'.log = s.log ∧ t'.folding? c = none) ∨
      ∃ f stamp, t = .publishing f stamp ∧ t' = .folding f stamp ∧
        s' = { s with log := s.log ++ [f.event c stamp] } := by
  cases h with
  | quiet t t' l h => exact .inl ⟨rfl, h.folding?⟩
  | begin a r h => exact .inl ⟨rfl, by split <;> rfl⟩
  | reserve b r h =>
    refine .inl ⟨rfl, ?_⟩
    rcases b.onReserve_cases r.2 with ⟨x, -, hx⟩ | hx | hx <;> rw [hx] <;> rfl
  | publish f stamp valid => exact .inr ⟨f, stamp, rfl, rfl, rfl⟩
  | fold f stamp => exact .inl ⟨rfl, by cases f <;> rfl⟩
  | _ => exact .inl ⟨rfl, rfl⟩

theorem Steps.log_subset (h : Steps c s t l s' t') : s.log ⊆ s'.log := by
  rcases h.log_cases with ⟨hlog, -⟩ | ⟨f, stamp, rfl, rfl, rfl⟩
  · rw [hlog]
    exact List.Subset.refl _
  · exact List.subset_append_left _ _

end AgentBus.Workflow
