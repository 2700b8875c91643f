import AgentBus.Workflow.Indexes
import AgentBus.Workflow.Steps

/-!
# No stranded execution

Between two of its steps a call may leave an execution in a state that only that call
leaves again: reserved while the lease is appended, fenced while the completion is
appended, retrying while `Fail` decides.  These are debts of the shared state, and in
every run each of them is owed by some call in flight (`Debt`, `Serves`), so that none is
left once all calls have returned.

Two steps would break this.  `Fail` gives up when its second append fails, and a wf.leased
folded into a fenced execution leaves the completion behind, whose fence then stays up.
`progressGuard` excludes exactly these.

## Main definitions

* `Debt`, `Owes`, `Thread.Serves` — what is owed, and by whom.
* `progressGuard` — the steps under which nothing is stranded.
* `no_stranded_execution` — the result.
* `executions_stranded` — the two ways it fails.
-/

namespace AgentBus.Workflow

open AgentStream Pool

/-- The execution on which `Fail` is about to append its decision. -/
def Thread.verdict? : Thread → Option Execution
  | .publishing (.verdict _ x) _ => some x
  | _ => none

/-- The decision of `Fail` is appended as long as the execution waits for it, and no
wf.leased is folded into a fenced execution.  The poller is not part of the calls. -/
def progressGuard (c : Config) : Guard State Thread Choice EnvStep where
  thread s t l :=
    (∀ x ∈ t.verdict?, l = .publishError → ∀ y ∈ s.store.find? x.key, y.status ≠ .retrying) ∧
    (∀ e ∈ t.folding? c, ∀ x ∈ s.store.find? e.key, eventType e = some .leased →
      (x.apply e).isSome = true → x.completing = false)
  env _ e := e ≠ .poll

instance (c : Config) (s : State) (t : Thread) (l : Choice) :
    Decidable ((progressGuard c).thread s t l) :=
  inferInstanceAs (Decidable
    ((∀ x ∈ t.verdict?, l = .publishError → ∀ y ∈ s.store.find? x.key, y.status ≠ .retrying) ∧
      (∀ e ∈ t.folding? c, ∀ x ∈ s.store.find? e.key, eventType e = some .leased →
        (x.apply e).isSome = true → x.completing = false)))

instance (c : Config) (s : State) (e : EnvStep) : Decidable ((progressGuard c).env s e) :=
  inferInstanceAs (Decidable (e ≠ .poll))

/-! ## Debts -/

/-- What a call in flight owes the store. -/
inductive Debt where
  /-- A live execution is reserved. -/
  | reserved (key : String) (ref : ℕ) (attempt : ℤ)
  /-- A live execution is fenced. -/
  | completing (key : String) (attempt : ℤ)
  /-- An execution waits for the decision of `Fail`. -/
  | retrying (key : String)

/-- What an execution under `k` owes. -/
def Execution.Owes (x : Execution) (k : String) : Debt → Prop
  | .reserved k' ref attempt =>
    k' = k ∧ x.ref = ref ∧ x.attempt = attempt ∧ x.reserved = true ∧ x.terminal = false
  | .completing k' attempt =>
    k' = k ∧ x.attempt = attempt ∧ x.completing = true ∧ x.terminal = false
  | .retrying k' => k' = k ∧ x.status = .retrying

/-- The debts of a state. -/
def Owes (s : State) (d : Debt) : Prop := ∃ k x, s.store.find? k = some x ∧ x.Owes k d

/-- The debts a call settles once its event is folded. -/
def Frame.Serves : Frame → Debt → Prop
  | .grant _ x n, .reserved k ref attempt => x.key = k ∧ x.ref = ref ∧ n = attempt + 1
  | .complete a, .completing k attempt => a.key = k ∧ a.attempt = attempt
  | .verdict _ x, .retrying k => x.key = k
  | _, _ => False

/-- The debts a call in flight settles. -/
def Thread.Serves : Thread → Debt → Prop
  | .granting _ x, .reserved k ref _ => x.key = k ∧ x.ref = ref
  | .unreserving _ x, .reserved k ref _ => x.key = k ∧ x.ref = ref
  | .aborting a, .completing k attempt => a.key = k ∧ a.attempt = attempt
  | .preparing f, d => f.Serves d
  | .publishing f _, d => f.Serves d
  | .folding f _, d => f.Serves d
  | _, _ => False

/-- What a frame relies on: `Fail` works on a copy of its own execution, and a fenced
attempt was leased. -/
def Frame.Sound : Frame → Prop
  | .fail a x => x.key = a.key
  | .complete a => a.attempt ≠ 0
  | _ => True

/-- What a call relies on. -/
def Thread.Sound : Thread → Prop
  | .preparing f => f.Sound
  | .publishing f _ => f.Sound
  | .folding f _ => f.Sound
  | _ => True

section Steps

variable {c : Config} {s s' : State} {t t' : Thread} {l : Choice}

/-- Every step keeps the indexes. -/
theorem Steps.indexed (h : Steps c s t l s' t') (hs : s.store.Indexed) : s'.store.Indexed := by
  cases h with
  | quiet => exact hs
  | begin a r h => exact hs.begins h
  | reserve b r h => exact hs.reserves h
  | wait b => exact hs.waitChan _
  | publish f stamp valid => exact hs
  | fold f stamp => exact hs.apply _
  | unreserve b x => exact hs.unreserves (Store.unreserve_spec s.store x)
  | abort a => exact hs.abortComplete _ _ _
  | expire now order perm => exact hs.expiredLeases now order

theorem Frame.onError_sound (f : Frame) : f.onError.Sound := by
  cases f <;> trivial

theorem Frame.onFolded_sound (f : Frame) : f.onFolded.Sound := by
  cases f <;> trivial

/-- What the moving call relies on afterwards. -/
theorem Steps.sound (h : Steps c s t l s' t') (hs : s.store.Indexed) (ht : t.Sound) :
    t'.Sound := by
  cases h with
  | quiet t t' l h =>
    cases h with
    | heartbeat a => exact heartbeatStart_ind s a (fun _ => trivial) fun _ _ => trivial
    | fail a => exact failStart_ind s a (fun _ => trivial) fun x hx => hs.keyed _ x hx.1
    | stamp f => exact ht
    | error f stamp => exact f.onError_sound
    | _ => trivial
  | begin a r h =>
    cases h with
    | refused duplicate => trivial
    | fenced x present live current leased free => exact leased
  | reserve b r h =>
    rcases b.onReserve_cases r.2 with ⟨x, -, heq⟩ | heq | heq <;> rw [heq] <;> trivial
  | publish f stamp valid => exact ht
  | fold f stamp => exact f.onFolded_sound
  | _ => trivial

variable {k : String} {x x' : Execution} {d : Debt} {f : Frame} {e : Event}

/-- A debt of one execution, looked up. -/
theorem Owes.of_find? (hx : s.store.find? k = some x) (hd : x.Owes k d) : Owes s d :=
  ⟨k, x, hx, hd⟩

/-- Debts do not look at the fields that differ between `x` and `y`. -/
theorem Execution.Owes.congr {y : Execution} (h : x.Owes k d) (href : y.ref = x.ref)
    (hatt : y.attempt = x.attempt) (hstatus : y.status = x.status)
    (hres : x.reserved = true → y.reserved = true)
    (hcomp : x.completing = true → y.completing = true) : y.Owes k d := by
  have hterm : y.terminal = x.terminal := by simp [Execution.terminal, hstatus]
  cases d with
  | reserved k' ref attempt =>
    exact ⟨h.1, href.trans h.2.1, hatt.trans h.2.2.1, hres h.2.2.2.1, hterm.trans h.2.2.2.2⟩
  | completing k' attempt =>
    exact ⟨h.1, hatt.trans h.2.1, hcomp h.2.2.1, hterm.trans h.2.2.2⟩
  | retrying k' => exact ⟨h.1, hstatus.trans h.2⟩

/-- Only `Fail` appends a failure. -/
theorem Frame.eq_fail_of_type (h : f.type = .failed) : ∃ a x, f = .fail a x := by
  cases f with
  | fail a x => exact ⟨a, x, rfl⟩
  | verdict a x => rcases verdict_eq a x with hv | hv <;> simp [type, hv] at h
  | sweep x rest n => rcases sweepVerdict_eq x with hv | hv <;> simp [type, hv] at h
  | _ => simp [type] at h

/-- What an accepted event leaves owing was owed, unless it is the failure itself. -/
theorem Execution.Owes.of_folds (h : Execution.Folds x e x') (hd : x'.Owes k d)
    (hfence : eventType e = some .leased → x.completing = false) :
    x.Owes k d ∨ (eventType e = some .failed ∧ d = .retrying k) := by
  cases h with
  | leased p ty payload status attempt =>
    cases d with
    | reserved k' ref n => cases hd.2.2.2.1
    | completing k' n =>
      have hfree := hfence ty
      rw [show x.completing = true from hd.2.2.1] at hfree
      cases hfree
    | retrying k' => cases hd.2
  | heartbeat p ty payload status attempt worker =>
    exact .inl (hd.congr rfl rfl rfl id id)
  | completed p ty payload live attempt leased =>
    have hterm : (x.complete e p).terminal = true := by
      simp [Execution.complete, Execution.record, Execution.terminal]
    cases d with
    | reserved k' ref n => rw [hd.2.2.2.2] at hterm; cases hterm
    | completing k' n => rw [hd.2.2.2] at hterm; cases hterm
    | retrying k' => cases hd.2
  | failed p ty payload status attempt =>
    have hlive : x.terminal = false := by simp [Execution.terminal, status]
    cases d with
    | reserved k' ref n => exact .inl ⟨hd.1, hd.2.1, hd.2.2.1, hd.2.2.2.1, hlive⟩
    | completing k' n => exact .inl ⟨hd.1, hd.2.1, hd.2.2.1, hlive⟩
    | retrying k' => exact .inr ⟨ty, by rw [hd.1]⟩
  | retry p ty payload status =>
    have hlive : x.terminal = false := by
      rcases status with hs | hs <;> simp [Execution.terminal, hs]
    cases d with
    | reserved k' ref n => exact .inl ⟨hd.1, hd.2.1, hd.2.2.1, hd.2.2.2.1, hlive⟩
    | completing k' n => exact .inl ⟨hd.1, hd.2.1, hd.2.2.1, hlive⟩
    | retrying k' => cases hd.2
  | dead p ty payload live =>
    have hterm : (x.kill e p).terminal = true := by
      simp [Execution.kill, Execution.record, Execution.terminal]
    cases d with
    | reserved k' ref n => rw [hd.2.2.2.2] at hterm; cases hterm
    | completing k' n => rw [hd.2.2.2] at hterm; cases hterm
    | retrying k' => cases hd.2

/-- A new debt is served by the call whose step made it. -/
theorem Steps.served_or_owed (h : Steps c s t l s' t') (hs : s.store.Indexed) (ht : t.Sound)
    (hg : (progressGuard c).thread s t l) (hd : Owes s' d) : t'.Serves d ∨ Owes s d := by
  obtain ⟨k, x', hx', hd⟩ := hd
  have hchange := h.findChange k
  rw [hx'] at hchange
  generalize ho : some x' = o at hchange
  cases hchange with
  | same => exact .inr (.of_find? ho.symm hd)
  | evicted retained => cases ho
  | reserved b x thread next present pending free =>
    cases ho
    cases d with
    | reserved k' ref n =>
      subst next
      exact .inl ⟨(hs.keyed k x present).trans hd.1.symm, hd.2.1⟩
    | completing k' n => exact .inr (.of_find? present hd)
    | retrying k' => exact .inr (.of_find? present hd)
  | unreserved b x y thread key present ref =>
    cases ho
    cases d with
    | reserved k' ref n => cases hd.2.2.2.1
    | completing k' n => exact .inr (.of_find? present hd)
    | retrying k' => exact .inr (.of_find? present hd)
  | fenced a x thread next key present live current leased free =>
    cases ho
    cases d with
    | reserved k' ref n => exact .inr (.of_find? present hd)
    | completing k' n =>
      subst next
      exact .inl ⟨key.symm.trans hd.1.symm, current.symm.trans hd.2.1⟩
    | retrying k' => exact .inr (.of_find? present hd)
  | released a x thread key present =>
    cases ho
    cases d with
    | reserved k' ref n => exact .inr (.of_find? present hd)
    | completing k' n => cases hd.2.2.1
    | retrying k' => exact .inr (.of_find? present hd)
  | created f stamp nx thread next key type absent valid =>
    cases ho
    obtain ⟨-, hstatus, hfree, hopen⟩ := Store.newExecution_spec valid
    cases d with
    | reserved k' ref n => cases hfree.symm.trans hd.2.2.2.1
    | completing k' n => cases hopen.symm.trans hd.2.2.1
    | retrying k' => cases hstatus.symm.trans hd.2
  | folded f stamp x x' thread next key present folds =>
    cases ho
    subst thread key next
    have hfence : eventType (f.event c stamp) = some .leased → x.completing = false := by
      intro ty
      refine hg.2 _ rfl x (by simpa using present) ty ?_
      rw [Execution.apply_eq_some_iff.mpr folds]
      rfl
    rcases hd.of_folds folds hfence with hd | ⟨ty, rfl⟩
    · exact .inr (.of_find? present hd)
    · obtain ⟨a, y, rfl⟩ := Frame.eq_fail_of_type (f := f) (by simpa using ty)
      exact .inl ht

theorem Execution.Folds.free_of_leased (h : Execution.Folds x e x')
    (hty : eventType e = some .leased) : x'.reserved = false := by
  cases h
  case leased => rfl
  all_goals simp_all

theorem Execution.Folds.open_of_completed (h : Execution.Folds x e x')
    (hty : eventType e = some .completed) : x'.completing = false := by
  cases h
  case completed => rfl
  all_goals simp_all

theorem Execution.Folds.status_of_verdict (h : Execution.Folds x e x')
    (hty : eventType e = some .retry ∨ eventType e = some .dead) : x'.status ≠ .retrying := by
  cases h
  case retry => simp [Execution.requeue, Execution.record]
  case dead => simp [Execution.kill, Execution.record]
  all_goals simp_all

/-- A debt is not left on an execution that accepts the event serving it. -/
theorem Frame.Serves.not_owes {stamp : Time} (hf : f.Serves d)
    (h : Execution.Folds x (f.event c stamp) x') : ¬ x'.Owes k d := by
  intro hd
  cases f with
  | grant b y n =>
    cases d with
    | reserved k' ref attempt =>
      cases (h.free_of_leased (by simp [Frame.type])).symm.trans hd.2.2.2.1
    | _ => exact hf.elim
  | complete a =>
    cases d with
    | completing k' attempt =>
      cases (h.open_of_completed (by simp [Frame.type])).symm.trans hd.2.2.1
    | _ => exact hf.elim
  | verdict a y =>
    cases d with
    | retrying k' =>
      refine h.status_of_verdict ?_ hd.2
      simpa [Frame.type] using Frame.verdict_eq a y
    | _ => exact hf.elim
  | _ => cases d <;> exact hf.elim

/-- An execution that owes what an event serves accepts the event. -/
theorem Frame.Serves.folds (hf : f.Serves d) (stamp : Time) (hsound : f.Sound)
    (hs : s.store.Indexed) (hx : s.store.find? k = some x) (hd : x.Owes k d) :
    ∃ x', Execution.Folds x (f.event c stamp) x' := by
  cases f with
  | grant b y n =>
    cases d with
    | reserved k' ref attempt =>
      obtain ⟨-, -, hatt, hres, hlive⟩ := hd
      have hpending : x.status = .pending := by
        refine (hs.reserved k x hx hres).resolve_right ?_
        simp [hlive]
      refine ⟨_, .leased ⟨b.call.workerID⟩ (by simp [Frame.type])
        (LeasePayload.unmarshal_marshal _) hpending ?_⟩
      rw [hatt]
      exact hf.2.2
    | _ => exact hf.elim
  | complete a =>
    cases d with
    | completing k' attempt =>
      obtain ⟨-, hatt, -, hlive⟩ := hd
      exact ⟨_, .completed ⟨a.workerID, a.result⟩ (by simp [Frame.type])
        (CompletePayload.unmarshal_marshal _) hlive (hf.2.trans hatt.symm) hsound⟩
    | _ => exact hf.elim
  | verdict a y =>
    cases d with
    | retrying k' =>
      have hread : ReasonPayload.unmarshal ((Frame.verdict a y).event c stamp).payload =
          some ⟨(a.verdict y).2⟩ := ReasonPayload.unmarshal_marshal _
      rcases Frame.verdict_eq a y with hv | hv
      · exact ⟨_, .retry _ (by simp [Frame.type, hv]) hread (.inr hd.2)⟩
      · exact ⟨_, .dead _ (by simp [Frame.type, hv]) hread
          (by simp [Execution.terminal, hd.2])⟩
    | _ => exact hf.elim
  | _ => cases d <;> exact hf.elim

theorem Frame.Serves.key_eq (hf : f.Serves d) (hd : x.Owes k d) : f.key = k := by
  cases f with
  | grant b y n =>
    cases d with
    | reserved k' ref attempt => exact hf.1.trans hd.1
    | _ => exact hf.elim
  | complete a =>
    cases d with
    | completing k' attempt => exact hf.1.trans hd.1
    | _ => exact hf.elim
  | verdict a y =>
    cases d with
    | retrying k' => exact Eq.trans hf hd.1
    | _ => exact hf.elim
  | _ => cases d <;> exact hf.elim

/-- Folding an event settles the debts it serves. -/
theorem Frame.Serves.fold (hf : f.Serves d) (hsound : f.Sound) (hs : s.store.Indexed)
    (stamp : Time) :
    ¬ Owes { s with store := (s.store.apply (f.event c stamp)).1 } d := by
  rintro ⟨k, y, hy, hd⟩
  have hkey := hf.key_eq hd
  dsimp only at hy
  obtain ⟨o, hwritten, hfind | ⟨-, hnone, -⟩⟩ :=
    Store.find?_apply_cases s.store (f.event c stamp) k
  · rw [hfind] at hy
    cases hwritten with
    | same refused =>
      obtain ⟨y', hy'⟩ : ∃ y', Execution.Folds y (f.event c stamp) y' :=
        hf.folds stamp hsound hs hy hd
      exact refused (by rw [Frame.key_event, hkey]) y y' hy hy'
    | created nx key ty absent valid =>
      obtain ⟨spec, rfl⟩ := Frame.eq_submit_of_type (f := f) (by simpa using ty)
      cases d <;> exact hf.elim
    | folded x x' key present folds =>
      cases hy
      exact hf.not_owes folds hd
  · rw [hnone] at hy
    cases hy

/-- A debt stays served, or is settled, by the step of the call that serves it. -/
theorem Steps.serves (h : Steps c s t l s' t') (hs : s.store.Indexed) (ht : t.Sound)
    (hg : (progressGuard c).thread s t l) (hserve : t.Serves d) (hd : Owes s' d) : t'.Serves d := by
  cases h with
  | quiet t t' l h =>
    cases h with
    | read b x =>
      cases d with
      | reserved k ref attempt =>
        obtain ⟨k', y, hy, hkey, href, hatt, -⟩ := hd
        refine ⟨hserve.1, hserve.2, ?_⟩
        have hy' : s.store.find? x.key = some y := by rw [hserve.1, hkey, hy]
        rw [Store.deref_of_find? hy' (href.trans hserve.2.symm), hatt]
      | _ => exact hserve.elim
    | stamp f => exact hserve
    | error f stamp =>
      cases f with
      | grant b x n =>
        cases d with
        | reserved k ref attempt => exact ⟨hserve.1, hserve.2.1⟩
        | _ => exact hserve.elim
      | complete a =>
        cases d with
        | completing k attempt => exact hserve
        | _ => exact hserve.elim
      | verdict a x =>
        cases d with
        | retrying k =>
          obtain ⟨k', y, hy, hkey, hstatus⟩ := hd
          refine absurd hstatus (hg.1 x rfl rfl y ?_)
          rw [show x.key = k' from Eq.trans hserve hkey]
          exact hy
        | _ => exact hserve.elim
      | _ => cases d <;> exact hserve.elim
    | _ => cases d <;> exact hserve.elim
  | publish f stamp valid => exact hserve
  | fold f stamp => exact absurd hd (Frame.Serves.fold hserve ht hs stamp)
  | unreserve b x =>
    cases d with
    | reserved k ref attempt =>
      obtain ⟨k', y, hy, hkey, href, -, hres, -⟩ := hd
      dsimp only at hy
      rw [Store.find?_unreserve] at hy
      obtain ⟨z, hz, rfl⟩ := Option.map_eq_some_iff.mp hy
      by_cases hxz : k' = x.key ∧ z.ref = x.ref
      · simp [hxz] at hres
      · rw [if_neg hxz] at href
        exact absurd ⟨hkey.symm.trans hserve.1.symm, href.trans hserve.2.symm⟩ hxz
    | _ => exact hserve.elim
  | abort a =>
    cases d with
    | completing k attempt =>
      obtain ⟨k', y, hy, hkey, -, hcomp, -⟩ := hd
      dsimp only at hy
      rw [Store.find?_abortComplete] at hy
      obtain ⟨z, hz, rfl⟩ := Option.map_eq_some_iff.mp hy
      have hk : k' = sessionKey a.tenant a.project a.workflowID :=
        hkey.symm.trans hserve.1.symm
      simp [hk] at hcomp
    | _ => exact hserve.elim
  | _ => cases d <;> exact hserve.elim

end Steps

/-! ## Whole runs -/

/-- The indexes agree, and every call relies on what it may rely on, in every guarded run. -/
theorem progress_holds {c : Config} {w : World State Thread}
    (h : (coordinator c).Reach (progressGuard c) (State.init c) w) :
    Holds (fun s => s.store.Indexed) (fun _ t => t.Sound) (fun _ _ => True) w := by
  refine Program.Reach.local_invariant (I := fun s : State => s.store.Indexed)
    (L := fun _ t => t.Sound) (fun _ _ _ => trivial) (Store.indexed_empty _) ?_ ?_ ?_ h
  · intro s r _
    exact ⟨trivial, fun _ _ => trivial⟩
  · intro s t l s' t' hs ht _ hstep
    have hsteps := coordinator_steps hstep
    exact ⟨⟨hsteps.indexed hs, hsteps.sound hs ht⟩, fun u hu _ => ⟨hu, trivial⟩⟩
  · intro s e s' hs hg hstep
    obtain ⟨now, -, rfl⟩ := (environment_spec hstep).tick_of_ne hg
    exact ⟨hs, fun _ hu => hu⟩

/-- Every debt is served by some call, in every guarded run. -/
theorem debts_served {c : Config} {w : World State Thread}
    (h : (coordinator c).Reach (progressGuard c) (State.init c) w) {d : Debt}
    (hd : Owes w.shared d) : ∃ t ∈ w.threads, t.Serves d := by
  refine Program.Reach.served Owes Thread.Serves (fun _ hw => progress_holds hw) ?_ ?_ ?_ h d hd
  · rintro d ⟨k, x, hx, -⟩
    simp [State.init, Store.empty, Store.find?] at hx
  · intro s t l s' t' d hs ht hg hstep hd
    have hsteps := coordinator_steps hstep
    by_cases hserve : t.Serves d
    · exact .inl (hsteps.serves hs ht hg hserve hd)
    · exact (hsteps.served_or_owed hs ht hg hd).imp_right fun howed => ⟨howed, hserve⟩
  · intro s e s' d _ hg hstep hd
    obtain ⟨now, -, rfl⟩ := (environment_spec hstep).tick_of_ne hg
    exact hd

/-- No call is in flight. -/
def Quiescent (w : World State Thread) : Prop := ∀ t ∈ w.threads, t.finished = true

instance (w : World State Thread) : Decidable (Quiescent w) :=
  inferInstanceAs (Decidable (∀ t ∈ w.threads, t.finished = true))

/-- The execution under `k` can still make progress: a lease finds it in its queue, or
the sweep finds it in the running index. -/
def CanProgress (s : Store) (k : String) (x : Execution) : Prop :=
  (x.status = .pending ∧ x.reserved = false ∧ k ∈ s.queues x.taskType) ∨
    (x.status = .running ∧ x.completing = false ∧ k ∈ s.running)

/-- **No stranded execution.**  In every run that meets the guard, whatever publishes fail,
once no call is in flight every execution that is not terminal can still make progress. -/
theorem no_stranded_execution (c : Config) {w : World State Thread}
    (h : (coordinator c).Reach (progressGuard c) (State.init c) w) (hquiet : Quiescent w)
    {k : String} {x : Execution} (hx : w.shared.store.find? k = some x)
    (hlive : x.terminal = false) : CanProgress w.shared.store k x := by
  have hindexed := (progress_holds h).shared
  have hsettled : ∀ d, ¬ Owes w.shared d := by
    intro d hd
    obtain ⟨t, ht, hserve⟩ := debts_served h hd
    have hdone := hquiet t ht
    cases t with
    | done r answer => cases d <;> exact hserve
    | _ => cases hdone
  cases hs : x.status with
  | pending =>
    have hfree : x.reserved = false := by
      cases hr : x.reserved with
      | false => rfl
      | true => exact absurd ⟨k, x, hx, rfl, rfl, rfl, hr, hlive⟩ (hsettled (.reserved k _ _))
    exact .inl ⟨hs, hfree, hindexed.pending k x hx hs hfree⟩
  | running =>
    have hopen : x.completing = false := by
      cases hc : x.completing with
      | false => rfl
      | true => exact absurd ⟨k, x, hx, rfl, rfl, hc, hlive⟩ (hsettled (.completing k _))
    exact .inr ⟨hs, hopen, hindexed.running k x hx hs⟩
  | retrying => exact absurd ⟨k, x, hx, rfl, hs⟩ (hsettled (.retrying k))
  | completed => simp [Execution.terminal, hs] at hlive
  | failed => simp [Execution.terminal, hs] at hlive

/-! ## Two stranded executions -/

/-- `Fail` records the failure, and the append of its decision fails. -/
def undecidedFailure : List (Act Request Choice EnvStep) :=
  firstAttempt 3 ++ arrive 2 5 (.fail ⟨firstHolder, "boom", true⟩) ++ [.run 2 .publishError]

/-- A sweep has collected the expired lease when `Complete` takes the fence; it requeues
the execution, the second attempt is leased, and the completion comes too late. -/
def staleCompletion : List (Act Request Choice EnvStep) :=
  firstExpired ++ arrive 3 1 (.complete ⟨firstHolder, [1]⟩) ++ goOn 2 5 ++
    arrive 4 8 (.leaseBatch ⟨"build", "w2", 1, 0⟩) ++ goOn 3 3

/-- After either run no call is in flight, and the execution is left retrying, or running
behind a fence that no call will lower. -/
theorem executions_stranded :
    (∃ w, (coordinator .default).Reach Guard.all (State.init .default) w ∧ Quiescent w ∧
      ∃ x, w.shared.store.find? "acme/p/w" = some x ∧ x.terminal = false ∧
        ¬ CanProgress w.shared.store "acme/p/w" x ∧ x.status = .retrying) ∧
    (∃ w, (coordinator .default).Reach Guard.all (State.init .default) w ∧ Quiescent w ∧
      ∃ x, w.shared.store.find? "acme/p/w" = some x ∧ x.terminal = false ∧
        ¬ CanProgress w.shared.store "acme/p/w" x ∧ x.status = .running) := by
  have hfail : ((coordinator .default).exec ⟨State.init .default, []⟩ undecidedFailure).map
      (fun w => (decide (Quiescent w), (w.shared.store.find? "acme/p/w").map
        fun x => x.status)) = some (true, some .retrying) := by
    decide +kernel
  have hstale : ((coordinator .default).exec ⟨State.init .default, []⟩ staleCompletion).map
      (fun w => (decide (Quiescent w), (w.shared.store.find? "acme/p/w").map
        fun x => (x.status, x.completing))) = some (true, some (.running, true)) := by
    decide +kernel
  constructor
  · obtain ⟨w, hw, heq⟩ := Program.exists_reach hfail
    rw [Prod.mk.injEq] at heq
    obtain ⟨x, hx, hs⟩ := Option.map_eq_some_iff.mp heq.2
    refine ⟨w, hw, of_decide_eq_true heq.1, x, hx, ?_, ?_, hs⟩
    · simp [Execution.terminal, hs]
    · simp [CanProgress, hs]
  · obtain ⟨w, hw, heq⟩ := Program.exists_reach hstale
    rw [Prod.mk.injEq] at heq
    obtain ⟨x, hx, hs⟩ := Option.map_eq_some_iff.mp heq.2
    rw [Prod.mk.injEq] at hs
    refine ⟨w, hw, of_decide_eq_true heq.1, x, hx, ?_, ?_, hs.1⟩
    · simp [Execution.terminal, hs.1]
    · simp [CanProgress, hs.1, hs.2]

/-- The first attempt is leased and no call is in flight: the sweep will find it. -/
theorem no_stranded_first_attempt :
    ∃ w, (coordinator .default).Reach (progressGuard .default) (State.init .default) w ∧
      Quiescent w ∧ ∃ x, w.shared.store.find? "acme/p/w" = some x ∧ x.terminal = false ∧
        CanProgress w.shared.store "acme/p/w" x := by
  have hrun : ((coordinator .default).execWithin (progressGuard .default)
      ⟨State.init .default, []⟩ (firstAttempt 3)).map
      (fun w => (decide (Quiescent w), (w.shared.store.find? "acme/p/w").map
        Execution.terminal)) = some (true, some false) := by
    decide +kernel
  obtain ⟨w, hreach, heq⟩ := Program.exists_reach_within hrun
  rw [Prod.mk.injEq] at heq
  obtain ⟨x, hx, hlive⟩ := Option.map_eq_some_iff.mp heq.2
  have hquiet : Quiescent w := of_decide_eq_true heq.1
  exact ⟨w, hreach, hquiet, x, hx, hlive,
    no_stranded_execution .default hreach hquiet hx hlive⟩

end AgentBus.Workflow
