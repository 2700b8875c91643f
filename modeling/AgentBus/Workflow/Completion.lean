import AgentBus.Workflow.Steps

/-!
# Completing an execution once

`Complete` fences the execution with `BeginComplete`, publishes wf.completed and folds it,
and then answers "accepted" whatever the fold said.  The fence keeps a second `Complete`
and a later sweep out, but not a sweep or a `Fail` that has read the execution before:
its wf.dead, or its wf.retry followed by a new lease, makes the fold refuse the
completion that was promised.

This module proves the promise for every run in which no wf.leased and no wf.dead is
folded into a fenced execution, and exhibits a run that breaks it otherwise.

## Main definitions

* `Thread.fence`, `Thread.accepted` — the completion a call has fenced, or won.
* `completionGuard` — the steps under which the promise holds.
* `complete_exactly_once` — the promise.
* `complete_accepted_after_dead` — a run in which it fails.
-/

namespace AgentBus.Workflow

open AgentStream Pool

/-- The completion whose fence a call holds. -/
def Thread.fence : Thread → Option CompleteCall
  | .preparing (.complete a) => some a
  | .publishing (.complete a) _ => some a
  | .folding (.complete a) _ => some a
  | .aborting a => some a
  | _ => none

/-- The completion a call has been told is accepted. -/
def Thread.accepted : Thread → Option CompleteCall
  | .done (.complete a) (.complete true _ _) => some a
  | _ => none

/-- No wf.leased and no wf.dead is folded into a fenced execution.  The poller is not part
of the calls. -/
def completionGuard (c : Config) : Guard State Thread Choice EnvStep where
  thread s t _ := ∀ e ∈ t.folding? c, ∀ x ∈ s.store.find? e.key, x.completing = true →
    (x.apply e).isSome = true → eventType e ≠ some .leased ∧ eventType e ≠ some .dead
  env _ e := e ≠ .poll

instance (c : Config) (s : State) (t : Thread) (l : Choice) :
    Decidable ((completionGuard c).thread s t l) :=
  inferInstanceAs (Decidable (∀ e ∈ t.folding? c, ∀ x ∈ s.store.find? e.key, x.completing = true →
    (x.apply e).isSome = true → eventType e ≠ some .leased ∧ eventType e ≠ some .dead))

instance (c : Config) (s : State) (e : EnvStep) : Decidable ((completionGuard c).env s e) :=
  inferInstanceAs (Decidable (e ≠ .poll))

/-! ## The invariant -/

/-- A fence protects the current attempt of a live execution. -/
def Fenced (s : State) (a : CompleteCall) : Prop :=
  ∃ x, s.store.find? a.key = some x ∧ x.completing = true ∧ x.attempt = a.attempt ∧
    a.attempt ≠ 0 ∧ x.terminal = false

/-- The execution is completed with the result of the call. -/
def Completed (s : State) (a : CompleteCall) : Prop :=
  ∃ x, s.store.find? a.key = some x ∧ x.status = .completed ∧ x.result = a.result

/-- What a call relies on. -/
structure CompletionLocal (s : State) (t : Thread) : Prop where
  fenced : ∀ a, t.fence = some a → Fenced s a
  completed : ∀ a, t.accepted = some a → Completed s a

/-- Two calls never hold, or win, the same execution. -/
structure CompletionPair (t u : Thread) : Prop where
  fenced : ∀ a b, t.fence = some a → u.fence = some b → a.key ≠ b.key
  completed : ∀ a b, t.accepted = some a → u.accepted = some b → a.key ≠ b.key

theorem CompletionPair.symm {t u : Thread} (h : CompletionPair t u) : CompletionPair u t :=
  ⟨fun a b ha hb => (h.fenced b a hb ha).symm, fun a b ha hb => (h.completed b a hb ha).symm⟩

theorem Completed.terminal {s : State} {a : CompleteCall} {x : Execution} (h : Completed s a)
    (hx : s.store.find? a.key = some x) : x.terminal = true := by
  obtain ⟨y, hy, hs, -⟩ := h
  rw [hx] at hy
  cases hy
  simp [Execution.terminal, hs]

section Steps

variable {c : Config} {s s' : State} {t t' u : Thread} {l : Choice}

/-- A fence survives the steps of the other calls. -/
theorem Fenced.step (hret : s.store.retainTerminal ≤ 0) (h : Steps c s t l s' t')
    (hg : (completionGuard c).thread s t l) {b : CompleteCall} (hb : Fenced s b)
    (hother : ∀ a, t.fence = some a → a.key ≠ b.key) : Fenced s' b := by
  obtain ⟨x, hx, hcomp, hatt, hne, hlive⟩ := hb
  have hchange := h.findChange b.key
  generalize hfind : s'.store.find? b.key = o at hchange
  cases hchange with
  | same => exact ⟨x, hfind.trans hx, hcomp, hatt, hne, hlive⟩
  | evicted retained => omega
  | reserved b' y thread next present pending free =>
    rw [hx] at present
    cases present
    exact ⟨_, hfind, hcomp, hatt, hne, hlive⟩
  | unreserved b' y z thread key present ref =>
    rw [hx] at present
    cases present
    exact ⟨_, hfind, hcomp, hatt, hne, hlive⟩
  | fenced a y thread next key present live current leased free =>
    rw [hx] at present
    cases present
    rw [hcomp] at free
    cases free
  | released a y thread key present =>
    subst thread
    exact absurd key.symm (hother a rfl)
  | created f stamp nx thread next key type absent valid =>
    rw [hx] at absent
    cases absent
  | folded f stamp y x' thread next key present folds =>
    rw [hx] at present
    cases present
    subst thread
    have hguard := hg _ rfl x (by rw [Frame.key_event, ← key]; exact hx) hcomp
      (by rw [Execution.apply_eq_some_iff.mpr folds]; rfl)
    cases folds with
    | leased p ty payload status attempt => exact absurd ty hguard.1
    | heartbeat p ty payload status attempt worker =>
      exact ⟨_, hfind, hcomp, hatt, hne, hlive⟩
    | completed p ty payload live attempt leased =>
      obtain ⟨a, rfl⟩ := Frame.eq_complete_of_type (f := f) (by simpa using ty)
      exact absurd key.symm (hother a rfl)
    | failed p ty payload status attempt =>
      exact ⟨_, hfind, hcomp, hatt, hne, by simp [Execution.fail, Execution.record,
        Execution.terminal]⟩
    | retry p ty payload status =>
      exact ⟨_, hfind, hcomp, hatt, hne, by simp [Execution.requeue, Execution.record,
        Execution.terminal]⟩
    | dead p ty payload live => exact absurd ty hguard.2

/-- A completed execution stays so. -/
theorem Completed.step (hret : s.store.retainTerminal ≤ 0) (h : Steps c s t l s' t')
    {b : CompleteCall} (hb : Completed s b) : Completed s' b := by
  obtain ⟨x, hx, hstatus, hresult⟩ := id hb
  have hchange := h.findChange b.key
  generalize hfind : s'.store.find? b.key = o at hchange
  cases hchange with
  | same => exact ⟨x, hfind.trans hx, hstatus, hresult⟩
  | evicted retained => omega
  | reserved b' y thread next present pending free =>
    rw [hx] at present
    cases present
    rw [hstatus] at pending
    cases pending
  | unreserved b' y z thread key present ref =>
    rw [hx] at present
    cases present
    exact ⟨_, hfind, hstatus, hresult⟩
  | fenced a y thread next key present live current leased free =>
    have hterm := hb.terminal present
    rw [live] at hterm
    cases hterm
  | released a y thread key present =>
    rw [hx] at present
    cases present
    exact ⟨_, hfind, hstatus, hresult⟩
  | created f stamp nx thread next key type absent valid =>
    rw [hx] at absent
    cases absent
  | folded f stamp y x' thread next key present folds =>
    have hterm := hb.terminal present
    rw [folds.live] at hterm
    cases hterm

/-- The step that folds the completion of a fenced execution completes it. -/
theorem Fenced.fold (hret : s.store.retainTerminal ≤ 0) {a : CompleteCall} (ha : Fenced s a)
    (stamp : Time) :
    Completed { s with store := (s.store.apply ((Frame.complete a).event c stamp)).1 } a := by
  obtain ⟨x, hx, hcomp, hatt, hne, hlive⟩ := ha
  have hfolds : Execution.Folds x ((Frame.complete a).event c stamp)
      (x.complete ((Frame.complete a).event c stamp) ⟨a.workerID, a.result⟩) :=
    .completed _ (by simp [Frame.type]) (CompletePayload.unmarshal_marshal ⟨a.workerID, a.result⟩)
      hlive hatt.symm hne
  refine ⟨x.complete ((Frame.complete a).event c stamp) ⟨a.workerID, a.result⟩, ?_, rfl, rfl⟩
  simp [Store.find?_apply hret, Frame.key, hx, foldKey, Execution.apply_eq_some_iff.mpr hfolds]

/-- A step that leaves the state alone takes no fence and wins nothing. -/
theorem Quiet.completion (h : Quiet c s t l t') :
    (∀ a, t'.fence = some a → t.fence = some a) ∧ t'.accepted = none := by
  cases h with
  | heartbeat a =>
    refine heartbeatStart_ind s a ?_ ?_ <;> intros <;> simp [Thread.fence, Thread.accepted]
  | fail a =>
    refine failStart_ind s a ?_ ?_ <;> intros <;> simp [Thread.fence, Thread.accepted]
  | stamp f => cases f <;> simp [Thread.fence, Thread.accepted]
  | error f stamp => cases f <;> simp [Frame.onError, Thread.fence, Thread.accepted]
  | _ => simp [Thread.fence, Thread.accepted]

theorem CompletionLocal.of_none (hf : t.fence = none) (ha : t.accepted = none) :
    CompletionLocal s t :=
  ⟨by simp [hf], by simp [ha]⟩

theorem CompletionPair.of_none (hf : t.fence = none) (ha : t.accepted = none) :
    CompletionPair t u :=
  ⟨by simp [hf], by simp [ha]⟩

/-- What the moving call relies on afterwards, and that it stays apart from the others. -/
theorem Steps.completion_self (hret : s.store.retainTerminal ≤ 0) (h : Steps c s t l s' t')
    (ht : CompletionLocal s t) :
    CompletionLocal s' t' ∧
      ∀ u, CompletionLocal s u → CompletionPair t u → CompletionPair t' u := by
  have hnone : t'.fence = none → t'.accepted = none → CompletionLocal s' t' ∧
      ∀ u, CompletionLocal s u → CompletionPair t u → CompletionPair t' u :=
    fun hf ha => ⟨.of_none hf ha, fun _ _ _ => .of_none hf ha⟩
  cases h with
  | quiet t t' l h =>
    obtain ⟨hfence, hacc⟩ := h.completion
    refine ⟨⟨fun a ha => ht.fenced a (hfence a ha), by simp [hacc]⟩, fun u _ hR => ⟨?_, ?_⟩⟩
    · intro a b ha hb
      exact hR.fenced a b (hfence a ha) hb
    · simp [hacc]
  | begin a r h =>
    cases h with
    | refused duplicate => exact hnone rfl rfl
    | fenced x present live current leased free =>
      refine ⟨⟨?_, by simp [Thread.accepted]⟩, fun u hu _ => ⟨?_, by simp [Thread.accepted]⟩⟩
      · rintro a' h'
        cases h'
        exact ⟨_, Store.find?_put_self _ _ _, rfl, current, leased, live⟩
      · -- Nobody else holds the fence: it was down.
        rintro a' b h' hb hkey
        cases h'
        obtain ⟨y, hy, hcomp, -⟩ := hu.fenced b hb
        rw [← hkey, present] at hy
        cases hy
        rw [free] at hcomp
        cases hcomp
  | reserve b r h =>
    rcases b.onReserve_cases r.2 with ⟨x, -, heq⟩ | heq | heq <;>
      exact hnone (by rw [heq]; rfl) (by rw [heq]; rfl)
  | wait b => exact hnone rfl rfl
  | publish f stamp valid =>
    have hfence : ∀ a, (Thread.folding f stamp).fence = some a →
        (Thread.publishing f stamp).fence = some a := by
      cases f <;> simp [Thread.fence]
    refine ⟨⟨fun a ha => ht.fenced a (hfence a ha), by simp [Thread.accepted]⟩, fun u _ hR =>
      ⟨fun a b ha hb => hR.fenced a b (hfence a ha) hb, by simp [Thread.accepted]⟩⟩
  | fold f stamp =>
    cases f with
    | complete a =>
      have hfenced := ht.fenced a rfl
      refine ⟨⟨by simp [Frame.onFolded, Thread.fence], ?_⟩, fun u hu _ =>
        ⟨by simp [Frame.onFolded, Thread.fence], ?_⟩⟩
      · rintro a' h'
        cases h'
        exact hfenced.fold hret stamp
      · -- Nobody else has won: a completed execution is not fenced.
        rintro a' b h' hb hkey
        cases h'
        obtain ⟨x, hx, -, -, -, hlive⟩ := hfenced
        have hterm := (hu.completed b hb).terminal (hkey ▸ hx)
        rw [hlive] at hterm
        cases hterm
    | _ => exact hnone rfl rfl
  | unreserve b x => exact hnone rfl rfl
  | abort a => exact hnone rfl rfl
  | expire now order perm => exact hnone rfl rfl

end Steps

/-- The invariant holds in every guarded run. -/
theorem completion_holds {c : Config} (hc : c.retainTerminal ≤ 0) {w : World State Thread}
    (h : (coordinator c).Reach (completionGuard c) (State.init c) w) :
    Holds (fun s => s.store.retainTerminal ≤ 0) CompletionLocal CompletionPair w := by
  refine Program.Reach.local_invariant (I := fun s : State => s.store.retainTerminal ≤ 0)
    (fun _ _ => CompletionPair.symm) hc ?_ ?_ ?_ h
  · intro s r _
    exact ⟨.of_none rfl rfl, fun u _ => .of_none rfl rfl⟩
  · intro s t l s' t' hret ht hg hstep
    have hsteps := coordinator_steps hstep
    obtain ⟨hself, hpair⟩ := hsteps.completion_self hret ht
    refine ⟨⟨by rw [hsteps.retainTerminal]; exact hret, hself⟩, ?_⟩
    intro u hu hR
    refine ⟨⟨?_, ?_⟩, hpair u hu hR⟩
    · intro b hb
      exact (hu.fenced b hb).step hret hsteps hg fun a ha => hR.fenced a b ha hb
    · intro b hb
      exact (hu.completed b hb).step hret hsteps
  · intro s e s' hret hg hstep
    obtain ⟨now, -, rfl⟩ := (environment_spec hstep).tick_of_ne hg
    exact ⟨hret, fun u hu => ⟨hu.fenced, hu.completed⟩⟩

/-- **Exactly-once completion.**  In every run in which no wf.leased and no wf.dead is folded
into a fenced execution, the execution of a completion that was answered "accepted" is
completed with the result of that call, and no other call is answered "accepted". -/
theorem complete_exactly_once (c : Config) (hc : c.retainTerminal ≤ 0) {w : World State Thread}
    (h : (coordinator c).Reach (completionGuard c) (State.init c) w) {i : ℕ} {a : CompleteCall}
    {duplicate : Bool} {err : Option CallError}
    (hi : w.threads[i]? = some (.done (.complete a) (.complete true duplicate err))) :
    (∃ x, w.shared.store.find? a.key = some x ∧ x.status = .completed ∧ x.result = a.result) ∧
      ∀ (j : ℕ) (b : CompleteCall) (duplicate' : Bool) (err' : Option CallError), j ≠ i →
        w.threads[j]? = some (.done (.complete b) (.complete true duplicate' err')) →
        b.key ≠ a.key := by
  have hinv := completion_holds hc h
  refine ⟨(hinv.each i _ hi).completed a rfl, ?_⟩
  intro j b duplicate' err' hne hj
  exact (hinv.pair j i _ _ hne hj hi).completed b a rfl rfl

/-! ## A lost completion -/

/-- The first attempt of a task succeeds. -/
def buildComplete : CompleteCall := ⟨firstHolder, [1]⟩

/-- It is also reported as failed for good. -/
def buildFail : FailCall := ⟨firstHolder, "boom", false⟩

/-- `Complete` takes the fence, `Fail` runs to its end, and `Complete` goes on. -/
def lostCompletion : List (Act Request Choice EnvStep) :=
  firstAttempt 3 ++ arrive 2 1 (.complete buildComplete) ++ arrive 3 7 (.fail buildFail) ++ goOn 2 3

/-- `Complete` runs alone. -/
def plainCompletion : List (Act Request Choice EnvStep) :=
  firstAttempt 3 ++ arrive 2 4 (.complete buildComplete)

/-- A wf.dead folded under the fence: the completion is answered "accepted" and the
execution has failed. -/
theorem complete_accepted_after_dead :
    ∃ w, (coordinator .default).Reach Guard.all (State.init .default) w ∧
      w.threads[2]? = some (.done (.complete buildComplete) (.complete true false none)) ∧
      (w.shared.store.find? buildComplete.key).map Execution.status = some .failed := by
  have hrun : ((coordinator .default).exec ⟨State.init .default, []⟩ lostCompletion).map
      (fun w => (w.threads[2]?, (w.shared.store.find? buildComplete.key).map Execution.status)) =
        some (some (.done (.complete buildComplete) (.complete true false none)),
          some .failed) := by
    decide +kernel
  obtain ⟨w, hw, heq⟩ := Program.exists_reach hrun
  rw [Prod.mk.injEq] at heq
  exact ⟨w, hw, heq.1, heq.2⟩

/-- A completion in a guarded run. -/
theorem complete_exactly_once_plain :
    ∃ w, (coordinator .default).Reach (completionGuard .default) (State.init .default) w ∧
      w.threads[2]? = some (.done (.complete buildComplete) (.complete true false none)) ∧
      ∃ x, w.shared.store.find? buildComplete.key = some x ∧ x.status = .completed ∧
        x.result = [1] := by
  have hrun : ((coordinator .default).execWithin (completionGuard .default)
      ⟨State.init .default, []⟩ plainCompletion).map (fun w => w.threads[2]?) =
        some (some (.done (.complete buildComplete) (.complete true false none))) := by
    decide +kernel
  obtain ⟨w, hreach, heq⟩ := Program.exists_reach_within hrun
  exact ⟨w, hreach, heq, (complete_exactly_once .default (by decide) hreach heq).1⟩

end AgentBus.Workflow
