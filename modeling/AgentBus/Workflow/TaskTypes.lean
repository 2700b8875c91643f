import AgentBus.Workflow.Indexes
import AgentBus.Workflow.Steps

/-!
# Leases of the right task type

`ReserveNext` takes a key from the queue of a task type and looks up the execution under it; it
does not compare the types.  A key stays in a queue after its execution has ended there, and once
the execution is evicted the key can be submitted again with another type.  The entry that was left
behind then hands the new execution to workers of the old type (`leased_other_type`).

Entries are left behind in no other way.  A queue holds keys of executions of its type, tracked or
retired (`Store.Typed`), as long as no submit gives a key that is still queued another type.

## Main definitions

* `RetypeFree`, `retypeGuard` — the steps under which leases have the right type.
* `Store.Retires`, `Store.Typed` — what an eviction leaves behind, and what the queues hold.
* `Thread.grants` — the executions a call has been given, with the type it asked for.
-/

namespace AgentBus.Workflow

open AgentStream Pool

/-- A submit that starts an execution gives it the type of the queue in which a retired one has left
its key. -/
def RetypeFree (m : Store) (e : Event) : Prop :=
  ∀ nx ∈ newExecution m.refs e, eventType e = some .submitted → m.find? e.key = none →
    ∀ y ∈ m.retired, y.key = e.key → e.key ∈ m.queues y.taskType → y.taskType = nx.taskType

instance (m : Store) (e : Event) : Decidable (RetypeFree m e) :=
  inferInstanceAs (Decidable (∀ nx ∈ newExecution m.refs e, eventType e = some .submitted →
    m.find? e.key = none → ∀ y ∈ m.retired, y.key = e.key → e.key ∈ m.queues y.taskType →
      y.taskType = nx.taskType))

/-- No call and no delivery of the poller gives a key that is still queued another type. -/
def retypeGuard (c : Config) : Guard State Thread Choice EnvStep where
  thread s t _ := ∀ e ∈ t.folding? c, RetypeFree s.store e
  env s e := e = .poll → ∀ p ∈ s.poller.inbox.head?, RetypeFree s.store p.1

instance (c : Config) (s : State) (t : Thread) (l : Choice) :
    Decidable ((retypeGuard c).thread s t l) :=
  inferInstanceAs (Decidable (∀ e ∈ t.folding? c, RetypeFree s.store e))

instance (c : Config) (s : State) (e : EnvStep) : Decidable ((retypeGuard c).env s e) :=
  inferInstanceAs (Decidable (e = .poll → ∀ p ∈ s.poller.inbox.head?, RetypeFree s.store p.1))

namespace Store

/-! ## What an eviction leaves behind -/

/-- Executions that leave the store are kept among the retired ones. -/
structure Retires (s s' : Store) : Prop where
  mono : ∀ y ∈ s.retired, y ∈ s'.retired
  lost : ∀ k y, s.find? k = some y → s'.find? k = none → y ∈ s'.retired

variable {s : Store}

theorem Retires.of_eq {s' : Store} (hexecs : s'.execs = s.execs)
    (hretired : s'.retired = s.retired) : Retires s s' := by
  refine ⟨fun y hy => hretired ▸ hy, ?_⟩
  intro k y hy hnone
  rw [find?, hexecs] at hnone
  rw [find?, hnone] at hy
  cases hy

theorem retires_evictLoop (retain : ℤ) (q : List String) (s : Store) :
    Retires s (evictLoop retain q s) := by
  fun_induction evictLoop retain q s with
  | case1 s => exact .of_eq rfl rfl
  | case2 k q s hlt x hx ht ih =>
    refine ⟨fun y hy => ih.mono y (List.mem_cons_of_mem _ hy), ?_⟩
    intro k' y hy hnone
    by_cases hk : k' = k
    · subst hk
      rw [hx] at hy
      cases hy
      exact ih.mono x List.mem_cons_self
    · refine ih.lost k' y ?_ hnone
      exact (find?_erase s k k').trans ((if_neg hk).trans hy)
  | case3 k q s hlt x hx ht ih => exact ih
  | case4 k q s hlt hx ih => exact ih
  | case5 k q s hlt => exact .of_eq rfl rfl

theorem retires_reindex (s : Store) (k : String) (prev : Status) (x : Execution) :
    Retires s (s.reindex k prev x) := by
  unfold reindex retire evictTerminal
  split
  · exact .of_eq rfl rfl
  · split
    · split
      · exact .of_eq rfl rfl
      · obtain ⟨mono, lost⟩ := retires_evictLoop
          ((s.recount prev x.status).moveRunning k prev x.status).retainTerminal
          (((s.recount prev x.status).moveRunning k prev x.status).terminalQ ++ [k])
          { (s.recount prev x.status).moveRunning k prev x.status with
            terminalQ := ((s.recount prev x.status).moveRunning k prev x.status).terminalQ ++ [k] }
        exact ⟨mono, lost⟩
    · exact .of_eq rfl rfl

@[simp] theorem retired_reconcileQueue (s : Store) (k : String) (x : Execution) :
    (s.reconcileQueue k x).retired = s.retired := by
  unfold reconcileQueue
  split <;> rfl

theorem mem_queues_reconcileQueue {k k' ty : String} {x : Execution}
    (h : k' ∈ (s.reconcileQueue k x).queues ty) :
    k' ∈ s.queues ty ∨ (k' = k ∧ ty = x.taskType) := by
  unfold reconcileQueue at h
  split at h
  · by_cases hty : ty = x.taskType
    · subst hty
      simp only [Function.update_self, List.mem_append, List.mem_singleton] at h
      exact h.imp id fun hk => ⟨hk, rfl⟩
    · dsimp only at h
      rw [Function.update_of_ne hty] at h
      exact .inl h
  · exact .inl h

/-! ## What the queues hold -/

/-- The queue of a type holds keys of executions of that type, tracked or retired. -/
structure Typed (m : Store) : Prop where
  keyed : ∀ k x, m.find? k = some x → x.key = k
  tracked : ∀ ty k x, k ∈ m.queues ty → m.find? k = some x → x.taskType = ty
  retired : ∀ ty k, k ∈ m.queues ty → m.find? k = none →
    ∃ y ∈ m.retired, y.key = k ∧ y.taskType = ty

theorem typed_empty (retain : ℤ) : (empty retain).Typed := by
  constructor <;> simp [empty, find?]

/-- An execution was written under `k`, some were retired, and `k` was queued or not. -/
theorem Typed.updates {m : Store} {k : String} {nx : Execution} (h : s.Typed)
    (hretires : Retires (s.put k nx) m)
    (hfind : ∀ k' y, m.find? k' = some y → (s.put k nx).find? k' = some y)
    (hqueues : m.queues = s.queues) (hkey : nx.key = k)
    (htype : ∀ ty, k ∈ s.queues ty → nx.taskType = ty) : (m.reconcileQueue k nx).Typed := by
  -- An entry was there before, or is the new one; either way its execution has the type.
  have hentry : ∀ ty k', k' ∈ (m.reconcileQueue k nx).queues ty →
      (k' = k ∧ nx.taskType = ty) ∨ (k' ≠ k ∧ k' ∈ s.queues ty) := by
    intro ty k' hk'
    by_cases hk : k' = k
    · subst hk
      refine .inl ⟨rfl, ?_⟩
      rcases mem_queues_reconcileQueue hk' with hold | ⟨-, hty⟩
      · exact htype ty (hqueues ▸ hold)
      · exact hty.symm
    · refine .inr ⟨hk, ?_⟩
      rcases mem_queues_reconcileQueue hk' with hold | ⟨heq, -⟩
      · exact hqueues ▸ hold
      · exact absurd heq hk
  have hput : ∀ k' y, (s.put k nx).find? k' = some y →
      (k' = k ∧ y = nx) ∨ (k' ≠ k ∧ s.find? k' = some y) := by
    intro k' y hy
    rw [find?_put] at hy
    split at hy
    · rename_i hk
      cases hy
      exact .inl ⟨hk, rfl⟩
    · rename_i hk
      exact .inr ⟨hk, hy⟩
  constructor
  · intro k' y hy
    rw [find?_reconcileQueue] at hy
    rcases hput k' y (hfind k' y hy) with ⟨rfl, rfl⟩ | ⟨-, hold⟩
    · exact hkey
    · exact h.keyed k' y hold
  · intro ty k' y hk' hy
    rw [find?_reconcileQueue] at hy
    rcases hput k' y (hfind k' y hy) with ⟨rfl, rfl⟩ | ⟨hne, hold⟩
    · exact ((hentry ty k' hk').resolve_right fun hn => hn.1 rfl).2
    · exact h.tracked ty k' y ((hentry ty k' hk').resolve_left fun hn => hne hn.1).2 hold
  · intro ty k' hk' hnone
    rw [find?_reconcileQueue] at hnone
    rw [retired_reconcileQueue]
    rcases hentry ty k' hk' with ⟨rfl, hty⟩ | ⟨hne, hold⟩
    · exact ⟨nx, hretires.lost k' nx (find?_put_self ..) hnone, hkey, hty⟩
    · cases hy : s.find? k' with
      | none =>
        obtain ⟨y, hmem, hrest⟩ := h.retired ty k' hold hy
        exact ⟨y, hretires.mono y hmem, hrest⟩
      | some y =>
        refine ⟨y, hretires.lost k' y ?_ hnone, h.keyed k' y hy, h.tracked ty k' y hold hy⟩
        rw [find?_put, if_neg hne, hy]

/-- **`Apply` keeps the types**, when it gives no queued key another type. -/
theorem Typed.apply (h : s.Typed) {e : Event} (hfree : RetypeFree s e) : (s.apply e).1.Typed := by
  have hs := apply_spec s e
  generalize s.apply e = r at hs
  cases hs with
  | ignored refused unusable => exact h
  | tracked nx ty absent valid =>
    refine h.updates (s := s) (k := e.key) ⟨fun _ hy => hy, ?_⟩ (fun _ _ hy => hy) rfl
      (newExecution_spec valid).1 ?_
    · intro k y hy hnone
      have heq : (s.put e.key nx).find? k = none := hnone
      rw [heq] at hy
      cases hy
    · intro ty' hk
      obtain ⟨y, hmem, hkey, hty⟩ := h.retired ty' e.key hk absent
      rw [← hty]
      exact (hfree nx valid ty absent y hmem hkey (hty ▸ hk)).symm
  | folded x x' present changed =>
    have hwork := sameWork_of_folds (Execution.apply_eq_some_iff.mp changed)
    obtain ⟨gone, hev, -⟩ := reindex_spec (s.put e.key x') e.key x.status x'
    refine h.updates (retires_reindex ..) ?_ hev.queues
      (hwork.key.trans (h.keyed _ x present)) ?_
    · intro k y hy
      rw [hev.find?] at hy
      split at hy
      · cases hy
      · exact hy
    · intro ty hk
      rw [hwork.taskType]
      exact h.tracked ty e.key x hk present

/-- The other methods write flags, retire nothing and queue executions by their type. -/
theorem Typed.same {s' : Store} (h : s.Typed)
    (hfind : ∀ k, (s'.find? k).map Execution.unflagged = (s.find? k).map Execution.unflagged)
    (hretired : s'.retired = s.retired)
    (hqueues : ∀ ty k, k ∈ s'.queues ty →
      k ∈ s.queues ty ∨ ∃ x, s.find? k = some x ∧ x.taskType = ty) : s'.Typed := by
  have hold : ∀ k x', s'.find? k = some x' →
      ∃ x, s.find? k = some x ∧ x'.key = x.key ∧ x'.taskType = x.taskType := by
    intro k x' hx'
    have heq := hfind k
    rw [hx'] at heq
    obtain ⟨x, hx, hxx'⟩ := Option.map_eq_some_iff.mp heq.symm
    exact ⟨x, hx, (congrArg Execution.key hxx').symm, (congrArg Execution.taskType hxx').symm⟩
  constructor
  · intro k x' hx'
    obtain ⟨x, hx, hkey, -⟩ := hold k x' hx'
    exact hkey.trans (h.keyed k x hx)
  · intro ty k x' hk hx'
    obtain ⟨x, hx, -, hty⟩ := hold k x' hx'
    rw [hty]
    rcases hqueues ty k hk with hmem | ⟨y, hy, hyty⟩
    · exact h.tracked ty k x hmem hx
    · rw [hx] at hy
      cases hy
      exact hyty
  · intro ty k hk hnone
    have hnone' : s.find? k = none := by
      have heq := hfind k
      rw [hnone] at heq
      exact Option.map_eq_none_iff.mp heq.symm
    rw [hretired]
    rcases hqueues ty k hk with hmem | ⟨y, hy, -⟩
    · exact h.retired ty k hmem hnone'
    · rw [hnone'] at hy
      cases hy

end Store

variable {c : Config} {s s' : State} {t t' : Thread} {l : Choice}

/-- A step that folds nothing retires nothing and queues executions by their type. -/
theorem Steps.queues_cases (h : Steps c s t l s' t') (ht : t.folding? c = none) :
    s'.store.retired = s.store.retired ∧ ∀ ty k, k ∈ s'.store.queues ty →
      k ∈ s.store.queues ty ∨ ∃ x, s.store.find? k = some x ∧ x.taskType = ty := by
  cases h with
  | begin a r h =>
    cases h <;> exact ⟨rfl, fun ty k hk => .inl hk⟩
  | reserve b r h =>
    cases h with
    | nothing stale =>
      refine ⟨rfl, fun ty k hk => .inl ?_⟩
      by_cases hty : ty = b.call.taskType
      · simp [hty] at hk
      · simpa [Function.update_of_ne hty] using hk
    | found pre rest k' x split stale present pending free =>
      refine ⟨rfl, fun ty k hk => .inl ?_⟩
      by_cases hty : ty = b.call.taskType
      · subst hty
        rw [split]
        simp only [Store.put, Function.update_self] at hk
        simp [hk]
      · simpa [Store.put, Function.update_of_ne hty] using hk
  | wait b =>
    dsimp only
    unfold Store.waitChan
    split <;> exact ⟨rfl, fun ty k hk => .inl hk⟩
  | fold f stamp => cases ht
  | unreserve b x =>
    have hspec := Store.unreserve_spec s.store x
    dsimp only
    generalize s.store.unreserve x = m at hspec
    cases hspec with
    | ignored => exact ⟨rfl, fun ty k hk => .inl hk⟩
    | freed y present ref parked => exact ⟨rfl, fun ty k hk => .inl hk⟩
    | requeued y present ref pending =>
      refine ⟨rfl, fun ty k hk => ?_⟩
      by_cases hty : ty = y.taskType
      · subst hty
        simp only [Function.update_self, List.mem_cons] at hk
        rcases hk with rfl | hk
        · exact .inr ⟨y, present, rfl⟩
        · exact .inl hk
      · exact .inl (by simpa [Function.update_of_ne hty] using hk)
  | abort a =>
    simp only [Store.abortComplete]
    split <;> exact ⟨rfl, fun ty k hk => .inl hk⟩
  | _ => exact ⟨rfl, fun ty k hk => .inl hk⟩

theorem Store.Typed.thread (h : s.store.Typed) (hg : (retypeGuard c).thread s t l)
    (hstep : Steps c s t l s' t') : s'.store.Typed := by
  cases hfold : t.folding? c with
  | none =>
    obtain ⟨hretired, hqueues⟩ := hstep.queues_cases hfold
    exact h.same (hstep.unflagged_find? hfold) hretired hqueues
  | some e =>
    cases hstep with
    | fold f stamp =>
      cases hfold
      exact h.apply (hg _ rfl)
    | quiet t t' l hq => cases hq <;> cases hfold
    | _ => cases hfold

/-! ## What a call has been given -/

/-- An execution that a call was given: the type it asked for, the key and the type it got. -/
structure Grant where
  asked : String
  key : String
  taskType : String

namespace Batch

/-- The leases a call has collected. -/
def grants (b : Batch) : List Grant :=
  b.out.map fun l => ⟨b.call.taskType, sessionKey l.tenant l.project l.workflowID, l.taskType⟩

/-- And the execution it is about to lease. -/
def grantsWith (b : Batch) (x : Execution) : List Grant :=
  b.grants ++ [⟨b.call.taskType, x.key, x.taskType⟩]

end Batch

def Frame.grants : Frame → List Grant
  | .grant b x _ => b.grantsWith x
  | _ => []

/-- The executions a call has been given. -/
def Thread.grants : Thread → List Grant
  | .leasing b => b.grants
  | .idle b => b.grants
  | .waiting b _ => b.grants
  | .granting b x => b.grantsWith x
  | .preparing f => f.grants
  | .publishing f _ => f.grants
  | .folding f _ => f.grants
  | .granted b x _ => b.grantsWith x
  | .unreserving b x => b.grantsWith x
  | .done (.leaseBatch call) (.leaseBatch leases _) =>
    leases.map fun l => ⟨call.taskType, sessionKey l.tenant l.project l.workflowID, l.taskType⟩
  | _ => []

theorem Quiet.grants (h : Quiet c s t l t') {g : Grant} (hg : g ∈ t'.grants) : g ∈ t.grants := by
  cases h with
  | heartbeat a =>
    revert hg
    exact heartbeatStart_ind s a (fun _ => nofun) fun _ _ => nofun
  | fail a =>
    revert hg
    exact failStart_ind s a (fun _ => nofun) fun _ _ => nofun
  | full b => exact hg
  | woken b ch closed => exact hg
  | read b x => exact hg
  | stamp f => exact hg
  | error f stamp => cases f <;> exact hg
  | granted b x attempt =>
    -- The lease shows the key and the type of the execution.
    simpa [Thread.grants, Batch.grantsWith, Batch.grants, newLease, Execution.key] using hg
  | reclaim x rest n => cases hg
  | _ => cases hg

/-- **A call is given executions by `ReserveNext` alone.** -/
theorem Steps.grants (h : Steps c s t l s' t') {g : Grant} (hg : g ∈ t'.grants) :
    g ∈ t.grants ∨ ∃ b k x, t = .leasing b ∧ k ∈ s.store.queues b.call.taskType ∧
      s.store.find? k = some x ∧ g = ⟨b.call.taskType, x.key, x.taskType⟩ := by
  cases h with
  | quiet t t' l h => exact .inl (h.grants hg)
  | begin a r h => split at hg <;> cases hg
  | reserve b r h =>
    cases h with
    | nothing stale =>
      refine .inl ?_
      dsimp only [Batch.onReserve] at hg
      split at hg <;> exact hg
    | found pre rest k x split stale present pending free =>
      rcases List.mem_append.mp hg with hold | hnew
      · exact .inl hold
      · refine .inr ⟨b, k, x, rfl, ?_, present, List.mem_singleton.mp hnew⟩
        rw [split]
        simp
  | wait b => exact .inl hg
  | publish f stamp valid => exact .inl hg
  | fold f stamp => cases f <;> exact .inl hg
  | unreserve b x =>
    split at hg
    · cases hg
    · exact .inl (List.mem_append_left _ hg)
  | abort a => cases hg
  | expire now order perm => cases hg

/-! ## Whole runs -/

/-- A submit in the log gave the key its type. -/
def SubmittedAs (log : List Event) (k ty : String) : Prop :=
  ∃ e ∈ log, eventType e = some .submitted ∧ e.key = k ∧
    (SubmitPayload.unmarshal e.payload).map SubmitPayload.taskType = some ty

theorem SubmittedAs.mono {log log' : List Event} (hlog : log ⊆ log') {k ty : String}
    (h : SubmittedAs log k ty) : SubmittedAs log' k ty := by
  obtain ⟨e, he, hrest⟩ := h
  exact ⟨e, hlog he, hrest⟩

theorem taskType_newExecution {ref : ℕ} {e : Event} {nx : Execution}
    (h : newExecution ref e = some nx) :
    (SubmitPayload.unmarshal e.payload).map SubmitPayload.taskType = some nx.taskType := by
  obtain ⟨p, hp, h⟩ := Option.bind_eq_some_iff.mp h
  split at h <;> cases h
  rw [hp]
  rfl

/-- The queues hold executions of their types, the types come from the log, and so do the events
that the poller is about to fold. -/
structure TypeInv (s : State) : Prop where
  typed : s.store.Typed
  submitted : ∀ k x, s.store.find? k = some x → SubmittedAs s.log k x.taskType
  inbox : ∀ p ∈ s.poller.inbox, p.1 ∈ s.log

/-- A call has been given executions of the type it asked for, and what it is about to fold is in
the log. -/
structure GrantInv (c : Config) (s : State) (t : Thread) : Prop where
  asked : ∀ g ∈ t.grants, g.taskType = g.asked ∧ SubmittedAs s.log g.key g.taskType
  published : ∀ e ∈ t.folding? c, e ∈ s.log

theorem GrantInv.mono (h : GrantInv c s t) (hlog : s.log ⊆ s'.log) : GrantInv c s' t :=
  ⟨fun g hg => ⟨(h.asked g hg).1, (h.asked g hg).2.mono hlog⟩, fun e he => hlog (h.published e he)⟩

theorem GrantInv.thread (hs : TypeInv s) (h : GrantInv c s t) (hstep : Steps c s t l s' t') :
    GrantInv c s' t' := by
  refine ⟨?_, ?_⟩
  · intro g hg
    rcases hstep.grants hg with hold | ⟨b, k, x, -, hk, hx, rfl⟩
    · exact ⟨(h.asked g hold).1, (h.asked g hold).2.mono hstep.log_subset⟩
    · refine ⟨hs.typed.tracked _ k x hk hx, ?_⟩
      dsimp only
      rw [hs.typed.keyed k x hx]
      exact (hs.submitted k x hx).mono hstep.log_subset
  · intro e he
    rcases hstep.log_cases with ⟨-, hnone⟩ | ⟨f, stamp, -, rfl, rfl⟩
    · rw [hnone] at he
      cases he
    · cases he
      exact List.mem_append_right _ (List.mem_singleton.mpr rfl)

theorem TypeInv.thread (h : TypeInv s) (ht : GrantInv c s t) (hg : (retypeGuard c).thread s t l)
    (hstep : Steps c s t l s' t') : TypeInv s' := by
  refine ⟨h.typed.thread hg hstep, ?_, ?_⟩
  · refine hstep.forall_find? (P := fun k x => SubmittedAs s'.log k x.taskType)
      (fun k x r g hx => hx) ?_ ?_ fun k x hx => (h.submitted k x hx).mono hstep.log_subset
    · rintro f stamp ref nx rfl hty hnx
      exact ⟨_, hstep.log_subset (ht.published _ rfl), by simp [hty], by simp,
        taskType_newExecution hnx⟩
    · intro f stamp x x' _ _ hfolds hx
      rw [(Store.sameWork_of_folds hfolds).taskType]
      exact hx
  · rw [hstep.poller]
    exact fun p hp => hstep.log_subset (h.inbox p hp)

theorem TypeInv.environment {e : EnvStep} (h : TypeInv s) (hg : (retypeGuard c).env s e)
    (hstep : Environs c s e s') : TypeInv s' := by
  cases hstep with
  | tick now le => exact ⟨h.typed, h.submitted, h.inbox⟩
  | fetch p inbox => exact ⟨h.typed, h.submitted, inbox⟩
  | deliver e o p inbox =>
    have hlog : e ∈ s.log := h.inbox (e, o) (by simp [inbox])
    refine ⟨h.typed.apply (hg rfl (e, o) (by simp [inbox])), ?_,
      fun q hq => h.inbox q (by simp [inbox, hq])⟩
    intro k x hx
    obtain ⟨o, hwritten, hfind | ⟨-, hnone, -⟩⟩ := Store.find?_apply_cases s.store e k
    · dsimp only at hx
      rw [hfind] at hx
      cases hwritten with
      | same refused => exact h.submitted k x hx
      | created nx key ty absent valid =>
        cases hx
        exact ⟨e, hlog, ty, key.symm, taskType_newExecution valid⟩
      | folded y y' key present folds =>
        cases hx
        rw [(Store.sameWork_of_folds folds).taskType]
        exact h.submitted k y present
    · dsimp only at hx
      rw [hnone] at hx
      cases hx

theorem typeInv_reach {w : World State Thread}
    (h : (coordinator c).Reach (retypeGuard c) (State.init c) w) :
    Holds TypeInv (GrantInv c) (fun _ _ => True) w := by
  refine Program.Reach.local_invariant (fun _ _ _ => trivial) ?_ ?_ ?_ ?_ h
  · refine ⟨Store.typed_empty _, ?_, by simp [State.init]⟩
    intro k x hx
    simp [State.init, Store.empty, Store.find?] at hx
  · intro s r _
    refine ⟨⟨?_, ?_⟩, fun _ _ => trivial⟩
    · intro g hg
      cases hg
    · intro e he
      cases he
  · intro s t l s' t' hs ht hg hstep
    have hsteps := coordinator_steps hstep
    exact ⟨⟨hs.thread ht hg hsteps, ht.thread hs hsteps⟩,
      fun u hu _ => ⟨hu.mono hsteps.log_subset, trivial⟩⟩
  · intro s e s' hs hg hstep
    have henv := environment_spec hstep
    have hlog : s.log ⊆ s'.log := by cases henv <;> exact List.Subset.refl _
    exact ⟨hs.environment hg henv, fun u hu => hu.mono hlog⟩

/-- **Workers get their own task type**, in every run of calls and poller deliveries, under any
retention, in which no submit gives a key that is still queued another type. -/
theorem leases_of_asked_type (c : Config) {w : World State Thread}
    (h : (coordinator c).Reach (retypeGuard c) (State.init c) w) {call : LeaseCall}
    {leases : List Lease} {err : Option CallError}
    (hdone : .done (.leaseBatch call) (.leaseBatch leases err) ∈ w.threads) {l : Lease}
    (hl : l ∈ leases) :
    l.taskType = call.taskType ∧
      ∃ e ∈ w.shared.log, eventType e = some .submitted ∧
        e.key = sessionKey l.tenant l.project l.workflowID ∧
        (SubmitPayload.unmarshal e.payload).map SubmitPayload.taskType = some call.taskType := by
  obtain ⟨htype, hsub⟩ := ((typeInv_reach h).of_mem hdone).asked _ (List.mem_map_of_mem hl)
  dsimp only at htype
  refine ⟨htype, ?_⟩
  rw [← htype]
  exact hsub

/-! ## A lease of another type -/

/-- The first attempt of a build fails and is to be retried, and then completes after all. -/
def lateCompletion : List (Act Request Choice EnvStep) :=
  firstAttempt 2 ++ arrive 2 7 (.fail ⟨firstHolder, "boom", true⟩) ++
    arrive 3 4 (.complete ⟨firstHolder, []⟩)

/-- A test completes and the build is evicted; its name is submitted again, and a worker asks for
builds. -/
def reusedAs (taskType : String) : List (Act Request Choice EnvStep) :=
  lateCompletion ++ arrive 4 4 (.submit (.bounded "v" "test" 2)) ++
    arrive 5 8 (.leaseBatch ⟨"test", "w2", 1, 0⟩) ++
    arrive 6 4 (.complete ⟨⟨"acme", "p", "v", "w2", 1⟩, []⟩) ++
    arrive 7 4 (.submit (.bounded "w" taskType 2)) ++ arrive 8 8 (.leaseBatch ⟨"build", "w3", 1, 0⟩)

/-- What the last worker is given. -/
def lastLease (taskType : String) : Thread :=
  .done (.leaseBatch ⟨"build", "w3", 1, 0⟩)
    (.leaseBatch [⟨"acme", "p", "w", taskType, [], 1, 30 * Time.second⟩] none)

/-- The worker that asks for builds is given a test. -/
theorem leased_other_type :
    ∃ w, (coordinator keepOne).Reach Guard.all (State.init keepOne) w ∧
      ∃ call leases err, .done (.leaseBatch call) (.leaseBatch leases err) ∈ w.threads ∧
        ∃ l ∈ leases, l.taskType ≠ call.taskType := by
  have hrun : ((coordinator keepOne).exec ⟨State.init keepOne, []⟩ (reusedAs "test")).map
      (fun w => w.threads[8]?) = some (some (lastLease "test")) := by
    decide +kernel
  obtain ⟨w, hw, hthread⟩ := Program.exists_reach hrun
  exact ⟨w, hw, _, _, _, List.mem_of_getElem? hthread, _,
    List.mem_singleton.mpr rfl, by decide⟩

/-- When the name is used for a build again, the worker is given that. -/
theorem leases_of_asked_type_reused :
    ∃ w, (coordinator keepOne).Reach (retypeGuard keepOne) (State.init keepOne) w ∧
      lastLease "build" ∈ w.threads ∧
      ∃ e ∈ w.shared.log, eventType e = some .submitted ∧ e.key = sessionKey "acme" "p" "w" ∧
        (SubmitPayload.unmarshal e.payload).map SubmitPayload.taskType = some "build" := by
  have hrun : ((coordinator keepOne).execWithin (retypeGuard keepOne)
      ⟨State.init keepOne, []⟩ (reusedAs "build")).map
      (fun w => w.threads[8]?) = some (some (lastLease "build")) := by
    decide +kernel
  obtain ⟨w, hreach, hthread⟩ := Program.exists_reach_within hrun
  have hdone := List.mem_of_getElem? hthread
  exact ⟨w, hreach, hdone,
    (leases_of_asked_type keepOne hreach hdone (List.mem_singleton.mpr rfl)).2⟩

end AgentBus.Workflow
