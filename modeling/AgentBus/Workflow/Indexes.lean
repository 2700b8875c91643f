import AgentBus.Workflow.StoreSpec

/-!
# The indexes of the store

`Store.Indexed` says that the indexes agree with the executions: a pending execution
that nobody has reserved is in the queue of its task type, a running one is in the index
the sweep visits, and only a pending or a terminal execution is reserved.  Every method
of the store keeps it, whatever the events, the order of the calls and the retention.
-/

namespace AgentBus.Workflow

open AgentStream

namespace Store

/-- The indexes agree with the executions. -/
structure Indexed (s : Store) : Prop where
  keyed : ∀ k x, s.find? k = some x → x.key = k
  queued : ∀ k, s.queued k = true → ∃ x, s.find? k = some x ∧ k ∈ s.queues x.taskType
  pending : ∀ k x, s.find? k = some x → x.status = .pending → x.reserved = false →
    k ∈ s.queues x.taskType
  running : ∀ k x, s.find? k = some x → x.status = .running → k ∈ s.running
  reserved : ∀ k x, s.find? k = some x → x.reserved = true →
    x.status = .pending ∨ x.terminal = true

theorem indexed_empty (retain : ℤ) : (empty retain).Indexed := by
  constructor <;> simp [empty, Store.find?]

variable {s : Store} {k : String} {x x' : Execution} {e : Event}

/-- A key that is not tracked is not queued. -/
theorem Indexed.queued_eq_false (h : s.Indexed) (habsent : s.find? k = none) :
    s.queued k = false := by
  refine Bool.eq_false_iff.mpr ?_
  intro hq
  obtain ⟨x, hx, -⟩ := h.queued k hq
  rw [habsent] at hx
  cases hx

/-- The parts of an execution the indexes look at, apart from its status. -/
structure SameWork (x x' : Execution) : Prop where
  key : x'.key = x.key
  taskType : x'.taskType = x.taskType

theorem sameWork_of_folds (h : Execution.Folds x e x') : SameWork x x' := by
  cases h <;> exact ⟨rfl, rfl⟩

/-- A fold leaves no running or retrying execution reserved. -/
theorem reserved_of_folds (h : Execution.Folds x e x')
    (hx : x.reserved = true → x.status = .pending ∨ x.terminal = true) (hx' : x'.reserved = true) :
    x'.status = .pending ∨ x'.terminal = true := by
  cases h with
  | leased p ty payload status attempt => cases hx'
  | heartbeat p ty payload status attempt worker => exact hx hx'
  | completed p ty payload live attempt leased =>
    exact .inr (by simp [Execution.complete, Execution.record, Execution.terminal])
  | failed p ty payload status attempt =>
    rcases hx hx' with hs | hs
    · rw [status] at hs; cases hs
    · simp [Execution.terminal, status] at hs
  | retry p ty payload status => exact .inl rfl
  | dead p ty payload live =>
    exact .inr (by simp [Execution.kill, Execution.record, Execution.terminal])

/-- A new execution is pending under the key of its event. -/
theorem newExecution_spec {ref : ℕ} (h : newExecution ref e = some x) :
    x.key = e.key ∧ x.status = .pending ∧ x.reserved = false ∧ x.completing = false := by
  unfold newExecution at h
  obtain ⟨p, hp, h⟩ := Option.bind_eq_some_iff.mp h
  split at h
  · cases h
  · cases h
    exact ⟨rfl, rfl, rfl, rfl⟩

/-! ## The methods -/

/-- A fold keeps the indexes, given what it may write. -/
theorem Indexed.updates {s' : Store} {gone : List String} (h : s.Indexed)
    (hup : Updates s k x' s' gone) (hkey : x'.key = k)
    (htype : ∀ x, s.find? k = some x → x'.taskType = x.taskType)
    (hrun : x'.status = .running → k ∈ s'.running)
    (hres : x'.reserved = true → x'.status = .pending ∨ x'.terminal = true) : s'.Indexed := by
  -- A lookup afterwards is the new execution or one from before.
  have hfind : ∀ k' x, s'.find? k' = some x →
      (k' = k ∧ x = x') ∨ (k' ≠ k ∧ s.find? k' = some x) := by
    intro k' x hx
    rw [hup.find?] at hx
    split at hx
    · cases hx
    · rw [find?_put] at hx
      split at hx
      · rename_i hk
        cases hx
        exact .inl ⟨hk, rfl⟩
      · rename_i hk
        exact .inr ⟨hk, hx⟩
  have hqueued : ∀ k', s'.queued k' = true →
      ∃ x, s'.find? k' = some x ∧ k' ∈ s'.queues x.taskType := by
    intro k' hk'
    obtain ⟨hgone, hold⟩ := hup.queued k' hk'
    have hlook : s'.find? k' = (s.put k x').find? k' := by rw [hup.find?, if_neg hgone]
    by_cases hkk : k' = k
    · subst hkk
      refine ⟨x', by rw [hlook, find?_put_self], ?_⟩
      rcases hold with hold | hold
      · obtain ⟨x, hx, hmem⟩ := h.queued k' hold
        rw [htype x hx]
        exact hup.queues _ _ hmem
      · exact hold.2
    · rcases hold with hold | hold
      · obtain ⟨x, hx, hmem⟩ := h.queued k' hold
        refine ⟨x, ?_, hup.queues _ _ hmem⟩
        rw [hlook, find?_put, if_neg hkk, hx]
      · exact absurd hold.1 hkk
  refine ⟨?_, hqueued, ?_, ?_, ?_⟩
  · intro k' x hx
    rcases hfind k' x hx with ⟨rfl, rfl⟩ | ⟨-, hx⟩
    · exact hkey
    · exact h.keyed k' x hx
  · intro k' x hx hp hr
    rcases hfind k' x hx with ⟨rfl, rfl⟩ | ⟨-, hold⟩
    · obtain ⟨y, hy, hmem⟩ := hqueued k' (hup.pending hp hr)
      rw [hx] at hy
      cases hy
      exact hmem
    · exact hup.queues _ _ (h.pending k' x hold hp hr)
  · intro k' x hx hs
    rcases hfind k' x hx with ⟨rfl, rfl⟩ | ⟨hne, hold⟩
    · exact hrun hs
    · exact hup.running k' hne (h.running k' x hold hs)
  · intro k' x hx hr
    rcases hfind k' x hx with ⟨rfl, rfl⟩ | ⟨-, hold⟩
    · exact hres hr
    · exact h.reserved k' x hold hr

/-- **`Apply` keeps the indexes**, whatever the event. -/
theorem Indexed.apply (h : s.Indexed) (e : Event) : (s.apply e).1.Indexed := by
  have hout := apply_outcome s e
  generalize (s.apply e).1 = m at hout
  cases hout with
  | ignored refused => exact h
  | created nx m gone ty absent valid update =>
    obtain ⟨hkey, hstatus, hfree, -⟩ := newExecution_spec valid
    refine h.updates update hkey ?_ ?_ ?_
    · intro x hx
      rw [absent] at hx
      cases hx
    · intro hs
      rw [hstatus] at hs
      cases hs
    · intro hr
      rw [hfree] at hr
      cases hr
  | folded x x' m gone present folds update running =>
    have hwork := sameWork_of_folds folds
    refine h.updates update (hwork.key.trans (h.keyed _ x present)) ?_ ?_ ?_
    · intro y hy
      rw [present] at hy
      cases hy
      exact hwork.taskType
    · exact fun hs => running hs (h.running _ x present)
    · exact reserved_of_folds folds (h.reserved _ x present)

/-- Changing an execution in place without making it unreserved keeps the indexes. -/
theorem Indexed.put (h : s.Indexed)
    (hx : s.find? k = some x) (hwork : SameWork x x') (hstatus : x'.status = x.status)
    (hres : x'.reserved = true → x'.status = .pending ∨ x'.terminal = true)
    (hfree : x'.reserved = false → x.reserved = true → x.status = .pending →
      k ∈ s.queues x.taskType) : (s.put k x').Indexed := by
  have hfind : ∀ k' y, (s.put k x').find? k' = some y →
      (k' = k ∧ y = x') ∨ (k' ≠ k ∧ s.find? k' = some y) := by
    intro k' y hy
    rw [find?_put] at hy
    split at hy
    · rename_i hk
      cases hy
      exact .inl ⟨hk, rfl⟩
    · rename_i hk
      exact .inr ⟨hk, hy⟩
  refine ⟨?_, ?_, ?_, ?_, ?_⟩
  · intro k' y hy
    rcases hfind k' y hy with ⟨rfl, rfl⟩ | ⟨-, hold⟩
    · exact hwork.key.trans (h.keyed _ x hx)
    · exact h.keyed k' y hold
  · intro k' hk'
    obtain ⟨y, hy, hmem⟩ := h.queued k' hk'
    by_cases hkk : k' = k
    · subst hkk
      rw [hx] at hy
      cases hy
      exact ⟨x', find?_put_self _ _ _, by rw [hwork.taskType]; exact hmem⟩
    · exact ⟨y, by rw [find?_put, if_neg hkk, hy], hmem⟩
  · intro k' y hy hp hr
    rcases hfind k' y hy with ⟨rfl, rfl⟩ | ⟨-, hold⟩
    · rw [hwork.taskType]
      rw [hstatus] at hp
      cases hxr : x.reserved with
      | true => exact hfree hr hxr hp
      | false => exact h.pending _ x hx hp hxr
    · exact h.pending k' y hold hp hr
  · intro k' y hy hs
    rcases hfind k' y hy with ⟨rfl, rfl⟩ | ⟨-, hold⟩
    · exact h.running _ x hx (hstatus ▸ hs)
    · exact h.running k' y hold hs
  · intro k' y hy hr
    rcases hfind k' y hy with ⟨rfl, rfl⟩ | ⟨-, hold⟩
    · exact hres hr
    · exact h.reserved k' y hold hr

/-- `BeginComplete` keeps the indexes. -/
theorem Indexed.begins (h : s.Indexed) {attempt : ℤ} {r : Store × Bool × Bool}
    (hr : Begins s k attempt r) : r.1.Indexed := by
  cases hr with
  | refused duplicate => exact h
  | fenced x present live current leased free =>
    refine h.put present ⟨rfl, rfl⟩ rfl (h.reserved k x present) ?_
    intro hf ht
    rw [ht] at hf
    cases hf

/-- `AbortComplete` keeps the indexes. -/
theorem Indexed.abortComplete (h : s.Indexed) (tenant project workflowID : String) :
    (s.abortComplete tenant project workflowID).Indexed := by
  simp only [Store.abortComplete]
  split
  · exact h
  · rename_i x hx
    refine h.put hx ⟨rfl, rfl⟩ rfl (h.reserved _ x hx) ?_
    intro hf ht
    rw [ht] at hf
    cases hf

/-- Popping stale entries off the front of a queue keeps the indexes. -/
theorem Indexed.popped (h : s.Indexed) {taskType : String} {pre rest : List String}
    (hsplit : s.queues taskType = pre ++ rest) (hstale : ∀ k ∈ pre, k ∉ rest → s.Stale k) :
    Indexed { s.unqueue pre with queues := Function.update s.queues taskType rest } := by
  have hqueue : ∀ ty k, k ∈ s.queues ty → (k ∈ pre → k ∈ rest) →
      k ∈ Function.update s.queues taskType rest ty := by
    intro ty k hk hpre
    by_cases hty : ty = taskType
    · subst hty
      rw [Function.update_self]
      rw [hsplit] at hk
      exact (List.mem_append.mp hk).elim hpre id
    · rw [Function.update_of_ne hty]
      exact hk
  refine ⟨h.keyed, ?_, ?_, h.running, h.reserved⟩
  · intro k hk
    simp only [unqueue] at hk
    split at hk
    · cases hk
    · rename_i hpre
      obtain ⟨x, hx, hmem⟩ := h.queued k hk
      exact ⟨x, hx, hqueue _ _ hmem fun hin => absurd hin hpre⟩
  · intro k x hx hp hr
    refine hqueue _ _ (h.pending k x hx hp hr) ?_
    intro hpre
    by_contra hrest
    have hres := hstale k hpre hrest x hx hp
    rw [hr] at hres
    cases hres

/-- `ReserveNext` keeps the indexes. -/
theorem Indexed.reserves (h : s.Indexed) {taskType : String} {r : Store × Option Execution}
    (hr : Reserves s taskType (s.queues taskType) r) : r.1.Indexed := by
  cases hr with
  | nothing stale => exact h.popped (by simp) fun k hk _ => stale k hk
  | found pre rest k x split stale present pending free =>
    -- Reserving the popped execution and popping it commute.
    have hres : Indexed (s.put k { x with reserved := true }) := by
      refine h.put present ⟨rfl, rfl⟩ rfl (fun _ => .inl pending) ?_
      intro hf
      cases hf
    have hsplit : (s.put k { x with reserved := true }).queues taskType =
        (pre ++ [k]) ++ rest := by
      change s.queues taskType = _
      rw [split]
      simp
    refine hres.popped hsplit ?_
    intro k' hk' _ y hy hp
    rw [find?_put] at hy
    split at hy
    · cases hy
      rfl
    · rename_i hne
      rcases List.mem_append.mp hk' with hk' | hk'
      · exact stale k' hk' y hy hp
      · exact absurd (List.mem_singleton.mp hk') hne

/-- `Unreserve` keeps the indexes. -/
theorem Indexed.unreserves {s' : Store} (h : s.Indexed) (hr : Unreserves s x s') : s'.Indexed := by
  cases hr with
  | ignored => exact h
  | freed y present ref parked =>
    refine h.put present ⟨rfl, rfl⟩ rfl (fun hf => by cases hf) ?_
    intro _ _ hp
    obtain ⟨z, hz, hmem⟩ := h.queued _ (parked hp)
    rw [present] at hz
    cases hz
    exact hmem
  | requeued y present ref pending =>
    -- Push the key first; the execution is still reserved then.
    have hpush : Indexed { s with
        queues := Function.update s.queues y.taskType (x.key :: s.queues y.taskType)
        queued := Function.update s.queued x.key true } := by
      have hmono : ∀ ty k, k ∈ s.queues ty →
          k ∈ Function.update s.queues y.taskType (x.key :: s.queues y.taskType) ty := by
        intro ty k hk
        by_cases hty : ty = y.taskType
        · subst hty
          simp [hk]
        · simpa [Function.update_of_ne hty] using hk
      refine ⟨h.keyed, ?_, ?_, h.running, h.reserved⟩
      · intro k hk
        by_cases hkk : k = x.key
        · subst hkk
          exact ⟨y, present, by simp⟩
        · dsimp only at hk
          rw [Function.update_of_ne hkk] at hk
          obtain ⟨z, hz, hmem⟩ := h.queued k hk
          exact ⟨z, hz, hmono _ _ hmem⟩
      · intro k z hz hp hf
        exact hmono _ _ (h.pending k z hz hp hf)
    refine hpush.put present ⟨rfl, rfl⟩ rfl (fun hf => by cases hf) ?_
    intro _ _ _
    simp

/-- `WaitChan` keeps the indexes. -/
theorem Indexed.waitChan (h : s.Indexed) (taskType : String) : (s.waitChan taskType).1.Indexed := by
  unfold Store.waitChan
  split
  · exact h
  · exact ⟨h.keyed, h.queued, h.pending, h.running, h.reserved⟩

/-- `ExpiredLeases` keeps the indexes. -/
theorem Indexed.expiredLeases (h : s.Indexed) (now : Time) (order : List String) :
    (s.expiredLeases now order).1.Indexed := by
  refine ⟨h.keyed, h.queued, h.pending, ?_, h.reserved⟩
  intro k x hx hs
  have hx' : s.find? k = some x := hx
  exact List.mem_filter.mpr ⟨h.running k x hx hs, by simp [hx']⟩

end Store
end AgentBus.Workflow
