import AgentBus.Workflow.Indexes

/-!
# The queues of the store

With no retention the queues are exact: a key is in the queue of the task type of its execution
only, at most once, and its queued flag says so; the execution of an entry is available or has
finished.  `Store.Lined` says this, and every method keeps it.  For `Apply` it takes that a lease
is only accepted by an execution that was reserved, and for `Unreserve` that the execution given
back is reserved; both hold in the runs of the coordinator.

## Main definitions

* `Execution.free` — a pending execution nobody has reserved.
* `Store.available` — the queue of a task type holds such an execution.
* `Store.Lined` — the queues, the queued flags and the channels agree.
-/

namespace AgentBus.Workflow

open AgentStream

namespace Execution

/-- A pending execution nobody has reserved. -/
def free (x : Execution) : Bool := x.status = .pending && !x.reserved

theorem free_iff {x : Execution} : x.free = true ↔ x.status = .pending ∧ x.reserved = false := by
  simp [free]

@[simp] theorem free_of_terminal {x : Execution} (h : x.terminal = true) : x.free = false := by
  rcases terminal_iff.mp h with hs | hs <;> simp [free, hs]

@[simp] theorem free_of_reserved {x : Execution} (h : x.reserved = true) : x.free = false := by
  simp [free, h]

/-- What an available execution accepts leases it or ends it. -/
theorem Folds.of_free {x x' : Execution} {e : Event} (h : Folds x e x') (hx : x.free = true) :
    eventType e = some .leased ∨ x'.terminal = true := by
  obtain ⟨hpending, -⟩ := free_iff.mp hx
  cases h with
  | leased p ty payload status attempt => exact .inl ty
  | heartbeat p ty payload status attempt worker => rw [hpending] at status; cases status
  | completed p ty payload live attempt leased => exact .inr (by simp [complete, record, terminal])
  | failed p ty payload status attempt => rw [hpending] at status; cases status
  | retry p ty payload status => rw [hpending] at status; rcases status with hs | hs <;> cases hs
  | dead p ty payload live => exact .inr (by simp [kill, record, terminal])

end Execution

namespace Store

/-- The queue of a task type holds a pending execution nobody has reserved. -/
def available (m : Store) (taskType : String) : Bool :=
  (m.queues taskType).any fun k => (m.find? k).any Execution.free

theorem available_eq_false_iff {m : Store} {taskType : String} :
    m.available taskType = false ↔
      ∀ k ∈ m.queues taskType, ∀ x, m.find? k = some x → x.free = false := by
  rw [available, List.any_eq_false]
  refine forall₂_congr fun k _ => ?_
  cases m.find? k with
  | none => simp
  | some x => simp

/-- The queues, the queued flags and the wake-up channels agree. -/
structure Lined (m : Store) : Prop where
  nodup : ∀ ty, (m.queues ty).Nodup
  entry : ∀ ty, ∀ k ∈ m.queues ty, m.queued k = true ∧ ∃ x, m.find? k = some x ∧ x.taskType = ty
  parked : ∀ k x, m.find? k = some x → m.queued k = true → x.terminal = true ∨ x.free = true
  wake : ∀ ty ch, m.wake ty = some ch → ch < m.chans

theorem lined_empty (retain : ℤ) : (empty retain).Lined := by
  constructor <;> simp [empty]

variable {m m' : Store} {k : String} {x x' : Execution}

/-- The task type of an entry tells its queue. -/
theorem Lined.queue_unique (h : m.Lined) {ty ty' : String} (hk : k ∈ m.queues ty)
    (hk' : k ∈ m.queues ty') : ty = ty' := by
  obtain ⟨-, x, hx, rfl⟩ := h.entry ty k hk
  obtain ⟨-, x', hx', rfl⟩ := h.entry ty' k hk'
  rw [hx] at hx'
  cases hx'
  rfl

/-- A key without its flag is in no queue. -/
theorem Lined.not_mem_queues (h : m.Lined) (hq : m.queued k = false) (ty : String) :
    k ∉ m.queues ty := by
  intro hk
  rw [(h.entry ty k hk).1] at hq
  cases hq

/-- An entry that has not finished is available. -/
theorem Lined.free_of_queued (h : m.Lined) (hx : m.find? k = some x) (hlive : x.terminal = false)
    (hq : m.queued k = true) : x.free = true := by
  rcases h.parked k x hx hq with hterm | hfree
  · rw [hlive] at hterm
    cases hterm
  · exact hfree

/-- A reserved execution that is pending is in no queue. -/
theorem Lined.queued_of_reserved (h : m.Lined) (hx : m.find? k = some x)
    (hpending : x.status = .pending) (hres : x.reserved = true) : m.queued k = false := by
  refine Bool.eq_false_iff.mpr ?_
  intro hq
  have hfree := h.free_of_queued hx (by simp [Execution.terminal, hpending]) hq
  rw [Execution.free_of_reserved hres] at hfree
  cases hfree

/-- A key that is in its queue is not put there again. -/
@[simp] theorem reconcileQueue_of_queued (hq : m.queued k = true) (x : Execution) :
    m.reconcileQueue k x = m := by
  simp [reconcileQueue, hq]

theorem reconcileQueue_of_new (hq : m.queued k = false) (hfree : x.free = true) :
    (m.reconcileQueue k x).queues =
        Function.update m.queues x.taskType (m.queues x.taskType ++ [k]) ∧
      (m.reconcileQueue k x).queued = Function.update m.queued k true := by
  obtain ⟨hpending, hres⟩ := Execution.free_iff.mp hfree
  simp [reconcileQueue, hq, hpending, hres]

/-- Writing an execution keeps the queues when its task type stays and an entry stays available
or ends. -/
theorem Lined.put (h : m.Lined) (htype : ∀ x, m.find? k = some x → x'.taskType = x.taskType)
    (hfree : m.queued k = true → x'.terminal = true ∨ x'.free = true) : (m.put k x').Lined := by
  refine ⟨h.nodup, ?_, ?_, h.wake⟩
  · intro ty k' hk'
    obtain ⟨hq, x, hx, rfl⟩ := h.entry ty k' hk'
    refine ⟨hq, ?_⟩
    rw [find?_put]
    split
    · rename_i hkk
      exact ⟨x', rfl, htype x (hkk ▸ hx)⟩
    · exact ⟨x, hx, rfl⟩
  · intro k' y hy hq
    rw [find?_put] at hy
    split at hy
    · rename_i hkk
      cases hy
      exact hfree (hkk ▸ hq)
    · exact h.parked k' y hy hq

/-- The completion fence does not matter to the queues. -/
theorem Lined.fence (h : m.Lined) (hx : m.find? k = some x) (completing : Bool) :
    (m.put k { x with completing := completing }).Lined := by
  refine h.put ?_ ?_
  · intro y hy
    rw [hx] at hy
    cases hy
    rfl
  · intro hq
    exact h.parked k x hx hq

/-- An available execution joins the queue of its task type, at either end. -/
theorem Lined.enqueue (h : m.Lined) (hx : m.find? k = some x) (hfree : x.free = true)
    (hqueued : m.queued k = false) {q : List String} (hq : q.Perm (k :: m.queues x.taskType))
    {wake : String → Option ℕ} (hwake : ∀ ty ch, wake ty = some ch → ch < m.chans)
    (closed : ℕ → Bool) :
    Lined { m with
      queues := Function.update m.queues x.taskType q
      queued := Function.update m.queued k true
      closed := closed
      wake := wake } := by
  have hnew := h.not_mem_queues hqueued
  have hmem : ∀ ty k', k' ∈ Function.update m.queues x.taskType q ty →
      (k' = k ∧ ty = x.taskType) ∨ k' ≠ k ∧ k' ∈ m.queues ty := by
    intro ty k' hk'
    by_cases hty : ty = x.taskType
    · subst hty
      rw [Function.update_self, hq.mem_iff] at hk'
      rcases List.mem_cons.mp hk' with rfl | hk'
      · exact .inl ⟨rfl, rfl⟩
      · exact .inr ⟨fun heq => hnew _ (heq ▸ hk'), hk'⟩
    · rw [Function.update_of_ne hty] at hk'
      exact .inr ⟨fun heq => hnew _ (heq ▸ hk'), hk'⟩
  refine ⟨?_, ?_, ?_, hwake⟩
  · intro ty
    by_cases hty : ty = x.taskType
    · subst hty
      dsimp only
      rw [Function.update_self, hq.nodup_iff]
      exact List.nodup_cons.mpr ⟨hnew _, h.nodup _⟩
    · dsimp only
      rw [Function.update_of_ne hty]
      exact h.nodup ty
  · intro ty k' hk'
    rcases hmem ty k' hk' with ⟨rfl, rfl⟩ | ⟨hne, hk'⟩
    · exact ⟨Function.update_self .., x, hx, rfl⟩
    · exact ⟨(Function.update_of_ne hne ..).trans (h.entry ty k' hk').1, (h.entry ty k' hk').2⟩
  · intro k' y hy hq
    have hold : m.find? k' = some y := hy
    dsimp only at hq
    by_cases hkk : k' = k
    · subst hkk
      obtain rfl := Option.some.inj (hx.symm.trans hold)
      exact .inr hfree
    · rw [Function.update_of_ne hkk] at hq
      exact h.parked k' y hold hq

/-- `reconcileQueueLocked` keeps the queues. -/
theorem Lined.reconcileQueue (h : m.Lined) (hx : m.find? k = some x) :
    (m.reconcileQueue k x).Lined := by
  unfold Store.reconcileQueue
  split
  · rename_i hcond
    obtain ⟨hpending, hqueued, hreserved⟩ := hcond
    refine h.enqueue hx (Execution.free_iff.mpr ⟨hpending, hreserved⟩) hqueued
      List.perm_append_comm ?_ _
    intro ty ch hch
    by_cases hty : ty = x.taskType
    · subst hty
      rw [Function.update_self] at hch
      cases hch
    · rw [Function.update_of_ne hty] at hch
      exact h.wake ty ch hch
  · exact h

/-- **`Apply` keeps the queues.** -/
theorem Lined.apply (hret : m.retainTerminal ≤ 0) (hidx : m.Indexed) (h : m.Lined) {e : Event}
    (hleased : ∀ x x', m.find? e.key = some x → Execution.Folds x e x' →
      eventType e = some .leased → x.reserved = true) : (m.apply e).1.Lined := by
  have hkeep := apply_keeping hret e
  generalize (m.apply e).1 = m' at hkeep
  cases hkeep with
  | ignored refused => exact h
  | created nx ty absent valid =>
    have hput : (m.put e.key nx).Lined := by
      refine h.put ?_ ?_
      · intro x hx
        rw [absent] at hx
        cases hx
      · intro hq
        rw [hidx.queued_eq_false absent] at hq
        cases hq
    have hline := hput.reconcileQueue (find?_put_self m e.key nx)
    exact ⟨hline.nodup, hline.entry, hline.parked, hline.wake⟩
  | folded x x' terminalQ present folds =>
    have hput : (m.put e.key x').Lined := by
      refine h.put ?_ ?_
      · intro y hy
        rw [present] at hy
        cases hy
        exact (sameWork_of_folds folds).taskType
      · intro hq
        have hfree := h.free_of_queued present folds.live hq
        rcases folds.of_free hfree with hty | hterm
        · have hres := hleased x x' present folds hty
          rw [(Execution.free_iff.mp hfree).2] at hres
          cases hres
        · exact .inl hterm
    have hline := hput.reconcileQueue (find?_put_self m e.key x')
    exact ⟨hline.nodup, hline.entry, hline.parked, hline.wake⟩

/-- Popping entries off the front of a queue. -/
theorem Lined.popped (h : m.Lined) {taskType : String} {pre rest : List String}
    (hsplit : m.queues taskType = pre ++ rest) :
    Lined { m.unqueue pre with queues := Function.update m.queues taskType rest } := by
  have hnodup := h.nodup taskType
  rw [hsplit] at hnodup
  have hold : ∀ ty k, k ∈ Function.update m.queues taskType rest ty →
      k ∈ m.queues ty ∧ k ∉ pre := by
    intro ty k hk
    by_cases hty : ty = taskType
    · subst hty
      rw [Function.update_self] at hk
      rw [hsplit]
      exact ⟨List.mem_append_right _ hk, fun hpre =>
        (List.nodup_append.mp hnodup).2.2 k hpre k hk rfl⟩
    · rw [Function.update_of_ne hty] at hk
      refine ⟨hk, ?_⟩
      intro hpre
      exact hty (h.queue_unique hk (hsplit ▸ List.mem_append_left _ hpre))
  refine ⟨?_, ?_, ?_, h.wake⟩
  · intro ty
    by_cases hty : ty = taskType
    · subst hty
      dsimp only
      rw [Function.update_self]
      exact (List.nodup_append.mp hnodup).2.1
    · dsimp only
      rw [Function.update_of_ne hty]
      exact h.nodup ty
  · intro ty k hk
    obtain ⟨hmem, hpre⟩ := hold ty k hk
    obtain ⟨hq, hx⟩ := h.entry ty k hmem
    exact ⟨(if_neg hpre).trans hq, hx⟩
  · intro k x hx hq
    refine h.parked k x hx ?_
    simp only [unqueue] at hq
    split at hq
    · cases hq
    · exact hq

/-- `ReserveNext` keeps the queues. -/
theorem Lined.reserves (h : m.Lined) {taskType : String} {r : Store × Option Execution}
    (hr : Reserves m taskType (m.queues taskType) r) : r.1.Lined := by
  cases hr with
  | nothing stale => exact h.popped (List.append_nil _).symm
  | found pre rest k x split stale present pending free =>
    have hpop : Lined { m.unqueue (pre ++ [k]) with
        queues := Function.update m.queues taskType rest } :=
      h.popped (by rw [split]; simp)
    refine hpop.put ?_ ?_
    · intro y hy
      have hy : m.find? k = some y := hy
      rw [present] at hy
      cases hy
      rfl
    · intro hq
      simp [unqueue] at hq

/-- `Unreserve` keeps the queues, when the execution is reserved. -/
theorem Lined.unreserves (h : m.Lined) (hr : Unreserves m x m')
    (hres : ∀ y, m.find? x.key = some y → y.reserved = true) : m'.Lined := by
  have hput : ∀ y, m.find? x.key = some y → (m.put x.key { y with reserved := false }).Lined := by
    intro y hy
    refine h.put ?_ ?_
    · intro z hz
      rw [hy] at hz
      cases hz
      rfl
    · intro hq
      refine (h.parked _ y hy hq).imp id fun hfree => ?_
      rw [Execution.free_of_reserved (hres y hy)] at hfree
      cases hfree
  cases hr with
  | ignored => exact h
  | freed y present ref parked => exact hput y present
  | requeued y present ref pending =>
    have hqueued := h.queued_of_reserved present pending (hres y present)
    exact (hput y present).enqueue (find?_put_self ..)
      (Execution.free_iff.mpr ⟨pending, rfl⟩) hqueued (.refl _) h.wake m.closed

/-- `BeginComplete` keeps the queues. -/
theorem Lined.begins (h : m.Lined) {attempt : ℤ} {r : Store × Bool × Bool}
    (hr : Begins m k attempt r) : r.1.Lined := by
  cases hr with
  | refused duplicate => exact h
  | fenced x present live current leased free => exact h.fence present true

/-- `AbortComplete` keeps the queues. -/
theorem Lined.abortComplete (h : m.Lined) (tenant project workflowID : String) :
    (m.abortComplete tenant project workflowID).Lined := by
  simp only [Store.abortComplete]
  split
  · exact h
  · rename_i x hx
    exact h.fence hx false

/-- `WaitChan` keeps the queues. -/
theorem Lined.waitChan (h : m.Lined) (taskType : String) : (m.waitChan taskType).1.Lined := by
  unfold Store.waitChan
  split
  · exact h
  · refine ⟨h.nodup, h.entry, h.parked, ?_⟩
    intro ty ch hch
    dsimp only at hch ⊢
    by_cases hty : ty = taskType
    · subst hty
      rw [Function.update_self] at hch
      cases hch
      omega
    · rw [Function.update_of_ne hty] at hch
      have := h.wake ty ch hch
      omega

end Store
end AgentBus.Workflow
