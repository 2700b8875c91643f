import AgentBus.Workflow.Counts
import AgentBus.Workflow.Line

/-!
# Runs of the store

The methods of the store in any order, with any arguments and any retention: events that belong to
no log, completions that nobody leased, reservations given back twice.  What holds after every such
run does not rest on how the coordinator uses its store.

* The indexes match the executions (`indexes_match_executions`).
* A pending execution that nobody has reserved is in the queue of its type, and `ReserveNext` comes
  to it (`pending_reservable`).

## Main definitions

* `StoreOp`, `Store.perform`, `Store.performAll` — the runs.
* `Store.terminals` — the keys of the terminal executions.
* `Store.endings` — the keys whose executions ended in a run, in order.
-/

namespace AgentBus.Workflow

open AgentStream

/-- A call of a method that writes to the store. -/
inductive StoreOp where
  | apply (e : Event)
  | reserveNext (taskType : String)
  | unreserve (x : Execution)
  | waitChan (taskType : String)
  | beginComplete (tenant project workflowID : String) (attempt : ℤ)
  | abortComplete (tenant project workflowID : String)
  | expiredLeases (now : Time) (order : List String)

namespace Store

/-- The store after a call. -/
def perform (s : Store) : StoreOp → Store
  | .apply e => (s.apply e).1
  | .reserveNext taskType => (s.reserveNext taskType).1
  | .unreserve x => s.unreserve x
  | .waitChan taskType => (s.waitChan taskType).1
  | .beginComplete tenant project workflowID attempt =>
    (s.beginComplete tenant project workflowID attempt).1
  | .abortComplete tenant project workflowID => s.abortComplete tenant project workflowID
  | .expiredLeases now order => (s.expiredLeases now order).1

def performAll (s : Store) (ops : List StoreOp) : Store := ops.foldl perform s

theorem performAll_concat (s : Store) (ops : List StoreOp) (op : StoreOp) :
    s.performAll (ops ++ [op]) = (s.performAll ops).perform op := by
  simp [performAll]

/-- The keys of the terminal executions. -/
def terminals (s : Store) : List String :=
  s.execs.keys.filter fun k => (s.find? k).any Execution.terminal

/-- The keys whose executions a call ends. -/
def endsIn (s : Store) : StoreOp → List String
  | .apply e => s.endedBy e
  | _ => []

/-- The keys whose executions ended in a run, in the order in which they did. -/
def endings (s : Store) : List StoreOp → List String
  | [] => []
  | op :: ops => s.endsIn op ++ (s.perform op).endings ops

theorem endings_concat (s : Store) (ops : List StoreOp) (op : StoreOp) :
    s.endings (ops ++ [op]) = s.endings ops ++ (s.performAll ops).endsIn op := by
  induction ops generalizing s with
  | nil => simp [endings, performAll]
  | cons op' ops ih =>
    rw [List.cons_append, endings, endings, ih, List.append_assoc]
    rfl

/-! ## The indexes -/

theorem Kept.perform {s : Store} {ended : List String} (h : s.Kept ended) (op : StoreOp) :
    (s.perform op).Kept (ended ++ s.endsIn op) := by
  have hsame : ∀ s', SameStatus s s' → s'.Kept (ended ++ []) := by
    intro s' hs'
    rw [List.append_nil]
    exact h.same hs'
  cases op with
  | apply e => exact h.apply e
  | reserveNext taskType => exact hsame _ (reserveNext_spec s taskType).sameStatus
  | unreserve x => exact hsame _ (sameStatus_unreserve s x)
  | waitChan taskType => exact hsame _ (sameStatus_waitChan s taskType)
  | beginComplete tenant project workflowID attempt =>
    exact hsame _ (beginComplete_spec s tenant project workflowID attempt).sameStatus
  | abortComplete tenant project workflowID =>
    exact hsame _ (sameStatus_abortComplete s tenant project workflowID)
  | expiredLeases now order => exact hsame _ (h.tallied.counted.expiredLeases now order)

theorem kept_performAll (retain : ℤ) (ops : List StoreOp) :
    ((empty retain).performAll ops).Kept ((empty retain).endings ops) := by
  induction ops using List.reverseRecOn with
  | nil => exact kept_empty retain
  | append_singleton ops op ih =>
    rw [performAll_concat, endings_concat]
    exact ih.perform op

@[simp] theorem retainTerminal_perform (s : Store) (op : StoreOp) :
    (s.perform op).retainTerminal = s.retainTerminal := by
  cases op with
  | apply e => exact retainTerminal_apply s e
  | reserveNext taskType => exact (reserveNext_spec s taskType).sameStatus.retainTerminal
  | unreserve x => exact (sameStatus_unreserve s x).retainTerminal
  | waitChan taskType => exact (sameStatus_waitChan s taskType).retainTerminal
  | beginComplete tenant project workflowID attempt =>
    exact (beginComplete_spec s tenant project workflowID attempt).sameStatus.retainTerminal
  | abortComplete tenant project workflowID =>
    exact (sameStatus_abortComplete s tenant project workflowID).retainTerminal
  | expiredLeases now order => rfl

@[simp] theorem retainTerminal_performAll (retain : ℤ) (ops : List StoreOp) :
    ((empty retain).performAll ops).retainTerminal = retain := by
  induction ops using List.reverseRecOn with
  | nil => rfl
  | append_singleton ops op ih => rw [performAll_concat, retainTerminal_perform, ih]

theorem Tallied.perm {s : Store} {q : List String} (h : s.Tallied q) : q.Perm s.terminals := by
  refine (List.perm_ext_iff_of_nodup h.nodup (s.execs.keys_nodup.filter _)).mpr ?_
  intro k
  rw [h.mem, List.mem_filter, mem_keys]
  cases s.find? k <;> simp

/-- **The indexes match the executions**: the counts, the running keys, and the queue of terminal
executions, which are listed once each, in the order in which they ended, and within the
retention. -/
theorem indexes_match_executions (retain : ℤ) (ops : List StoreOp) :
    let s := (empty retain).performAll ops
    (∀ st, s.counts st = s.tally st) ∧
    (s.running.Nodup ∧ ∀ k, k ∈ s.running ↔ (s.find? k).map Execution.status = some .running) ∧
    (s.terminalQ.Perm s.terminals ∧ s.terminalQ <:+ (empty retain).endings ops) ∧
    (0 < retain → (s.terminals.length : ℤ) ≤ retain) := by
  intro s
  obtain ⟨htallied, hages, hbound⟩ := kept_performAll retain ops
  have hperm : s.terminalQ.Perm s.terminals := htallied.perm
  refine ⟨htallied.counted.counts, ⟨htallied.counted.nodup, htallied.counted.running⟩,
    ⟨hperm, hages.queue ▸ List.drop_suffix ..⟩, ?_⟩
  intro hpos
  rw [← hperm.length_eq, ← retainTerminal_performAll retain ops]
  exact hbound (by rwa [retainTerminal_performAll])

/-! ## The queues -/

theorem Indexed.perform {s : Store} (h : s.Indexed) (op : StoreOp) : (s.perform op).Indexed := by
  cases op with
  | apply e => exact h.apply e
  | reserveNext taskType => exact h.reserves (reserveNext_spec s taskType)
  | unreserve x => exact h.unreserves (unreserve_spec s x)
  | waitChan taskType => exact h.waitChan taskType
  | beginComplete tenant project workflowID attempt =>
    exact h.begins (beginComplete_spec s tenant project workflowID attempt)
  | abortComplete tenant project workflowID => exact h.abortComplete tenant project workflowID
  | expiredLeases now order => exact h.expiredLeases now order

theorem indexed_performAll (retain : ℤ) (ops : List StoreOp) :
    ((empty retain).performAll ops).Indexed := by
  induction ops using List.reverseRecOn with
  | nil => exact indexed_empty retain
  | append_singleton ops op ih =>
    rw [performAll_concat]
    exact ih.perform op

/-- **No pending work is lost.** -/
theorem pending_reservable (retain : ℤ) (ops : List StoreOp) (k : String) (x : Execution) :
    let s := (empty retain).performAll ops
    s.find? k = some x → x.status = .pending → x.reserved = false →
      k ∈ s.queues x.taskType ∧
        ∃ n, { x with reserved := true } ∈ s.reservations x.taskType n := by
  intro s hx hpending hfree
  have hk := (indexed_performAll retain ops).pending k x hx hpending hfree
  exact ⟨hk, _, mem_reservations hx hpending hfree hk le_rfl⟩

/-- A build is leased, fails and is to be retried. -/
def retriedBuild : List StoreOp :=
  let event := fun ty attempt payload => newEnvelope ty "acme" "p" "w" "w1" attempt payload 0
  [.waitChan "build", .apply (event .submitted 0 (SubmitPayload.marshal ⟨"build", [], 2, 9⟩)),
    .reserveNext "build", .apply (event .leased 1 (LeasePayload.marshal ⟨"w1"⟩)),
    .beginComplete "acme" "p" "w" 1, .abortComplete "acme" "p" "w",
    .apply (event .failed 1 (FailPayload.marshal ⟨"w1", "boom", true⟩)),
    .apply (event .retry 1 (ReasonPayload.marshal ⟨reasonAttemptFailed⟩))]

theorem pending_reservable_retried :
    let s := (empty 1).performAll retriedBuild
    ∃ x, s.find? "acme/p/w" = some x ∧ x.status = .pending ∧ x.reserved = false ∧
      "acme/p/w" ∈ s.queues x.taskType ∧
        ∃ n, { x with reserved := true } ∈ s.reservations x.taskType n := by
  have hrun : (((empty 1).performAll retriedBuild).find? "acme/p/w").map
      (fun x => (x.status, x.reserved)) = some (.pending, false) := by
    decide +kernel
  obtain ⟨x, hx, hflags⟩ := Option.map_eq_some_iff.mp hrun
  obtain ⟨hpending, hfree⟩ := Prod.mk.injEq .. ▸ hflags
  exact ⟨x, hx, hpending, hfree, pending_reservable 1 _ _ x hx hpending hfree⟩

end Store
end AgentBus.Workflow
