import AgentBus.Workflow.State
import Mathlib.Data.List.AList
import Mathlib.Logic.Function.Basic

/-!
# The store of executions

`internal/workflow/store.go`: every tracked execution plus the scheduling indexes
derived from the fold.  Each function here is one critical section of the source's
mutex, so it is one atomic step of the coordinator.

A Go map with a usable zero value is a total function; the map of executions is an
association list, since it is counted and iterated.  Wake-up channels are numbered,
and closing one sets its flag.

## Main definitions

* `Store`, `Store.find?` — the state and the lookup.
* `Store.apply` — `Apply`, the fold of one envelope.
* `Store.reserveNext`, `Store.unreserve`, `Store.waitChan` — the lease side.
* `Store.beginComplete`, `Store.abortComplete` — the completion fence.
* `Store.expiredLeases` — the sweep's snapshot.
* `find?_apply` — what the fold does to each key.
-/

namespace AgentBus.Workflow

open AgentStream

/-- `Store`. -/
structure Store where
  execs : AList (fun _ : String => Execution)
  /-- Task type to first-in first-out queue of execution keys, lazily compacted. -/
  queues : String → List String
  /-- Whether a key is currently enqueued. -/
  queued : String → Bool
  /-- Task type to the channel that is closed on new work. -/
  wake : String → Option ℕ
  /-- Channels made so far, and which of them are closed. -/
  chans : ℕ
  closed : ℕ → Bool
  counts : Status → ℤ
  running : List String
  terminalQ : List String
  /-- Terminal executions kept in memory; none or fewer keeps every one. -/
  retainTerminal : ℤ
  /-- Executions allocated so far. -/
  refs : ℕ
  /-- Executions the store has dropped; a pointer may still show one. -/
  retired : List Execution

namespace Store

/-- `NewStore`, with the retention option already set. -/
def empty (retainTerminal : ℤ) : Store where
  execs := ∅
  queues := fun _ => []
  queued := fun _ => false
  wake := fun _ => none
  chans := 0
  closed := fun _ => false
  counts := fun _ => 0
  running := []
  terminalQ := []
  retainTerminal := retainTerminal
  refs := 0
  retired := []

/-- The execution under a key. -/
def find? (s : Store) (k : String) : Option Execution := s.execs.lookup k

/-- Write the execution under a key. -/
def put (s : Store) (k : String) (x : Execution) : Store := { s with execs := s.execs.insert k x }

@[simp] theorem find?_put (s : Store) (k k' : String) (x : Execution) :
    (s.put k x).find? k' = if k' = k then some x else s.find? k' := by
  by_cases h : k' = k
  · subst h; simp [find?, put, AList.lookup_insert]
  · simp [find?, put, AList.lookup_insert_ne h, h]

@[simp] theorem find?_put_self (s : Store) (k : String) (x : Execution) :
    (s.put k x).find? k = some x := by simp

/-- `Get` returns a copy of one execution's state. -/
def get (s : Store) (tenant project workflowID : String) : Option Execution :=
  s.find? (sessionKey tenant project workflowID)

/-! ## The fold -/

/-- `reconcileQueueLocked` enqueues a key whose execution became pending, and wakes the
waiters of its task type. -/
def reconcileQueue (s : Store) (k : String) (x : Execution) : Store :=
  if x.status = .pending ∧ s.queued k = false ∧ x.reserved = false then
    { s with
      queues := Function.update s.queues x.taskType (s.queues x.taskType ++ [k])
      queued := Function.update s.queued k true
      closed := match s.wake x.taskType with
        | some ch => Function.update s.closed ch true
        | none => s.closed
      wake := Function.update s.wake x.taskType none }
  else s

/-- The loop of `evictTerminalLocked` over the terminal queue. -/
def evictLoop (retain : ℤ) : List String → Store → Store
  | [], s => { s with terminalQ := [] }
  | k :: q, s =>
    if retain < ((k :: q).length : ℤ) then
      match s.find? k with
      | some x =>
        if x.terminal then
          evictLoop retain q
            { s with
              counts := Function.update s.counts x.status (s.counts x.status - 1)
              execs := s.execs.erase k
              retired := x :: s.retired
              queued := Function.update s.queued k false }
        else evictLoop retain q s
      | none => evictLoop retain q s
    else { s with terminalQ := k :: q }

/-- `evictTerminalLocked` retires the oldest terminal executions beyond the cap. -/
def evictTerminal (s : Store) : Store :=
  if s.retainTerminal ≤ 0 then s else evictLoop s.retainTerminal s.terminalQ s

/-- One execution moves from status `prev` to status `next` in the counts. -/
def recount (s : Store) (prev next : Status) : Store :=
  let counts := Function.update s.counts prev (s.counts prev - 1)
  { s with counts := Function.update counts next (counts next + 1) }

/-- A key leaves the running keys when its execution was running. -/
def leaveRunning (prev : Status) (k : String) (l : List String) : List String :=
  if prev = .running then l.filter (· ≠ k) else l

/-- A key enters the running keys when its execution is running. -/
def enterRunning (next : Status) (k : String) (l : List String) : List String :=
  if next = .running ∧ k ∉ l then l ++ [k] else l

/-- A key leaves and enters the index of running executions. -/
def moveRunning (s : Store) (k : String) (prev next : Status) : Store :=
  { s with running := enterRunning next k (leaveRunning prev k s.running) }

/-- An execution that became terminal joins the terminal queue, which is then cut. -/
def retire (s : Store) (k : String) (x : Execution) : Store :=
  if x.terminal then evictTerminal { s with terminalQ := s.terminalQ ++ [k] } else s

/-- The index updates of `Apply` when the status changes. -/
def reindex (s : Store) (k : String) (prev : Status) (x : Execution) : Store :=
  if x.status = prev then s
  else ((s.recount prev x.status).moveRunning k prev x.status).retire k x

/-- The part of `Apply` that starts tracking a submitted execution. -/
def track (s : Store) (k : String) (nx : Execution) : Store :=
  let s := { s.put k nx with
    refs := s.refs + 1
    counts := Function.update s.counts nx.status (s.counts nx.status + 1) }
  s.reconcileQueue k nx

/-- `Apply` folds one envelope into the store and reports whether state changed. -/
def apply (s : Store) (e : Event) : Store × Bool :=
  match eventType e with
  | none => (s, false)
  | some ty =>
    let k := e.key
    match s.find? k with
    | none =>
      if ty = .submitted then
        match newExecution s.refs e with
        | none => (s, false)
        | some nx => (s.track k nx, true)
      else (s, false)
    | some x =>
      if ty = .submitted then (s, false) -- duplicate submit is an idempotent no-op
      else
        match x.apply e with
        | none => (s, false)
        | some x' => (((s.put k x').reindex k x.status x').reconcileQueue k x', true)

/-- Fold a list of envelopes in order. -/
def applyAll (s : Store) (es : List Event) : Store := es.foldl (fun s e => (s.apply e).1) s

theorem applyAll_append (s : Store) (es es' : List Event) :
    s.applyAll (es ++ es') = (s.applyAll es).applyAll es' :=
  List.foldl_append ..

/-! ## The lease side -/

/-- The loop of `ReserveNext` over the queue of a task type. -/
def reserveLoop (taskType : String) : List String → Store → Store × Option Execution
  | [], s => ({ s with queues := Function.update s.queues taskType [] }, none)
  | k :: q, s =>
    let s := { s with queued := Function.update s.queued k false }
    match s.find? k with
    | none => reserveLoop taskType q s
    | some x =>
      if x.status ≠ .pending ∨ x.reserved then reserveLoop taskType q s -- stale entry
      else
        let x := { x with reserved := true }
        ({ s with queues := Function.update s.queues taskType q }.put k x, some x)

/-- `ReserveNext` pops the oldest pending execution of a task type and parks it. -/
def reserveNext (s : Store) (taskType : String) : Store × Option Execution :=
  reserveLoop taskType (s.queues taskType) s

/-- The execution a pointer obtained from `ReserveNext` shows now, tracked or retired. -/
def deref (s : Store) (x : Execution) : Execution :=
  (((s.find? x.key).filter (·.ref = x.ref)).or (s.retired.find? (·.ref = x.ref))).getD x

/-- `Unreserve` returns a reserved execution to the front of its queue.  A retired
execution is terminal and is not looked at again. -/
def unreserve (s : Store) (x : Execution) : Store :=
  match s.find? x.key with
  | none => s
  | some y =>
    if y.ref ≠ x.ref ∨ y.reserved = false then s
    else
      let s := s.put x.key { y with reserved := false }
      if y.status = .pending ∧ s.queued x.key = false then
        { s with
          queues := Function.update s.queues y.taskType (x.key :: s.queues y.taskType)
          queued := Function.update s.queued x.key true }
      else s

/-- `WaitChan` returns the channel that closes when new work may be available. -/
def waitChan (s : Store) (taskType : String) : Store × ℕ :=
  match s.wake taskType with
  | some ch => (s, ch)
  | none =>
    ({ s with
      wake := Function.update s.wake taskType (some s.chans)
      closed := Function.update s.closed s.chans false
      chans := s.chans + 1 }, s.chans)

/-! ## Completion and expiry -/

/-- `BeginComplete` validates a completion claim and fences the execution.  The answer is
whether the caller may append the completion event, and whether the execution already
completed. -/
def beginComplete (s : Store) (tenant project workflowID : String) (attempt : ℤ) :
    Store × Bool × Bool :=
  let k := sessionKey tenant project workflowID
  match s.find? k with
  | none => (s, false, false)
  | some x =>
    if x.status = .completed then (s, false, true)
    else if x.terminal ∨ x.attempt ≠ attempt ∨ attempt = 0 ∨ x.completing then (s, false, false)
    else (s.put k { x with completing := true }, true, false)

/-- `AbortComplete` releases the completion fence after a failed append. -/
def abortComplete (s : Store) (tenant project workflowID : String) : Store :=
  let k := sessionKey tenant project workflowID
  match s.find? k with
  | none => s
  | some x => s.put k { x with completing := false }

/-- Whether a running execution's lease has expired and nothing is in progress on it. -/
def expired (now : Time) (x : Execution) : Bool :=
  x.status = .running && !x.reserved && !x.completing && x.leaseDeadline < now

/-- `ExpiredLeases`: the expired leases in the order `order` in which the map of running
keys is visited, and the index without keys that are no longer tracked. -/
def expiredLeases (s : Store) (now : Time) (order : List String) : Store × List Execution :=
  ({ s with running := s.running.filter fun k => (s.find? k).isSome },
    order.filterMap fun k => (s.find? k).filter (expired now))

/-! ## What the fold does to each key -/

@[simp] theorem find?_reconcileQueue (s : Store) (k k' : String) (x : Execution) :
    (s.reconcileQueue k x).find? k' = s.find? k' := by
  unfold reconcileQueue
  split <;> rfl

/-- With no retention nothing is evicted. -/
@[simp] theorem evictTerminal_of_nonpos {s : Store} (h : s.retainTerminal ≤ 0) :
    s.evictTerminal = s := by
  simp [evictTerminal, h]

theorem retire_of_nonpos {s : Store} (h : s.retainTerminal ≤ 0) (k : String) (x : Execution) :
    s.retire k x = if x.terminal then { s with terminalQ := s.terminalQ ++ [k] } else s := by
  unfold retire
  split
  · exact evictTerminal_of_nonpos h
  · rfl

@[simp] theorem find?_reindex {s : Store} (h : s.retainTerminal ≤ 0) (k k' : String) (prev : Status)
    (x : Execution) : (s.reindex k prev x).find? k' = s.find? k' := by
  unfold reindex
  split
  · rfl
  · have hn : ((s.recount prev x.status).moveRunning k prev x.status).retainTerminal ≤ 0 := h
    rw [retire_of_nonpos hn]
    split <;> rfl

@[simp] theorem retainTerminal_reconcileQueue (s : Store) (k : String) (x : Execution) :
    (s.reconcileQueue k x).retainTerminal = s.retainTerminal := by
  unfold reconcileQueue
  split <;> rfl

@[simp] theorem retainTerminal_evictLoop (retain : ℤ) (q : List String) (s : Store) :
    (evictLoop retain q s).retainTerminal = s.retainTerminal := by
  fun_induction evictLoop retain q s with
  | case1 => rfl
  | case2 k q s hlt x hx ht ih => exact ih
  | case3 k q s hlt x hx ht ih => exact ih
  | case4 k q s hlt hx ih => exact ih
  | case5 => rfl

@[simp] theorem retainTerminal_reindex (s : Store) (k : String) (prev : Status) (x : Execution) :
    (s.reindex k prev x).retainTerminal = s.retainTerminal := by
  unfold reindex
  split
  · rfl
  · unfold retire evictTerminal
    split
    · split
      · rfl
      · rw [retainTerminal_evictLoop]; rfl
    · rfl

end Store

/-- What folding one envelope of a key does to that key, where a new execution would be
allocated as `ref`. -/
def foldKey (ref : ℕ) (o : Option Execution) (e : Event) : Option Execution :=
  match o with
  | some x => some ((x.apply e).getD x)
  | none => if eventType e = some .submitted then newExecution ref e else none

namespace Store

/-- The three things `Apply` can do. -/
inductive Applies (s : Store) (e : Event) : Store × Bool → Prop
  | ignored (refused : ∀ x, s.find? e.key = some x → x.apply e = none)
      (unusable : s.find? e.key = none → foldKey s.refs none e = none) : Applies s e (s, false)
  | tracked (nx : Execution) (ty : eventType e = some .submitted) (absent : s.find? e.key = none)
      (valid : newExecution s.refs e = some nx) : Applies s e (s.track e.key nx, true)
  | folded (x x' : Execution) (present : s.find? e.key = some x) (changed : x.apply e = some x') :
      Applies s e (((s.put e.key x').reindex e.key x.status x').reconcileQueue e.key x', true)

theorem apply_submitted {x : Execution} {e : Event} (h : eventType e = some .submitted) :
    x.apply e = none := by
  simp [Execution.apply, h]

/-- **Every `Apply` does one of the three.** -/
theorem apply_spec (s : Store) (e : Event) : Applies s e (s.apply e) := by
  unfold apply
  cases hty : eventType e with
  | none =>
    refine .ignored ?_ ?_
    · intro x _
      simp [Execution.apply, hty]
    · intro _
      simp [foldKey, hty]
  | some ty =>
    dsimp only
    cases hx : s.find? e.key with
    | none =>
      dsimp only
      split
      · rename_i hsub
        subst hsub
        cases hn : newExecution s.refs e with
        | none => exact .ignored (by simp [hx]) (by simp [foldKey, hty, hn])
        | some nx => exact .tracked nx hty hx hn
      · rename_i hsub
        exact .ignored (by simp [hx]) (by simp [foldKey, hty, hsub])
    | some x =>
      dsimp only
      split
      · rename_i hsub
        subst hsub
        exact .ignored (fun _ _ => apply_submitted hty) (by simp [hx])
      · cases hap : x.apply e with
        | none => exact .ignored (by simp [hx, hap]) (by simp [hx])
        | some x' => exact .folded x x' hx hap

@[simp] theorem retainTerminal_apply (s : Store) (e : Event) :
    (s.apply e).1.retainTerminal = s.retainTerminal := by
  have hs := apply_spec s e
  generalize s.apply e = r at hs ⊢
  cases hs with
  | ignored refused unusable => rfl
  | tracked nx ty absent valid => simp only [track, retainTerminal_reconcileQueue]; rfl
  | folded x x' present changed =>
    simp only [retainTerminal_reconcileQueue, retainTerminal_reindex]; rfl

@[simp] theorem retainTerminal_applyAll (s : Store) (es : List Event) :
    (s.applyAll es).retainTerminal = s.retainTerminal := by
  induction es generalizing s with
  | nil => rfl
  | cons e es ih => exact (ih _).trans (retainTerminal_apply s e)

/-- **What `Apply` does to each key**, when nothing is retired: it folds the event into
the execution of its own key and leaves every other key alone. -/
theorem find?_apply {s : Store} (h : s.retainTerminal ≤ 0) (e : Event) (k : String) :
    (s.apply e).1.find? k = if k = e.key then foldKey s.refs (s.find? k) e else s.find? k := by
  have hs := apply_spec s e
  generalize s.apply e = r at hs ⊢
  cases hs with
  | ignored refused unusable =>
    by_cases hk : k = e.key
    · subst hk
      cases hx : s.find? e.key with
      | none => simp [unusable hx]
      | some x => simp [foldKey, refused x hx]
    · simp [hk]
  | tracked nx ty absent valid =>
    have hfind : (s.track e.key nx).find? k = (s.put e.key nx).find? k := by
      simp only [track, find?_reconcileQueue]; rfl
    rw [hfind, find?_put]
    by_cases hk : k = e.key
    · subst hk; simp [foldKey, absent, ty, valid]
    · simp [hk]
  | folded x x' present changed =>
    have hput : (s.put e.key x').retainTerminal ≤ 0 := h
    simp only [find?_reconcileQueue, find?_reindex hput, find?_put]
    by_cases hk : k = e.key
    · subst hk; simp [foldKey, present, changed]
    · simp [hk]

end Store
end AgentBus.Workflow
