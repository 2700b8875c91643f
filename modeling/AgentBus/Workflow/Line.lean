import AgentBus.Workflow.History
import AgentBus.Workflow.Queues
import Mathlib.Data.List.Induction

/-!
# The order in which executions are handed out

`ReserveNext` hands out the available executions of a task type in the order of its queue
(`reservations_eq`); the entries it drops on the way do not matter.  What the order is depends on
how the queue came about.  Two orders can be read off a log: by the time an execution last became
pending, and by the time it was submitted.

## Main definitions

* `Store.line` — the available executions of a queue, in order.
* `Store.reservations` — what repeated calls of `ReserveNext` return.
* `byTurn` — the pending executions of a log by the time they became pending.
* `byArrival` — the pending executions of a log by the time they were submitted.
-/

namespace AgentBus.Workflow

open AgentStream

namespace Store

/-- Whether the execution under a key is available. -/
def ready (m : Store) (k : String) : Bool := (m.find? k).any Execution.free

/-- The keys of the available executions of a task type, in the order of the queue. -/
def line (m : Store) (taskType : String) : List String := (m.queues taskType).filter m.ready

/-- What `n` calls of `ReserveNext` return, up to the first that finds nothing. -/
def reservations (taskType : String) : ℕ → Store → List Execution
  | 0, _ => []
  | n + 1, m =>
    match m.reserveNext taskType with
    | (m', some x) => x :: reservations taskType n m'
    | (_, none) => []

/-! ## What `ReserveNext` returns -/

variable {m m' : Store} {taskType : String}

variable {k : String} {x : Execution}

theorem ready_iff : m.ready k = true ↔ ∃ x, m.find? k = some x ∧ x.free = true := by
  unfold ready
  cases m.find? k <;> simp

@[simp] theorem ready_of_find? (hx : m.find? k = some x) : m.ready k = x.free := by
  rw [ready, hx]
  rfl

theorem ready_congr (h : m'.find? k = m.find? k) : m'.ready k = m.ready k := by
  rw [ready, h, ready]

/-- Entries that `ReserveNext` drops are not available. -/
theorem filter_ready_of_stale {ks : List String} (h : ∀ k ∈ ks, m.Stale k) :
    ks.filter m.ready = [] := by
  refine List.filter_eq_nil_iff.mpr ?_
  intro k hk hready
  obtain ⟨x, hx, hfree⟩ := ready_iff.mp hready
  obtain ⟨hpending, hreserved⟩ := Execution.free_iff.mp hfree
  rw [h k hk x hx hpending] at hreserved
  cases hreserved

/-- The execution that `ReserveNext` finds is the front of the line. -/
theorem line_of_found (hnodup : (m.queues taskType).Nodup) {pre rest : List String}
    (split : m.queues taskType = pre ++ k :: rest) (stale : ∀ k' ∈ pre, m.Stale k')
    (present : m.find? k = some x) (pending : x.status = .pending) (free : x.reserved = false)
    (hqueue : m'.queues taskType = rest) (hfind : ∀ k', k' ≠ k → m'.find? k' = m.find? k') :
    m.line taskType = k :: m'.line taskType ∧ (m'.queues taskType).Nodup ∧
      ∀ k' ∈ m'.line taskType, m'.find? k' = m.find? k' := by
  have hready : m.ready k = true :=
    (ready_of_find? present).trans (Execution.free_iff.mpr ⟨pending, free⟩)
  have hline : m.line taskType = k :: rest.filter m.ready := by
    rw [line, split, List.filter_append, filter_ready_of_stale stale, List.nil_append,
      List.filter_cons_of_pos hready]
  rw [split] at hnodup
  obtain ⟨hk, hrest⟩ := List.nodup_cons.mp (List.nodup_append.mp hnodup).2.1
  -- What is left of the queue is looked up as before.
  have hsame : ∀ k' ∈ rest, m'.find? k' = m.find? k' := by
    intro k' hk'
    refine hfind k' ?_
    rintro rfl
    exact hk hk'
  refine ⟨?_, ?_, ?_⟩
  · rw [hline, line, hqueue]
    exact congrArg _ (List.filter_congr fun k' hk' => (ready_congr (hsame k' hk')).symm)
  · rw [hqueue]
    exact hrest
  · intro k' hk'
    rw [line, hqueue] at hk'
    exact hsame k' (List.mem_of_mem_filter hk')

/-- **Repeated calls hand out the line**, from its front. -/
theorem reservations_eq (hnodup : (m.queues taskType).Nodup) (n : ℕ) :
    m.reservations taskType n = ((m.line taskType).take n).filterMap fun k =>
      (m.find? k).map fun x => { x with reserved := true } := by
  induction n generalizing m with
  | zero => rfl
  | succ n ih =>
    have hspec := reserveNext_spec m taskType
    unfold reservations
    generalize m.reserveNext taskType = r at hspec
    cases hspec with
    | nothing stale =>
      rw [line, filter_ready_of_stale stale]
      rfl
    | found pre rest k x split stale present pending free =>
      dsimp only
      generalize hm' : Store.put _ _ _ = m'
      have hqueue : m'.queues taskType = rest := by
        rw [← hm']
        exact Function.update_self ..
      have hother : ∀ k', k' ≠ k → m'.find? k' = m.find? k' := by
        intro k' hne
        rw [← hm', find?_put, if_neg hne]
        rfl
      obtain ⟨hline, hrest, hfind⟩ :=
        line_of_found hnodup split stale present pending free hqueue hother
      rw [ih hrest, hline, List.take_succ_cons, List.filterMap_cons, present, Option.map_some]
      refine congrArg _ (List.filterMap_congr ?_)
      intro k' hk'
      rw [hfind k' (List.mem_of_mem_take hk')]

/-- An available execution whose key is queued is handed out after at most as many calls as the
queue is long. -/
theorem mem_reservations (hx : m.find? k = some x) (hpending : x.status = .pending)
    (hfree : x.reserved = false) (hk : k ∈ m.queues taskType) {n : ℕ}
    (hn : (m.queues taskType).length ≤ n) :
    { x with reserved := true } ∈ m.reservations taskType n := by
  induction n generalizing m with
  | zero =>
    rw [List.eq_nil_of_length_eq_zero (Nat.le_zero.mp hn)] at hk
    cases hk
  | succ n ih =>
    have hlive : ¬ m.Stale k := by
      intro hstale
      rw [hstale x hx hpending] at hfree
      cases hfree
    have hspec := reserveNext_spec m taskType
    unfold reservations
    generalize m.reserveNext taskType = r at hspec
    cases hspec with
    | nothing stale => exact absurd (stale k hk) hlive
    | found pre rest k' x' split stale present pending free =>
      dsimp only
      by_cases hkk : k' = k
      · subst hkk
        rw [hx] at present
        cases present
        exact List.mem_cons_self
      · rw [split] at hk hn
        have hrest : k ∈ rest := by
          rcases List.mem_append.mp hk with hpre | hcons
          · exact absurd (stale k hpre) hlive
          · exact (List.mem_cons.mp hcons).resolve_left (Ne.symm hkk)
        refine List.mem_cons_of_mem _ (ih ?_ ?_ ?_)
        · rw [find?_put, if_neg (Ne.symm hkk)]
          exact hx
        · simpa [put] using hrest
        · simp only [put, Function.update_self]
          simp only [List.length_append, List.length_cons] at hn
          omega

/-- Two stores with the same executions hand them out in the same order when their lines are the
same, and only then. -/
theorem reservations_agree_iff (hnodup : (m.queues taskType).Nodup)
    (hnodup' : (m'.queues taskType).Nodup)
    (hview : ∀ k, (m.find? k).map Execution.folded = (m'.find? k).map Execution.folded)
    (hkeyed : ∀ k x, m.find? k = some x → x.key = k) :
    (∀ n, (m.reservations taskType n).map Execution.folded =
        (m'.reservations taskType n).map Execution.folded) ↔
      m.line taskType = m'.line taskType := by
  have hfolded : ∀ {s : Store}, (s.queues taskType).Nodup →
      (∀ k, (s.find? k).map Execution.folded = (m.find? k).map Execution.folded) → ∀ n,
      (s.reservations taskType n).map Execution.folded =
        ((s.line taskType).take n).filterMap fun k => (m.find? k).map Execution.folded := by
    intro s hs hsview n
    rw [reservations_eq hs, List.map_filterMap]
    refine List.filterMap_congr ?_
    intro k _
    rw [← hsview, Option.map_map]
    rfl
  simp only [hfolded hnodup fun _ => rfl, hfolded hnodup' fun k => (hview k).symm]
  constructor
  · intro h
    -- The keys of what was handed out are the line.
    have hkeys : ∀ {s : Store}, (∀ k, (s.find? k).map Execution.folded =
        (m.find? k).map Execution.folded) →
        ((s.line taskType).filterMap fun k => (m.find? k).map Execution.folded).map
          Execution.key = s.line taskType := by
      intro s hsview
      rw [List.map_filterMap]
      refine (List.filterMap_congr ?_).trans List.filterMap_some
      intro k hk
      obtain ⟨y, hy, -⟩ := ready_iff.mp (List.mem_filter.mp hk).2
      have hsome := hsview k
      rw [hy] at hsome
      obtain ⟨x, hx, -⟩ := Option.map_eq_some_iff.mp hsome.symm
      rw [hx, Option.map_some, Option.map_some]
      exact congrArg some (hkeyed k x hx)
    have hlong := h (max (m.line taskType).length (m'.line taskType).length)
    rw [List.take_of_length_le (le_max_left ..), List.take_of_length_le (le_max_right ..)] at hlong
    rw [← hkeys (s := m) fun _ => rfl, hlong, hkeys (s := m') fun k => (hview k).symm]
  · intro h n
    rw [h]

end Store

/-! ## Two orders of a log -/

/-- Whether there is an execution of the task type that is pending. -/
def pendingOf (taskType : String) (o : Option Execution) : Bool :=
  o.any fun x => x.status = .pending && x.taskType = taskType

/-- A key that waits joins the end of a line unless it is in it; one that does not leaves it. -/
def lineUp (waits : Bool) (k : String) (l : List String) : List String :=
  if waits then if k ∈ l then l else l ++ [k] else l.filter (· ≠ k)

/-- The pending executions of a task type by the time they became pending, with the newest event
first. -/
def byTurnRev (taskType : String) : List Event → List String
  | [] => []
  | e :: es =>
    lineUp (pendingOf taskType (history e.key (e :: es).reverse)) e.key (byTurnRev taskType es)

/-- The pending executions of a task type by the time they last became pending. -/
def byTurn (taskType : String) (es : List Event) : List String := byTurnRev taskType es.reverse

/-- The executions that were submitted, in order. -/
def submitted (es : List Event) : List String := (es.filter fun e => Starts e).map Event.key

/-- The pending executions of a task type by the time they were submitted. -/
def byArrival (taskType : String) (es : List Event) : List String :=
  (submitted es).filter fun k => pendingOf taskType (history k es)

theorem pendingOf_iff {taskType : String} {o : Option Execution} :
    pendingOf taskType o = true ↔
      ∃ x, o = some x ∧ x.status = .pending ∧ x.taskType = taskType := by
  cases o <;> simp [pendingOf]

@[simp] theorem pendingOf_folded (taskType : String) (o : Option Execution) :
    pendingOf taskType (o.map Execution.folded) = pendingOf taskType o := by
  cases o <;> rfl

/-- A key that does not change its place. -/
theorem lineUp_of_mem_iff {waits : Bool} {k : String} {l : List String}
    (h : k ∈ l ↔ waits = true) : lineUp waits k l = l := by
  unfold lineUp
  split
  · rename_i hw
    rw [if_pos (h.mpr hw)]
  · rename_i hw
    refine List.filter_eq_self.mpr ?_
    intro k' hk'
    have hne : k' ≠ k := by
      rintro rfl
      exact hw (h.mp hk')
    simp [hne]

theorem byTurn_concat (taskType : String) (es : List Event) (e : Event) :
    byTurn taskType (es ++ [e]) =
      lineUp (pendingOf taskType (history e.key (es ++ [e]))) e.key (byTurn taskType es) := by
  simp [byTurn, byTurnRev]

theorem submitted_concat (es : List Event) (e : Event) :
    submitted (es ++ [e]) = submitted es ++ if Starts e then [e.key] else [] := by
  rw [submitted, List.filter_append, List.map_append]
  by_cases hs : Starts e <;> simp [submitted, hs]

/-! ## The line of a store and the fold -/

namespace Store

variable {m m' : Store} {k : String} {x x' : Execution}

theorem line_congr {taskType : String} (hqueues : m'.queues taskType = m.queues taskType)
    (hready : ∀ k ∈ m.queues taskType, m'.ready k = m.ready k) :
    m'.line taskType = m.line taskType := by
  rw [line, hqueues]
  exact List.filter_congr hready

@[simp] theorem ready_put (m : Store) (k k' : String) (x : Execution) :
    (m.put k x).ready k' = if k' = k then x.free else m.ready k' := by
  rw [ready, find?_put]
  split
  · rfl
  · rfl

/-- An execution that is as available as before leaves the line as it is. -/
theorem line_put_of_eq (hfree : x'.free = m.ready k) (taskType : String) :
    (m.put k x').line taskType = m.line taskType := by
  refine line_congr rfl ?_
  intro k' _
  rw [ready_put]
  split
  · rename_i hk
    rw [hk, hfree]
  · rfl

/-- The completion fence does not matter to the line. -/
theorem line_fence (hx : m.find? k = some x) (completing : Bool) (taskType : String) :
    (m.put k { x with completing := completing }).line taskType = m.line taskType := by
  refine line_put_of_eq ?_ taskType
  rw [ready_of_find? hx]
  rfl

@[simp] theorem line_waitChan (m : Store) (ty taskType : String) :
    (m.waitChan ty).1.line taskType = m.line taskType := by
  unfold waitChan
  split <;> rfl

/-- `ReserveNext` found nothing: there was no line. -/
theorem line_of_nothing {ty : String} (stale : ∀ k ∈ m.queues ty, m.Stale k) (taskType : String) :
    Store.line { m.unqueue (m.queues ty) with queues := Function.update m.queues ty [] } taskType =
      m.line taskType := by
  by_cases hty : taskType = ty
  · subst hty
    rw [line, line, filter_ready_of_stale stale]
    dsimp only
    rw [Function.update_self]
    rfl
  · rw [line, line]
    dsimp only
    rw [Function.update_of_ne hty]
    rfl

/-- An execution that is not available leaves the line. -/
theorem line_put_of_not_free (hfree : x'.free = false) (taskType : String) :
    (m.put k x').line taskType = (m.line taskType).filter (· ≠ k) := by
  have hqueues : (m.put k x').queues = m.queues := rfl
  rw [line, line, List.filter_filter, hqueues]
  refine List.filter_congr ?_
  intro k' _
  rw [ready_put]
  by_cases hk : k' = k
  · simp [hk, hfree]
  · simp [hk]

/-- The line of the task type without a key. -/
@[simp] theorem filter_ready_of_not_mem (hfind : ∀ k', k' ≠ k → m'.find? k' = m.find? k')
    {taskType : String} (hk : k ∉ m.queues taskType) :
    (m.queues taskType).filter m'.ready = m.line taskType := by
  refine List.filter_congr ?_
  intro k' hk'
  refine ready_congr (hfind k' ?_)
  rintro rfl
  exact hk hk'

/-- `ReserveNext` takes the front of the line of its task type. -/
theorem line_reserved (h : m.Lined) {ty : String} {pre rest : List String}
    (split : m.queues ty = pre ++ k :: rest) (stale : ∀ k' ∈ pre, m.Stale k')
    (present : m.find? k = some x) (pending : x.status = .pending) (free : x.reserved = false)
    (hqueues : m'.queues = Function.update m.queues ty rest)
    (hfind : ∀ k', k' ≠ k → m'.find? k' = m.find? k') (taskType : String) :
    m.line taskType = (if ty = taskType then [k] else []) ++ m'.line taskType := by
  by_cases hty : ty = taskType
  · subst hty
    have hqueue : m'.queues ty = rest := by
      rw [hqueues]
      exact Function.update_self ..
    rw [if_pos rfl]
    exact (line_of_found (h.nodup ty) split stale present pending free hqueue hfind).1
  · have hother : k ∉ m.queues taskType := by
      intro hk
      exact hty (h.queue_unique (by rw [split]; simp) hk)
    rw [if_neg hty, List.nil_append, ← filter_ready_of_not_mem hfind hother, line, hqueues,
      Function.update_of_ne (Ne.symm hty)]

/-- `Unreserve` puts the execution at the front of the line of its task type. -/
theorem line_unreserve (h : m.Lined) (hx : m.find? x.key = some x) (hpending : x.status = .pending)
    (hres : x.reserved = true) (taskType : String) :
    (m.unreserve x).line taskType =
      (if x.taskType = taskType then [x.key] else []) ++ m.line taskType := by
  have hqueued := h.queued_of_reserved hx hpending hres
  have heq := unreserve_of_find? hx hpending hres hqueued
  have hqueues : (m.unreserve x).queues =
      Function.update m.queues x.taskType (x.key :: m.queues x.taskType) := by
    rw [heq]
  have hfind : ∀ k', (m.unreserve x).find? k' =
      if k' = x.key then some { x with reserved := false } else m.find? k' := by
    intro k'
    rw [heq, ← find?_put]
    rfl
  have hold : (m.queues taskType).filter (m.unreserve x).ready = m.line taskType :=
    filter_ready_of_not_mem (fun k' hne => (hfind k').trans (if_neg hne))
      (h.not_mem_queues hqueued taskType)
  have hready : (m.unreserve x).ready x.key = true := by
    rw [ready_of_find? ((hfind _).trans (if_pos rfl))]
    exact Execution.free_iff.mpr ⟨hpending, rfl⟩
  rw [line, hqueues]
  by_cases hty : x.taskType = taskType
  · subst hty
    rw [Function.update_self, List.filter_cons_of_pos hready, hold, if_pos rfl]
    rfl
  · rw [Function.update_of_ne (Ne.symm hty), hold, if_neg hty]
    rfl

/-- A new entry goes to the end of the line of its task type. -/
theorem line_reconcileQueue_of_new (hq : m.queued k = false) (hnew : ∀ ty, k ∉ m.queues ty)
    (hfree : x'.free = true) (taskType : String) :
    ((m.put k x').reconcileQueue k x').line taskType =
      m.line taskType ++ if x'.taskType = taskType then [k] else [] := by
  have hfind : ∀ k', ((m.put k x').reconcileQueue k x').find? k' =
      if k' = k then some x' else m.find? k' := by
    intro k'
    rw [find?_reconcileQueue, find?_put]
  obtain ⟨hqueues, -⟩ := reconcileQueue_of_new (m := m.put k x') hq hfree
  generalize (m.put k x').reconcileQueue k x' = m' at hfind hqueues
  have hold : (m.queues taskType).filter m'.ready = m.line taskType :=
    filter_ready_of_not_mem (fun k' hne => (hfind k').trans (if_neg hne)) (hnew taskType)
  have hready : m'.ready k = true := by
    rw [ready_of_find? ((hfind k).trans (if_pos rfl))]
    exact hfree
  rw [line, hqueues]
  by_cases hty : x'.taskType = taskType
  · subst hty
    rw [Function.update_self, if_pos rfl, List.filter_append]
    exact congrArg₂ _ hold (List.filter_cons_of_pos hready)
  · rw [Function.update_of_ne (Ne.symm hty), if_neg hty, List.append_nil]
    exact hold

/-- **Writing an execution lines it up**, when it is put into its queue as it is due. -/
theorem line_reconcileQueue (hres : x'.status = .pending → x'.reserved = false)
    (hqueued : m.queued k = true → m.ready k = true ∧ k ∈ m.queues x'.taskType)
    (hentry : ∀ ty, k ∈ m.queues ty → m.queued k = true ∧ ty = x'.taskType) (taskType : String) :
    ((m.put k x').reconcileQueue k x').line taskType =
      lineUp (pendingOf taskType (some x')) k (m.line taskType) := by
  by_cases hpending : x'.status = .pending
  · have hfree : x'.free = true := Execution.free_iff.mpr ⟨hpending, hres hpending⟩
    have hmem : k ∈ m.line taskType ↔ m.queued k = true ∧ taskType = x'.taskType := by
      rw [line, List.mem_filter]
      constructor
      · intro hk
        exact hentry taskType hk.1
      · rintro ⟨hq, rfl⟩
        exact ⟨(hqueued hq).2, (hqueued hq).1⟩
    cases hq : m.queued k with
    | true =>
      rw [reconcileQueue_of_queued (m := m.put k x') hq,
        line_put_of_eq (hfree.trans (hqueued hq).1.symm), lineUp_of_mem_iff]
      simp [hmem, hq, pendingOf, hpending, eq_comm]
    | false =>
      have hnew : ∀ ty, k ∉ m.queues ty := by
        intro ty hk
        rw [(hentry ty hk).1] at hq
        cases hq
      have hk : k ∉ m.line taskType := fun hk => hnew taskType (List.mem_of_mem_filter hk)
      rw [line_reconcileQueue_of_new hq hnew hfree]
      by_cases hty : x'.taskType = taskType
      · simp [lineUp, pendingOf, hpending, hk, hty]
      · rw [if_neg hty, List.append_nil, lineUp_of_mem_iff]
        simp [hk, pendingOf, hty]
  · have hfree : x'.free = false := by simp [Execution.free, hpending]
    rw [reconcileQueue, if_neg (fun h => hpending h.1), line_put_of_not_free hfree]
    simp [lineUp, pendingOf, hpending]

/-- A fold does not reserve an execution. -/
theorem reserved_eq_false_of_folds {e : Event} (h : Execution.Folds x e x')
    (hx : x.reserved = false) : x'.reserved = false := by
  cases h with
  | leased p ty payload status attempt => rfl
  | heartbeat | completed | failed | retry | dead => exact hx

/-- **The fold lines an execution up.**  An execution that is reserved has to be one that the event
leases or ends. -/
theorem line_apply (hret : m.retainTerminal ≤ 0) (hidx : m.Indexed) (h : m.Lined) {e : Event}
    (hres : ∀ x, m.find? e.key = some x → x.reserved = true →
      ∃ x', Execution.Folds x e x' ∧ x'.status ≠ .pending) (taskType : String) :
    (m.apply e).1.line taskType =
      lineUp (pendingOf taskType ((m.apply e).1.find? e.key)) e.key (m.line taskType) := by
  have hkeep := apply_keeping hret e
  generalize (m.apply e).1 = m' at hkeep
  cases hkeep with
  | ignored refused =>
    refine (lineUp_of_mem_iff ?_).symm
    rw [line, List.mem_filter]
    constructor
    · rintro ⟨hk, hready⟩
      obtain ⟨-, x, hx, rfl⟩ := h.entry taskType _ hk
      rw [ready_of_find? hx, Execution.free_iff] at hready
      simp [pendingOf, hx, hready.1]
    · intro hwaits
      obtain ⟨x, hx, hpending, rfl⟩ := pendingOf_iff.mp hwaits
      have hfree : x.reserved = false := by
        refine Bool.eq_false_iff.mpr ?_
        intro hr
        obtain ⟨x', hfolds, -⟩ := hres x hx hr
        exact refused x x' hx hfolds
      rw [ready_of_find? hx, Execution.free_iff]
      exact ⟨hidx.pending _ x hx hpending hfree, hpending, hfree⟩
  | created nx ty absent valid =>
    have hqueued := hidx.queued_eq_false absent
    have hnew := h.not_mem_queues hqueued
    have hpending : nx.status = .pending → nx.reserved = false :=
      fun _ => (newExecution_spec valid).2.2.1
    have hline := line_reconcileQueue hpending (by simp [hqueued])
      (fun ty hk => absurd hk (hnew ty)) taskType
    have hfind : Store.find? ((m.put e.key nx).reconcileQueue e.key nx) e.key = some nx := by
      rw [find?_reconcileQueue, find?_put_self]
    exact hline.trans (by rw [← hfind]; rfl)
  | folded x x' terminalQ present folds =>
    have hpending : x'.status = .pending → x'.reserved = false := by
      intro hp
      cases hr : x.reserved with
      | true =>
        obtain ⟨x'', hfolds, hne⟩ := hres x present hr
        rw [← Execution.apply_eq_some_iff] at folds hfolds
        rw [folds] at hfolds
        cases hfolds
        exact absurd hp hne
      | false => exact reserved_eq_false_of_folds folds hr
    have hqueued : m.queued e.key = true →
        m.ready e.key = true ∧ e.key ∈ m.queues x'.taskType := by
      intro hq
      obtain ⟨y, hy, hmem⟩ := hidx.queued _ hq
      rw [present] at hy
      cases hy
      rw [(sameWork_of_folds folds).taskType, ready_of_find? present]
      exact ⟨h.free_of_queued present folds.live hq, hmem⟩
    have hentry : ∀ ty, e.key ∈ m.queues ty → m.queued e.key = true ∧ ty = x'.taskType := by
      intro ty hk
      obtain ⟨hq, y, hy, rfl⟩ := h.entry ty _ hk
      rw [present] at hy
      cases hy
      exact ⟨hq, (sameWork_of_folds folds).taskType.symm⟩
    have hline := line_reconcileQueue hpending hqueued hentry taskType
    have hfind : Store.find? ((m.put e.key x').reconcileQueue e.key x') e.key = some x' := by
      rw [find?_reconcileQueue, find?_put_self]
    exact hline.trans (by rw [← hfind]; rfl)

end Store

end AgentBus.Workflow
