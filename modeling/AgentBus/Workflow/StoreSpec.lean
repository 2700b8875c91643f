import AgentBus.Workflow.Store

/-!
# What the store operations do

One specification for each method of the store, in terms of what a lookup, the queues and
the index of running executions answer afterwards.  The invariants of the coordinator are
proved from these alone.

## Main definitions

* `Store.Evicts` — dropping terminal executions.
* `Store.Updates`, `Store.Outcome` — `Apply`, under any retention.
* `Store.Written`, `Store.find?_apply_cases` — `Apply`, seen from one key.
* `Store.Stale`, `Store.Reserves` — `ReserveNext`.
* `Store.Begins` — `BeginComplete`.
-/

namespace AgentBus.Workflow

open AgentStream

namespace Store

/-! ## Eviction -/

/-- The store `s'` is `s` without the terminal executions under the keys `gone`. -/
structure Evicts (s s' : Store) (gone : List String) : Prop where
  terminal : ∀ k ∈ gone, ∃ x, s.find? k = some x ∧ x.terminal = true
  find? : ∀ k, s'.find? k = if k ∈ gone then none else s.find? k
  queued : ∀ k, s'.queued k = if k ∈ gone then false else s.queued k
  queues : s'.queues = s.queues

variable {s : Store} {k k' : String} {x x' : Execution}

theorem Evicts.of_eq {s' : Store} (hexecs : s'.execs = s.execs) (hqueued : s'.queued = s.queued)
    (hqueues : s'.queues = s.queues) : Evicts s s' [] := by
  refine ⟨by simp, ?_, ?_, hqueues⟩
  · intro k
    simp [Store.find?, hexecs]
  · intro k
    simp [hqueued]

theorem find?_erase (s : Store) (k k' : String) :
    (s.execs.erase k).lookup k' = if k' = k then none else s.find? k' := by
  by_cases h : k' = k
  · subst h; simp [AList.lookup_erase]
  · simp [find?, AList.lookup_erase_ne h, h]

theorem evictLoop_spec (retain : ℤ) (q : List String) (s : Store) :
    ∃ gone, Evicts s (evictLoop retain q s) gone := by
  fun_induction evictLoop retain q s with
  | case1 s => exact ⟨[], .of_eq rfl rfl rfl⟩
  | case2 k q s hlt x hx ht ih =>
    obtain ⟨gone, h⟩ := ih
    have herase : ∀ k', Store.find? { s with
        counts := Function.update s.counts x.status (s.counts x.status - 1)
        execs := s.execs.erase k
        retired := x :: s.retired
        queued := Function.update s.queued k false } k' =
          if k' = k then none else s.find? k' := find?_erase s k
    refine ⟨k :: gone, ?_, ?_, ?_, h.queues⟩
    · intro k' hk'
      by_cases hkk : k' = k
      · exact ⟨x, hkk ▸ hx, ht⟩
      · obtain ⟨y, hy, hty⟩ := h.terminal k' ((List.mem_cons.mp hk').resolve_left hkk)
        rw [herase, if_neg hkk] at hy
        exact ⟨y, hy, hty⟩
    · intro k'
      rw [h.find?, herase]
      by_cases hkk : k' = k <;> simp [hkk]
    · intro k'
      rw [h.queued]
      by_cases hkk : k' = k <;> simp [hkk, Function.update_of_ne]
  | case3 k q s hlt x hx ht ih => exact ih
  | case4 k q s hlt hx ih => exact ih
  | case5 k q s hlt => exact ⟨[], .of_eq rfl rfl rfl⟩

theorem evictTerminal_spec (s : Store) :
    ∃ gone, Evicts s s.evictTerminal gone ∧ (s.retainTerminal ≤ 0 → gone = []) := by
  unfold evictTerminal
  split
  · exact ⟨[], .of_eq rfl rfl rfl, fun _ => rfl⟩
  · rename_i hret
    obtain ⟨gone, h⟩ := evictLoop_spec s.retainTerminal s.terminalQ s
    exact ⟨gone, h, fun h0 => absurd h0 hret⟩

@[simp] theorem running_evictLoop (retain : ℤ) (q : List String) (s : Store) :
    (evictLoop retain q s).running = s.running := by
  fun_induction evictLoop retain q s with
  | case1 => rfl
  | case2 k q s hlt x hx ht ih => exact ih
  | case3 k q s hlt x hx ht ih => exact ih
  | case4 k q s hlt hx ih => exact ih
  | case5 => rfl

@[simp] theorem running_retire (s : Store) (k : String) (x : Execution) :
    (s.retire k x).running = s.running := by
  unfold retire evictTerminal
  split
  · split
    · rfl
    · rw [running_evictLoop]
  · rfl

/-- The index updates of a fold drop terminal executions and nothing else. -/
theorem reindex_spec (s : Store) (k : String) (prev : Status) (x : Execution) :
    ∃ gone, Evicts s (s.reindex k prev x) gone ∧ (s.retainTerminal ≤ 0 → gone = []) := by
  unfold reindex
  split
  · exact ⟨[], .of_eq rfl rfl rfl, fun _ => rfl⟩
  · unfold retire
    split
    · obtain ⟨gone, h, hkept⟩ := evictTerminal_spec
        { (s.recount prev x.status).moveRunning k prev x.status with
          terminalQ := s.terminalQ ++ [k] }
      exact ⟨gone, ⟨h.terminal, h.find?, h.queued, h.queues⟩, hkept⟩
    · exact ⟨[], .of_eq rfl rfl rfl, fun _ => rfl⟩

theorem mem_leaveRunning_of_ne (h : k' ≠ k) (prev : Status) {l : List String} (hmem : k' ∈ l) :
    k' ∈ leaveRunning prev k l := by
  unfold leaveRunning
  split
  · simp [hmem, h]
  · exact hmem

theorem mem_enterRunning_of_mem (next : Status) {l : List String} (hmem : k' ∈ l) :
    k' ∈ enterRunning next k l := by
  unfold enterRunning
  split
  · exact List.mem_append_left _ hmem
  · exact hmem

theorem mem_enterRunning_self (k : String) (l : List String) :
    k ∈ enterRunning .running k l := by
  unfold enterRunning
  by_cases hmem : k ∈ l <;> simp [hmem]

theorem mem_running_reindex_of_ne (h : k' ≠ k) (prev : Status) (x : Execution)
    (hmem : k' ∈ s.running) : k' ∈ (s.reindex k prev x).running := by
  unfold reindex
  split
  · exact hmem
  · rw [running_retire]
    exact mem_enterRunning_of_mem _ (mem_leaveRunning_of_ne h prev hmem)

/-- An execution that is running after a fold is in the index. -/
theorem mem_running_reindex {prev : Status} (hx : x.status = .running)
    (hprev : prev = .running → k ∈ s.running) : k ∈ (s.reindex k prev x).running := by
  unfold reindex
  split
  · rename_i heq
    exact hprev (heq ▸ hx)
  · rw [running_retire, hx]
    exact mem_enterRunning_self k _

/-! ## The fold -/

/-- The store `s'` tracks `x'` under `k`, its indexes follow, and the terminal
executions under `gone` are dropped. -/
structure Updates (s : Store) (k : String) (x' : Execution) (s' : Store) (gone : List String) :
    Prop where
  kept : s.retainTerminal ≤ 0 → gone = []
  terminal : ∀ k' ∈ gone, ∃ y, (s.put k x').find? k' = some y ∧ y.terminal = true
  find? : ∀ k', s'.find? k' = if k' ∈ gone then none else (s.put k x').find? k'
  queues : ∀ ty k', k' ∈ s.queues ty → k' ∈ s'.queues ty
  queued : ∀ k', s'.queued k' = true →
    k' ∉ gone ∧ (s.queued k' = true ∨ (k' = k ∧ k ∈ s'.queues x'.taskType))
  pending : x'.status = .pending → x'.reserved = false → s'.queued k = true
  running : ∀ k', k' ≠ k → k' ∈ s.running → k' ∈ s'.running

/-- The queue step after the indexes were updated and terminal executions dropped. -/
theorem updates_reconcileQueue {m : Store} {gone : List String} (hev : Evicts (s.put k x') m gone)
    (hkept : s.retainTerminal ≤ 0 → gone = [])
    (hrun : ∀ k', k' ≠ k → k' ∈ s.running → k' ∈ m.running) :
    Updates s k x' (m.reconcileQueue k x') gone := by
  have hqueues : m.queues = s.queues := hev.queues
  have hqueued : ∀ k', m.queued k' = if k' ∈ gone then false else s.queued k' := hev.queued
  have hk : x'.status = .pending → k ∉ gone := by
    intro hp hgone
    obtain ⟨y, hy, hty⟩ := hev.terminal k hgone
    rw [find?_put_self] at hy
    cases hy
    simp [Execution.terminal, hp] at hty
  refine ⟨hkept, hev.terminal, ?_, ?_, ?_, ?_, ?_⟩
  · intro k'
    rw [find?_reconcileQueue, hev.find?]
  · intro ty k' hmem
    unfold reconcileQueue
    split
    · by_cases hty : ty = x'.taskType
      · subst hty
        simp [hqueues, hmem]
      · simpa [Function.update_of_ne hty, hqueues] using hmem
    · simpa [hqueues] using hmem
  · intro k' hk'
    unfold reconcileQueue at hk' ⊢
    split at hk'
    · rename_i hcond
      rw [if_pos hcond]
      by_cases hkk : k' = k
      · subst hkk
        exact ⟨hk hcond.1, .inr ⟨rfl, by simp⟩⟩
      · simp only [Function.update_of_ne hkk, hqueued] at hk'
        split at hk'
        · cases hk'
        · rename_i hg
          exact ⟨hg, .inl hk'⟩
    · rw [hqueued] at hk'
      split at hk'
      · cases hk'
      · rename_i hg
        exact ⟨hg, .inl hk'⟩
  · intro hp hr
    unfold reconcileQueue
    by_cases hq : m.queued k = false
    · simp [hp, hr, hq]
    · simp [hp, hr, hq]
  · intro k' hne hmem
    have := hrun k' hne hmem
    unfold reconcileQueue
    split <;> exact this

/-- What `Apply` leads to, under any retention. -/
inductive Outcome (s : Store) (e : Event) : Store → Prop
  | ignored (refused : ∀ x x', s.find? e.key = some x → ¬ Execution.Folds x e x') : Outcome s e s
  | created (nx : Execution) (s' : Store) (gone : List String)
      (ty : eventType e = some .submitted) (absent : s.find? e.key = none)
      (valid : newExecution s.refs e = some nx) (update : Updates s e.key nx s' gone) :
      Outcome s e s'
  | folded (x x' : Execution) (s' : Store) (gone : List String)
      (present : s.find? e.key = some x) (folds : Execution.Folds x e x')
      (update : Updates s e.key x' s' gone)
      (running : x'.status = .running → (x.status = .running → e.key ∈ s.running) →
        e.key ∈ s'.running) : Outcome s e s'

/-- **Every `Apply` has one of the outcomes.** -/
theorem apply_outcome (s : Store) (e : Event) : Outcome s e (s.apply e).1 := by
  have hs := apply_spec s e
  generalize s.apply e = r at hs
  cases hs with
  | ignored refused unusable =>
    refine .ignored ?_
    intro x x' hx hf
    have hap := refused x hx
    rw [Execution.apply_eq_some_iff.mpr hf] at hap
    cases hap
  | tracked nx ty absent valid =>
    exact .created nx _ [] ty absent valid
      (updates_reconcileQueue (.of_eq rfl rfl rfl) (fun _ => rfl) fun _ _ h => h)
  | folded x x' present changed =>
    obtain ⟨gone, hev, hkept⟩ := reindex_spec (s.put e.key x') e.key x.status x'
    refine .folded x x' _ gone present (Execution.apply_eq_some_iff.mp changed)
      (updates_reconcileQueue hev hkept fun _ hne hmem =>
        mem_running_reindex_of_ne hne _ _ hmem) ?_
    intro hrun hprev
    have hmem := mem_running_reindex (s := s.put e.key x') hrun hprev
    unfold reconcileQueue
    split <;> exact hmem

/-- What `Apply` writes under one key, before anything is dropped. -/
inductive Written (s : Store) (e : Event) (k : String) : Option Execution → Prop
  | same (refused : k = e.key → ∀ x x', s.find? k = some x → ¬ Execution.Folds x e x') :
      Written s e k (s.find? k)
  | created (nx : Execution) (key : k = e.key) (ty : eventType e = some .submitted)
      (absent : s.find? k = none) (valid : newExecution s.refs e = some nx) :
      Written s e k (some nx)
  | folded (x x' : Execution) (key : k = e.key) (present : s.find? k = some x)
      (folds : Execution.Folds x e x') : Written s e k (some x')

/-- The lookup after an update of the store by a fold. -/
theorem Updates.find?_cases {s' : Store} {gone : List String} (h : Updates s k x' s' gone)
    (k' : String) :
    s'.find? k' = (s.put k x').find? k' ∨
      (0 < s.retainTerminal ∧ s'.find? k' = none ∧
        ∃ y, (s.put k x').find? k' = some y ∧ y.terminal = true) := by
  by_cases hgone : k' ∈ gone
  · refine .inr ⟨?_, by rw [h.find?, if_pos hgone], h.terminal k' hgone⟩
    by_contra hret
    rw [h.kept (by omega)] at hgone
    cases hgone
  · exact .inl (by rw [h.find?, if_neg hgone])

/-- **What is found under one key after `Apply`**: what was written there, unless it has finished
and is dropped. -/
theorem find?_apply_cases (s : Store) (e : Event) (k : String) :
    ∃ o, Written s e k o ∧
      ((s.apply e).1.find? k = o ∨
        (0 < s.retainTerminal ∧ (s.apply e).1.find? k = none ∧
          ∃ y, o = some y ∧ y.terminal = true)) := by
  have hout := apply_outcome s e
  generalize (s.apply e).1 = m at hout
  cases hout with
  | ignored refused => exact ⟨_, .same fun hk => hk ▸ refused, .inl rfl⟩
  | created nx m gone ty absent valid update =>
    refine ⟨_, ?_, update.find?_cases k⟩
    rw [find?_put]
    split
    · rename_i hk
      exact .created nx hk ty (hk ▸ absent) valid
    · rename_i hk
      exact .same fun h => absurd h hk
  | folded x x' m gone present folds update running =>
    refine ⟨_, ?_, update.find?_cases k⟩
    rw [find?_put]
    split
    · rename_i hk
      exact .folded x x' hk (hk ▸ present) folds
    · rename_i hk
      exact .same fun h => absurd h hk

/-- An execution that accepts an event is folded. -/
theorem find?_apply_of_folds {e : Event} (hx : s.find? e.key = some x)
    (h : Execution.Folds x e x') :
    (s.apply e).1.find? e.key = some x' ∨
      ((s.apply e).1.find? e.key = none ∧ x'.terminal = true) := by
  obtain ⟨o, hwritten, hfind⟩ := find?_apply_cases s e e.key
  have ho : o = some x' := by
    cases hwritten with
    | same refused => exact absurd h (refused rfl x x' hx)
    | created nx key ty absent valid =>
      rw [absent] at hx
      cases hx
    | folded y y' key present folds =>
      rw [hx] at present
      cases present
      exact (Execution.apply_eq_some_iff.mpr folds).symm.trans
        (Execution.apply_eq_some_iff.mpr h)
  subst ho
  rcases hfind with hfind | ⟨-, hnone, y, heq, hterm⟩
  · exact .inl hfind
  · cases heq
    exact .inr ⟨hnone, hterm⟩

/-- A live execution leaves the store only when a fold ends it. -/
theorem find?_apply_of_live (hx : s.find? k = some x) (hlive : x.terminal = false) (e : Event) :
    (s.apply e).1.find? k = some x ∨
      (k = e.key ∧ ∃ x', Execution.Folds x e x' ∧
        ((s.apply e).1.find? k = some x' ∨
          ((s.apply e).1.find? k = none ∧ x'.terminal = true))) := by
  obtain ⟨o, hwritten, hfind⟩ := find?_apply_cases s e k
  cases hwritten with
  | same refused =>
    rcases hfind with hfind | ⟨-, -, y, hy, hterm⟩
    · exact .inl (hfind.trans hx)
    · rw [hx] at hy
      cases hy
      rw [hlive] at hterm
      cases hterm
  | created nx key ty absent valid =>
    rw [absent] at hx
    cases hx
  | folded y x' key present folds =>
    rw [hx] at present
    cases present
    refine .inr ⟨key, x', folds, ?_⟩
    rcases hfind with hfind | ⟨-, hnone, y, heq, hterm⟩
    · exact .inl hfind
    · cases heq
      exact .inr ⟨hnone, hterm⟩

/-! ## The fold when nothing is retired -/

/-- The counts after one execution went from status `prev` to status `next`. -/
def recounted (counts : Status → ℤ) (prev next : Status) : Status → ℤ :=
  if next = prev then counts
  else
    let left := Function.update counts prev (counts prev - 1)
    Function.update left next (left next + 1)

/-- The running keys after the execution under `k` went from status `prev` to status `next`. -/
def reran (k : String) (prev next : Status) (running : List String) : List String :=
  if next = prev then running else enterRunning next k (leaveRunning prev k running)

theorem reindex_of_nonpos (h : s.retainTerminal ≤ 0) (k : String) (prev : Status) (x : Execution) :
    ∃ terminalQ, s.reindex k prev x =
      { s with
        counts := recounted s.counts prev x.status
        running := reran k prev x.status s.running
        terminalQ := terminalQ } := by
  by_cases hst : x.status = prev
  · refine ⟨s.terminalQ, ?_⟩
    simp only [reindex, recounted, reran, if_pos hst]
  · refine ⟨if x.terminal then s.terminalQ ++ [k] else s.terminalQ, ?_⟩
    have hn : ((s.recount prev x.status).moveRunning k prev x.status).retainTerminal ≤ 0 := h
    simp only [reindex, recounted, reran, if_neg hst, retire_of_nonpos hn]
    split <;> rfl

/-- What `Apply` leads to when nothing is retired: the execution is written, its key is put into
the queue when it is due, and the counts and the running keys follow its status. -/
inductive Keeping (s : Store) (e : Event) : Store → Prop
  | ignored (refused : ∀ x x', s.find? e.key = some x → ¬ Execution.Folds x e x') : Keeping s e s
  | created (nx : Execution) (ty : eventType e = some .submitted) (absent : s.find? e.key = none)
      (valid : newExecution s.refs e = some nx) :
      Keeping s e { (s.put e.key nx).reconcileQueue e.key nx with
        refs := s.refs + 1
        counts := Function.update s.counts nx.status (s.counts nx.status + 1) }
  | folded (x x' : Execution) (terminalQ : List String) (present : s.find? e.key = some x)
      (folds : Execution.Folds x e x') :
      Keeping s e { (s.put e.key x').reconcileQueue e.key x' with
        counts := recounted s.counts x.status x'.status
        running := reran e.key x.status x'.status s.running
        terminalQ := terminalQ }

/-- **`Apply` when nothing is retired.** -/
theorem apply_keeping (hret : s.retainTerminal ≤ 0) (e : Event) : Keeping s e (s.apply e).1 := by
  have hs := apply_spec s e
  generalize s.apply e = r at hs
  cases hs with
  | ignored refused unusable =>
    refine .ignored ?_
    intro x x' hx hf
    rw [← Execution.apply_eq_some_iff, refused x hx] at hf
    cases hf
  | tracked nx ty absent valid =>
    have heq : s.track e.key nx = { (s.put e.key nx).reconcileQueue e.key nx with
        refs := s.refs + 1
        counts := Function.update s.counts nx.status (s.counts nx.status + 1) } := by
      simp only [track, reconcileQueue]
      split <;> rfl
    rw [heq]
    exact .created nx ty absent valid
  | folded x x' present changed =>
    obtain ⟨terminalQ, hreindex⟩ :=
      reindex_of_nonpos (s := s.put e.key x') hret e.key x.status x'
    have heq : ((s.put e.key x').reindex e.key x.status x').reconcileQueue e.key x' =
        { (s.put e.key x').reconcileQueue e.key x' with
          counts := recounted s.counts x.status x'.status
          running := reran e.key x.status x'.status s.running
          terminalQ := terminalQ } := by
      rw [hreindex]
      simp only [reconcileQueue]
      split <;> rfl
    rw [heq]
    exact .folded x x' terminalQ present (Execution.apply_eq_some_iff.mp changed)

/-! ## Reservation -/

/-- A pointer to an execution that is still tracked shows it. -/
theorem deref_of_find? {y : Execution} (hy : s.find? x.key = some y) (href : y.ref = x.ref) :
    s.deref x = y := by
  simp [deref, hy, href, Option.filter]

/-- A queue entry that `ReserveNext` drops. -/
def Stale (s : Store) (k : String) : Prop :=
  ∀ x, s.find? k = some x → x.status = .pending → x.reserved = true

/-- The store after the entries `ks` were popped. -/
def unqueue (s : Store) (ks : List String) : Store :=
  { s with queued := fun k => if k ∈ ks then false else s.queued k }

/-- What `ReserveNext` does with the queue `q` of a task type. -/
inductive Reserves (s : Store) (taskType : String) (q : List String) :
    Store × Option Execution → Prop
  | nothing (stale : ∀ k ∈ q, s.Stale k) :
      Reserves s taskType q
        ({ s.unqueue q with queues := Function.update s.queues taskType [] }, none)
  | found (pre rest : List String) (k : String) (x : Execution) (split : q = pre ++ k :: rest)
      (stale : ∀ k' ∈ pre, s.Stale k') (present : s.find? k = some x)
      (pending : x.status = .pending) (free : x.reserved = false) :
      Reserves s taskType q
        (({ s.unqueue (pre ++ [k]) with
            queues := Function.update s.queues taskType rest }).put k { x with reserved := true },
          some { x with reserved := true })

theorem unqueue_cons (s : Store) (k : String) (ks : List String) :
    Store.unqueue { s with queued := Function.update s.queued k false } ks =
      s.unqueue (k :: ks) := by
  simp only [unqueue, Store.mk.injEq, true_and, and_true]
  funext k'
  by_cases h : k' = k
  · simp [h]
  · simp [h]

theorem reserveLoop_spec (taskType : String) (q : List String) (s : Store) :
    Reserves s taskType q (reserveLoop taskType q s) := by
  induction q generalizing s with
  | nil => exact .nothing (by simp)
  | cons k q ih =>
    have hskip : s.Stale k →
        Reserves s taskType (k :: q)
          (reserveLoop taskType q { s with queued := Function.update s.queued k false }) := by
      intro hstale
      have h := ih { s with queued := Function.update s.queued k false }
      generalize reserveLoop taskType q _ = r at h
      cases h with
      | nothing stale =>
        rw [unqueue_cons]
        refine .nothing ?_
        intro k' hk'
        rcases List.mem_cons.mp hk' with rfl | hk'
        · exact hstale
        · exact stale k' hk'
      | found pre rest k' x split stale present pending free =>
        rw [unqueue_cons]
        refine .found (k :: pre) rest k' x (by simp [split]) ?_ present pending free
        intro k'' hk''
        rcases List.mem_cons.mp hk'' with rfl | hk''
        · exact hstale
        · exact stale k'' hk''
    unfold reserveLoop
    have hsame : Store.find? { s with queued := Function.update s.queued k false } k =
        s.find? k := rfl
    simp only [hsame]
    cases hx : s.find? k with
    | none => exact hskip (by intro x h; rw [hx] at h; cases h)
    | some x =>
      dsimp only
      split
      · rename_i hcond
        refine hskip ?_
        intro y hy hp
        rw [hx] at hy
        cases hy
        exact hcond.resolve_left (not_not.mpr hp)
      · rename_i hcond
        simp only [ne_eq, not_or, not_not, Bool.not_eq_true] at hcond
        have h : Reserves s taskType (k :: q) _ :=
          .found [] q k x rfl (by simp) hx hcond.1 hcond.2
        have hq : s.unqueue ([] ++ [k]) =
            { s with queued := Function.update s.queued k false } := by
          rw [List.nil_append, ← unqueue_cons]
          simp [unqueue]
        rw [hq] at h
        exact h

/-- **`ReserveNext` drops stale entries and reserves the first live one.** -/
theorem reserveNext_spec (s : Store) (taskType : String) :
    Reserves s taskType (s.queues taskType) (s.reserveNext taskType) :=
  reserveLoop_spec taskType _ s

/-- `Unreserve` clears the flag of the execution it points to and touches no other. -/
@[simp] theorem find?_unreserve (s : Store) (x : Execution) (k : String) :
    (s.unreserve x).find? k = (s.find? k).map fun y =>
      if k = x.key ∧ y.ref = x.ref then { y with reserved := false } else y := by
  unfold unreserve
  cases hx : s.find? x.key with
  | none =>
    by_cases hk : k = x.key
    · simp [hk, hx]
    · simp [hk]
  | some y =>
    dsimp only
    split
    · rename_i hcond
      by_cases hk : k = x.key
      · subst hk
        rcases hcond with hne | hfree
        · simp [hx, hne]
        · rw [hx]
          simp only [true_and, Option.map_some, Option.some.injEq]
          split
          · rw [← hfree]
          · rfl
      · simp [hk]
    · rename_i hcond
      simp only [ne_eq, not_or, not_not, Bool.not_eq_false] at hcond
      have hput : (s.put x.key { y with reserved := false }).find? k =
          (s.find? k).map fun y =>
            if k = x.key ∧ y.ref = x.ref then { y with reserved := false } else y := by
        rw [find?_put]
        by_cases hk : k = x.key
        · subst hk
          simp [hx, hcond.1]
        · simp [hk]
      split <;> exact hput

/-- What `Unreserve` does. -/
inductive Unreserves (s : Store) (x : Execution) : Store → Prop
  | ignored : Unreserves s x s
  | freed (y : Execution) (present : s.find? x.key = some y) (ref : y.ref = x.ref)
      (parked : y.status = .pending → s.queued x.key = true) :
      Unreserves s x (s.put x.key { y with reserved := false })
  | requeued (y : Execution) (present : s.find? x.key = some y) (ref : y.ref = x.ref)
      (pending : y.status = .pending) :
      Unreserves s x
        { s.put x.key { y with reserved := false } with
          queues := Function.update s.queues y.taskType (x.key :: s.queues y.taskType)
          queued := Function.update s.queued x.key true }

/-- A reserved execution that is in no queue goes to the front of its queue. -/
theorem unreserve_of_find? (hx : s.find? x.key = some x) (hpending : x.status = .pending)
    (hres : x.reserved = true) (hqueued : s.queued x.key = false) :
    s.unreserve x =
      { s.put x.key { x with reserved := false } with
        queues := Function.update s.queues x.taskType (x.key :: s.queues x.taskType)
        queued := Function.update s.queued x.key true } := by
  simp [unreserve, hx, hpending, hres, put, hqueued]

/-- **`Unreserve` frees the execution and puts a pending one back into its queue.** -/
theorem unreserve_spec (s : Store) (x : Execution) : Unreserves s x (s.unreserve x) := by
  unfold unreserve
  cases hx : s.find? x.key with
  | none => exact .ignored
  | some y =>
    dsimp only
    split
    · exact .ignored
    · rename_i hcond
      simp only [ne_eq, not_or, not_not] at hcond
      split
      · rename_i hpend
        exact .requeued y hx hcond.1 hpend.1
      · rename_i hpend
        refine .freed y hx hcond.1 ?_
        intro hp
        cases hq : s.queued x.key with
        | true => rfl
        | false => exact absurd ⟨hp, hq⟩ hpend

/-! ## Completion -/

/-- What `BeginComplete` does. -/
inductive Begins (s : Store) (k : String) (attempt : ℤ) : Store × Bool × Bool → Prop
  | refused (duplicate : Bool) : Begins s k attempt (s, false, duplicate)
  | fenced (x : Execution) (present : s.find? k = some x) (live : x.terminal = false)
      (current : x.attempt = attempt) (leased : attempt ≠ 0) (free : x.completing = false) :
      Begins s k attempt (s.put k { x with completing := true }, true, false)

/-- **`BeginComplete` fences the current attempt of a live execution, once.** -/
theorem beginComplete_spec (s : Store) (tenant project workflowID : String) (attempt : ℤ) :
    Begins s (sessionKey tenant project workflowID) attempt
      (s.beginComplete tenant project workflowID attempt) := by
  unfold beginComplete
  cases hx : s.find? (sessionKey tenant project workflowID) with
  | none => simpa only [hx] using .refused false
  | some x =>
    simp only [hx]
    split
    · exact .refused true
    · split
      · exact .refused false
      · rename_i hcond
        simp only [ne_eq, not_or, not_not, Bool.not_eq_true] at hcond
        exact .fenced x hx hcond.1 hcond.2.1 hcond.2.2.1 hcond.2.2.2

/-- `AbortComplete` clears the fence of one key and touches no other. -/
@[simp] theorem find?_abortComplete (s : Store) (tenant project workflowID : String) (k : String) :
    (s.abortComplete tenant project workflowID).find? k = (s.find? k).map fun y =>
      if k = sessionKey tenant project workflowID then { y with completing := false } else y := by
  unfold abortComplete
  cases hx : s.find? (sessionKey tenant project workflowID) with
  | none =>
    simp only [hx]
    by_cases hk : k = sessionKey tenant project workflowID
    · simp [hk, hx]
    · simp [hk]
  | some x =>
    simp only [hx, find?_put]
    by_cases hk : k = sessionKey tenant project workflowID
    · simp [hk, hx]
    · simp [hk]

end Store
end AgentBus.Workflow
