import AgentBus.Workflow.Indexes
import Mathlib.Algebra.Order.Ring.Int
import Mathlib.Data.List.Induction

/-!
# The counts, the running keys and the terminal queue

The store keeps three indexes beside its executions and never recomputes them: how many executions
have each status, the keys of those that run, and the keys of those that have ended, oldest first.
They say nothing that the executions do not say (`Counted`, `Tallied`), whatever the events and the
retention.

The loop that evicts is the one place where the indexes move without an event of their own.  It
takes a terminal execution off the front of the queue, the map and the counts in one round, so the
rest of the queue is an index of the rest of the store (`kept_evictLoop`).

## Main definitions

* `Store.tally` — the executions with a status.
* `Store.Counted` — the counts and the running keys follow the executions.
* `Store.Tallied` — and a queue lists the terminal ones.
* `Store.Ages`, `Store.Kept` — in the order in which they ended, and not more than are to be kept.
* `Store.endedBy` — the key whose execution an event ends.
* `Store.SameStatus` — the methods other than `Apply`.
-/

namespace AgentBus.Workflow

open AgentStream

namespace Store

/-- The number of executions with a status. -/
def tally (s : Store) (st : Status) : ℕ :=
  s.execs.keys.countP fun k => (s.find? k).map Execution.status = some st

/-- The counts and the running keys follow the executions. -/
structure Counted (s : Store) : Prop where
  counts : ∀ st, s.counts st = s.tally st
  running : ∀ k, k ∈ s.running ↔ (s.find? k).map Execution.status = some .running
  nodup : s.running.Nodup

/-- And `q` lists the keys of the terminal executions, each of them once. -/
structure Tallied (s : Store) (q : List String) : Prop where
  counted : s.Counted
  nodup : q.Nodup
  mem : ∀ k, k ∈ q ↔ (s.find? k).any Execution.terminal = true

/-- The terminal queue does not exceed the retention. -/
def Retained (s : Store) : Prop :=
  0 < s.retainTerminal → (s.terminalQ.length : ℤ) ≤ s.retainTerminal

/-- The executions under the keys `ended` have ended, in this order: first those that were retired,
then those of `q`.  None is retired before there are as many as are to be kept. -/
structure Ages (s : Store) (q ended : List String) : Prop where
  le : s.retired.length ≤ ended.length
  queue : ended.drop s.retired.length = q
  filled : s.retired ≠ [] → 0 < s.retainTerminal ∧ s.retainTerminal ≤ q.length

/-- The three indexes are right, where the executions under the keys `ended` have ended. -/
structure Kept (s : Store) (ended : List String) : Prop where
  tallied : s.Tallied s.terminalQ
  ages : s.Ages s.terminalQ ended
  retained : s.Retained

/-- The key whose execution an event ends. -/
def endedBy (s : Store) (e : Event) : List String :=
  if (s.find? e.key).any fun x => (x.apply e).any Execution.terminal then [e.key] else []

/-! ## Counting executions -/

variable {s s' : Store} {k : String} {x : Execution} {q ended : List String}

theorem mem_keys : k ∈ s.execs.keys ↔ (s.find? k).isSome = true := by
  rw [← AList.mem_keys, ← AList.lookup_isSome]
  rfl

/-- The executions with a status, the one under `k` apart. -/
def tallyBut (s : Store) (k : String) (st : Status) : ℕ :=
  (s.execs.keys.erase k).countP fun k' => (s.find? k').map Execution.status = some st

theorem tally_put (s : Store) (k : String) (x : Execution) (st : Status) :
    (s.put k x).tally st = s.tallyBut k st + if x.status = st then 1 else 0 := by
  have hkeys : (s.put k x).execs.keys = k :: s.execs.keys.erase k := AList.keys_insert ..
  have hcongr : (s.execs.keys.erase k).countP
      (fun k' => ((s.put k x).find? k').map Execution.status = some st) = s.tallyBut k st := by
    apply List.countP_congr
    intro k' hk'
    have hne : k' ≠ k := ((s.execs.keys_nodup).mem_erase_iff.mp hk').1
    rw [find?_put, if_neg hne]
  rw [tally, hkeys, List.countP_cons, hcongr]
  simp

theorem tally_of_find? (hx : s.find? k = some x) (st : Status) :
    s.tally st = s.tallyBut k st + if x.status = st then 1 else 0 := by
  have hmem : k ∈ s.execs.keys := mem_keys.mpr (by rw [hx]; rfl)
  rw [tally, (List.perm_cons_erase hmem).countP_eq, List.countP_cons, tallyBut, hx]
  simp

theorem tally_of_absent (hk : s.find? k = none) (st : Status) : s.tally st = s.tallyBut k st := by
  have hmem : k ∉ s.execs.keys := by
    rw [mem_keys, hk]
    simp
  rw [tally, tallyBut, List.erase_of_not_mem hmem]

/-- Two stores with the same statuses have the same keys. -/
theorem perm_keys (h : ∀ k, (s'.find? k).map Execution.status = (s.find? k).map Execution.status) :
    s'.execs.keys.Perm s.execs.keys := by
  refine (List.perm_ext_iff_of_nodup s'.execs.keys_nodup s.execs.keys_nodup).mpr ?_
  intro k
  have hsome := congrArg Option.isSome (h k)
  rw [Option.isSome_map, Option.isSome_map] at hsome
  rw [mem_keys, mem_keys, hsome]

theorem tally_congr (h : ∀ k, (s'.find? k).map Execution.status = (s.find? k).map Execution.status)
    (st : Status) : s'.tally st = s.tally st := by
  rw [tally, tally, (perm_keys h).countP_eq]
  simp only [h]

/-- One execution has changed its status: the old one counts one less, the new one one more. -/
theorem recounted_apply (counts : Status → ℤ) (prev next st : Status) :
    recounted counts prev next st =
      counts st - (if prev = st then 1 else 0) + if next = st then 1 else 0 := by
  unfold recounted
  by_cases hnext : next = prev
  · subst hnext
    rw [if_pos rfl]
    omega
  · rw [if_neg hnext]
    by_cases hst : st = next
    · subst hst
      rw [Function.update_self, Function.update_of_ne hnext, if_neg (Ne.symm hnext), if_pos rfl]
      omega
    · rw [Function.update_of_ne hst, if_neg (Ne.symm hst)]
      by_cases hprev : st = prev
      · subst hprev
        rw [Function.update_self, if_pos rfl]
        omega
      · rw [Function.update_of_ne hprev, if_neg (Ne.symm hprev)]
        omega

/-! ## The running keys -/

theorem mem_reran {k' : String} {prev next : Status} {running : List String}
    (hk : k ∈ running ↔ prev = .running) :
    k' ∈ reran k prev next running ↔ if k' = k then next = .running else k' ∈ running := by
  unfold reran enterRunning leaveRunning
  grind

theorem nodup_reran {prev next : Status} {running : List String} (h : running.Nodup) :
    (reran k prev next running).Nodup := by
  unfold reran enterRunning leaveRunning
  grind

/-! ## The fold -/

theorem kept_empty (retain : ℤ) : (empty retain).Kept [] := by
  refine ⟨⟨⟨fun _ => rfl, ?_, List.nodup_nil⟩, List.nodup_nil, ?_⟩, ⟨le_rfl, rfl, ?_⟩, ?_⟩
  · simp [empty, find?]
  · simp [empty, find?]
  · exact fun hne => absurd rfl hne
  · exact fun hpos => hpos.le

theorem Counted.congr (h : s.Counted)
    (hstatus : ∀ k, (s'.find? k).map Execution.status = (s.find? k).map Execution.status)
    (hcounts : s'.counts = s.counts) (hrunning : s'.running = s.running) : s'.Counted := by
  constructor
  · intro st
    rw [hcounts, tally_congr hstatus, h.counts]
  · intro k
    rw [hrunning, hstatus, h.running]
  · rw [hrunning]
    exact h.nodup

/-- The execution `x` was written under `k`, and the counts and the running keys were updated. -/
theorem Counted.put (h : s.Counted) (hexecs : s'.execs = (s.put k x).execs)
    (hcounts : ∀ st, s'.counts st = s.tallyBut k st + if x.status = st then 1 else 0)
    (hrunning : ∀ k', k' ∈ s'.running ↔ if k' = k then x.status = .running else k' ∈ s.running)
    (hnodup : s'.running.Nodup) : s'.Counted := by
  have hfind : ∀ k', s'.find? k' = (s.put k x).find? k' := by
    intro k'
    rw [find?, hexecs, find?]
  refine ⟨?_, ?_, hnodup⟩
  · intro st
    have htally : s'.tally st = (s.put k x).tally st := by
      rw [tally, tally, hexecs]
      apply List.countP_congr
      intro k' _
      rw [hfind]
    rw [hcounts, htally, tally_put]
    push_cast
    rfl
  · intro k'
    rw [hrunning, hfind, find?_put]
    by_cases hk : k' = k
    · simp [hk]
    · rw [if_neg hk, if_neg hk, h.running]

theorem any_terminal (o : Option Execution) :
    o.any Execution.terminal = (o.map Execution.status).any fun st =>
      decide (st = .completed) || decide (st = .failed) := by
  cases o <;> rfl

theorem Tallied.congr (h : s.Tallied q)
    (hstatus : ∀ k, (s'.find? k).map Execution.status = (s.find? k).map Execution.status)
    (hcounts : s'.counts = s.counts) (hrunning : s'.running = s.running) : s'.Tallied q := by
  refine ⟨h.counted.congr hstatus hcounts hrunning, h.nodup, ?_⟩
  intro k
  rw [h.mem, any_terminal, any_terminal, hstatus]

/-- The execution `x` was written under `k`, and all three indexes were updated. -/
theorem Tallied.put {q' : List String} (h : s.Tallied q) (hexecs : s'.execs = (s.put k x).execs)
    (hcounts : ∀ st, s'.counts st = s.tallyBut k st + if x.status = st then 1 else 0)
    (hrunning : ∀ k', k' ∈ s'.running ↔ if k' = k then x.status = .running else k' ∈ s.running)
    (hnodup : s'.running.Nodup) (hq : q'.Nodup)
    (hmem : ∀ k', k' ∈ q' ↔ if k' = k then x.terminal = true else k' ∈ q) : s'.Tallied q' := by
  refine ⟨h.counted.put hexecs hcounts hrunning hnodup, hq, ?_⟩
  intro k'
  have hfind : s'.find? k' = (s.put k x).find? k' := by rw [find?, hexecs, find?]
  rw [hmem, hfind, find?_put]
  by_cases hk : k' = k
  · simp [hk]
  · rw [if_neg hk, if_neg hk, h.mem]

/-! ## Eviction -/

/-- What is counted without the execution under `k`. -/
theorem tally_erase (hexecs : s'.execs = s.execs.erase k) (st : Status) :
    s'.tally st = s.tallyBut k st := by
  have hkeys : s'.execs.keys = s.execs.keys.erase k := by rw [hexecs, AList.keys_erase]
  rw [tally, tallyBut, hkeys]
  apply List.countP_congr
  intro k' hk'
  have hne : k' ≠ k := ((s.execs.keys_nodup).mem_erase_iff.mp hk').1
  rw [find?, hexecs, find?_erase, if_neg hne]

/-- One round of the eviction. -/
theorem Tallied.evict (h : s.Tallied (k :: q)) (hx : s.find? k = some x)
    (hterminal : x.terminal = true) :
    Tallied { s with
      counts := Function.update s.counts x.status (s.counts x.status - 1)
      execs := s.execs.erase k
      retired := x :: s.retired
      queued := Function.update s.queued k false } q := by
  obtain ⟨hk, hq⟩ := List.nodup_cons.mp h.nodup
  generalize hs' : Store.mk .. = s'
  have hexecs : s'.execs = s.execs.erase k := by rw [← hs']
  have hfind : ∀ k', s'.find? k' = if k' = k then none else s.find? k' := by
    intro k'
    rw [find?, hexecs, find?_erase]
  have hcounts : s'.counts = Function.update s.counts x.status (s.counts x.status - 1) := by
    rw [← hs']
  have hrunning : s'.running = s.running := by rw [← hs']
  refine ⟨⟨?_, ?_, ?_⟩, hq, ?_⟩
  · intro st
    have hst := h.counted.counts st
    rw [tally_of_find? hx] at hst
    rw [tally_erase hexecs, hcounts]
    by_cases heq : st = x.status
    · subst heq
      rw [Function.update_self]
      simp only [if_true] at hst
      omega
    · rw [Function.update_of_ne heq, hst, if_neg (Ne.symm heq)]
      simp
  · intro k'
    rw [hrunning, h.counted.running, hfind]
    by_cases heq : k' = k
    · -- A terminal execution does not run.
      subst heq
      rw [hx, if_pos rfl]
      refine iff_of_false ?_ (by simp)
      intro hrun
      simp only [Option.map_some, Option.some_inj] at hrun
      simp [Execution.terminal, hrun] at hterminal
    · rw [if_neg heq]
  · rw [hrunning]
    exact h.counted.nodup
  · intro k'
    rw [hfind]
    by_cases heq : k' = k
    · subst heq
      simpa using hk
    · rw [if_neg heq, ← h.mem, List.mem_cons]
      simp [heq]

theorem Ages.congr (h : s.Ages q ended) (hretired : s'.retired = s.retired)
    (hret : s'.retainTerminal = s.retainTerminal) : s'.Ages q ended := by
  constructor
  · rw [hretired]
    exact h.le
  · rw [hretired]
    exact h.queue
  · rw [hretired, hret]
    exact h.filled

/-- More executions end. -/
theorem Ages.append (h : s.Ages q ended) (more : List String) :
    s.Ages (q ++ more) (ended ++ more) := by
  constructor
  · rw [List.length_append]
    exact h.le.trans (Nat.le_add_right ..)
  · rw [List.drop_append_of_le_length h.le, h.queue]
  · intro hne
    obtain ⟨hpos, hle⟩ := h.filled hne
    rw [List.length_append]
    exact ⟨hpos, by omega⟩

/-- **The eviction loop** keeps the indexes, takes keys off the front only, and stops at the
retention. -/
theorem kept_evictLoop {retain : ℤ} (hpos : 0 < retain) (q : List String) (s : Store)
    (h : s.Tallied q) (hages : s.Ages q ended) (hret : s.retainTerminal = retain) :
    (evictLoop retain q s).Kept ended := by
  fun_induction evictLoop retain q s with
  | case1 s => exact ⟨h.congr (fun _ => rfl) rfl rfl, hages.congr rfl rfl, fun hpos => hpos.le⟩
  | case2 k q s hlt x hx ht ih =>
    have hlen := congrArg List.length hages.queue
    rw [List.length_drop, List.length_cons] at hlen
    rw [List.length_cons] at hlt
    refine ih (h.evict hx ht) ⟨?_, ?_, ?_⟩ hret
    · dsimp only [List.length_cons]
      omega
    · dsimp only [List.length_cons]
      rw [← List.tail_drop, hages.queue]
      rfl
    · intro _
      dsimp only
      omega
  | case3 k q s hlt x hx ht ih =>
    have hterminal := (h.mem k).mp List.mem_cons_self
    rw [hx] at hterminal
    exact absurd hterminal ht
  | case4 k q s hlt hx ih =>
    have hterminal := (h.mem k).mp List.mem_cons_self
    rw [hx] at hterminal
    cases hterminal
  | case5 k q s hle =>
    exact ⟨h.congr (fun _ => rfl) rfl rfl, hages.congr rfl rfl,
      fun _ => (not_lt.mp hle).trans hret.ge⟩

theorem kept_evictTerminal (h : s.Tallied s.terminalQ) (hages : s.Ages s.terminalQ ended) :
    s.evictTerminal.Kept ended := by
  unfold evictTerminal
  split
  · rename_i hret
    exact ⟨h, hages, fun hpos => absurd hpos (not_lt.mpr hret)⟩
  · rename_i hret
    exact kept_evictLoop (not_le.mp hret) _ s h hages rfl

/-! ## The fold -/

/-- The execution `x` under `k` has become `x'`, and is counted as such. -/
def rewritten (s : Store) (k : String) (x x' : Execution) : Store :=
  { s.put k x' with
    counts := recounted s.counts x.status x'.status
    running := reran k x.status x'.status s.running }

/-- The index updates of a fold, which finds its execution live. -/
theorem reindex_of_live (s : Store) (k : String) (x' : Execution) (hlive : x.terminal = false) :
    (s.put k x').reindex k x.status x' = (s.rewritten k x x').retire k x' := by
  by_cases hst : x'.status = x.status
  · have hlive' : x'.terminal = false := by
      rw [Execution.terminal, hst]
      exact hlive
    simp [reindex, rewritten, recounted, reran, retire, hst, hlive', put]
  · simp only [reindex, rewritten, recounted, reran, if_neg hst]
    rfl

/-- What the end of an execution does to the queue. -/
theorem kept_retire (hages : s.Ages s.terminalQ ended) (hbound : s.Retained)
    (h : s.Tallied (s.terminalQ ++ if x.terminal then [k] else [])) :
    (s.retire k x).Kept (ended ++ if x.terminal then [k] else []) := by
  unfold retire
  by_cases hterminal : x.terminal = true
  · rw [if_pos hterminal] at h ⊢
    rw [if_pos hterminal]
    exact kept_evictTerminal (h.congr (fun _ => rfl) rfl rfl) ((hages.append [k]).congr rfl rfl)
  · rw [if_neg hterminal, List.append_nil] at h
    rw [if_neg hterminal, if_neg hterminal, List.append_nil]
    exact ⟨h, hages, hbound⟩

/-- A method that writes no status, no count and no index. -/
structure SameStatus (s s' : Store) : Prop where
  status : ∀ k, (s'.find? k).map Execution.status = (s.find? k).map Execution.status
  counts : s'.counts = s.counts
  running : s'.running = s.running
  terminalQ : s'.terminalQ = s.terminalQ
  retired : s'.retired = s.retired
  retainTerminal : s'.retainTerminal = s.retainTerminal

theorem SameStatus.put {y : Execution} (hx : s.find? k = some x) (hstatus : y.status = x.status) :
    SameStatus s (s.put k y) := by
  refine ⟨?_, rfl, rfl, rfl, rfl, rfl⟩
  intro k'
  rw [find?_put]
  split
  · rename_i hk
    rw [hk, hx, Option.map_some, Option.map_some, hstatus]
  · rfl

theorem sameStatus_reconcileQueue (s : Store) (k : String) (x : Execution) :
    SameStatus s (s.reconcileQueue k x) := by
  unfold reconcileQueue
  split <;> exact ⟨fun _ => rfl, rfl, rfl, rfl, rfl, rfl⟩

theorem Kept.same (h : s.Kept ended) (hsame : SameStatus s s') : s'.Kept ended := by
  constructor
  · rw [hsame.terminalQ]
    exact h.tallied.congr hsame.status hsame.counts hsame.running
  · rw [hsame.terminalQ]
    exact h.ages.congr hsame.retired hsame.retainTerminal
  · unfold Retained
    rw [hsame.terminalQ, hsame.retainTerminal]
    exact h.retained

section
variable {s : Store} {k : String} (h : s.Tallied s.terminalQ)
include h

/-- A new execution is counted as pending. -/
theorem Tallied.track {nx : Execution} (absent : s.find? k = none)
    (hpending : nx.status = .pending) :
    Tallied { s.put k nx with
      refs := s.refs + 1
      counts := Function.update s.counts nx.status (s.counts nx.status + 1) } s.terminalQ := by
  refine h.put (k := k) (x := nx) rfl ?_ ?_ h.counted.nodup h.nodup ?_
  · intro st
    rw [← tally_of_absent absent]
    dsimp only
    by_cases hst : st = nx.status
    · subst hst
      rw [Function.update_self, h.counted.counts, if_pos rfl]
    · rw [Function.update_of_ne hst, h.counted.counts, if_neg (Ne.symm hst), add_zero]
  · intro k'
    change k' ∈ s.running ↔ _
    by_cases hk : k' = k
    · subst hk
      rw [if_pos rfl, hpending, h.counted.running, absent]
      simp
    · rw [if_neg hk]
  · intro k'
    by_cases hk : k' = k
    · subst hk
      rw [if_pos rfl, h.mem, absent]
      simp [Execution.terminal, hpending]
    · rw [if_neg hk]

/-- An execution that changes is counted under its new status, and listed when it has ended. -/
theorem Tallied.rewritten {x x' : Execution} (present : s.find? k = some x)
    (hlive : x.terminal = false) :
    (s.rewritten k x x').Tallied (s.terminalQ ++ if x'.terminal then [k] else []) := by
  have hout : k ∉ s.terminalQ := by
    rw [h.mem, present]
    simp [hlive]
  refine h.put (k := k) (x := x') rfl ?_ ?_ (nodup_reran h.counted.nodup) ?_ ?_
  · intro st
    dsimp only [Store.rewritten]
    rw [recounted_apply, h.counted.counts, tally_of_find? present]
    push_cast
    omega
  · intro k'
    refine mem_reran ?_
    rw [h.counted.running, present]
    simp
  · by_cases hterminal : x'.terminal = true
    · rw [if_pos hterminal, ← List.concat_eq_append]
      exact h.nodup.concat hout
    · rw [if_neg hterminal, List.append_nil]
      exact h.nodup
  · intro k'
    by_cases hk : k' = k
    · subst hk
      cases x'.terminal <;> simp [hout]
    · cases x'.terminal <;> simp [hk]

end

/-- **`Apply` keeps the three indexes.**  The key of an execution that the event ends goes to the
end of the terminal queue, and keys leave it at the front. -/
theorem Kept.apply (h : s.Kept ended) (e : Event) :
    (s.apply e).1.Kept (ended ++ s.endedBy e) := by
  have hs := apply_spec s e
  generalize s.apply e = r at hs
  cases hs with
  | ignored refused unusable =>
    have hnone : s.endedBy e = [] := by
      unfold endedBy
      cases hx : s.find? e.key with
      | none => rfl
      | some x => simp [refused x hx]
    rw [hnone, List.append_nil]
    exact h
  | tracked nx ty absent valid =>
    have hnone : s.endedBy e = [] := by simp [endedBy, absent]
    rw [hnone, List.append_nil]
    exact Kept.same ⟨h.tallied.track absent (newExecution_spec valid).2.1,
      h.ages.congr rfl rfl, h.retained⟩ (sameStatus_reconcileQueue ..)
  | folded x x' present changed =>
    have hlive := (Execution.apply_eq_some_iff.mp changed).live
    have hended : s.endedBy e = if x'.terminal then [e.key] else [] := by
      simp [endedBy, present, changed]
    rw [reindex_of_live _ _ _ hlive, hended]
    exact (kept_retire (s := s.rewritten e.key x x') (h.ages.congr rfl rfl) h.retained
      (h.tallied.rewritten present hlive)).same (sameStatus_reconcileQueue ..)

theorem kept_applyAll (retain : ℤ) (es : List Event) :
    ∃ ended, ((empty retain).applyAll es).Kept ended := by
  induction es using List.reverseRecOn with
  | nil => exact ⟨_, kept_empty retain⟩
  | append_singleton es e ih =>
    rw [applyAll_append]
    obtain ⟨ended, h⟩ := ih
    exact ⟨_, h.apply e⟩

/-! ## The other methods -/

theorem Reserves.sameStatus {taskType : String} {r : Store × Option Execution}
    (h : s.Reserves taskType q r) : SameStatus s r.1 := by
  cases h with
  | nothing stale => exact ⟨fun _ => rfl, rfl, rfl, rfl, rfl, rfl⟩
  | found pre rest k x split stale present pending free =>
    have hput := SameStatus.put (y := { x with reserved := true }) present rfl
    exact ⟨hput.status, rfl, rfl, rfl, rfl, rfl⟩

theorem sameStatus_unreserve (s : Store) (x : Execution) : SameStatus s (s.unreserve x) := by
  have hspec := unreserve_spec s x
  generalize s.unreserve x = s' at hspec
  cases hspec with
  | ignored => exact ⟨fun _ => rfl, rfl, rfl, rfl, rfl, rfl⟩
  | freed y present ref parked => exact .put present rfl
  | requeued y present ref pending =>
    have hput := SameStatus.put (y := { y with reserved := false }) present rfl
    exact ⟨hput.status, rfl, rfl, rfl, rfl, rfl⟩

theorem sameStatus_waitChan (s : Store) (taskType : String) :
    SameStatus s (s.waitChan taskType).1 := by
  unfold waitChan
  split <;> exact ⟨fun _ => rfl, rfl, rfl, rfl, rfl, rfl⟩

theorem Begins.sameStatus {attempt : ℤ} {r : Store × Bool × Bool} (h : s.Begins k attempt r) :
    SameStatus s r.1 := by
  cases h with
  | refused duplicate => exact ⟨fun _ => rfl, rfl, rfl, rfl, rfl, rfl⟩
  | fenced x present live current leased free => exact .put present rfl

theorem sameStatus_abortComplete (s : Store) (tenant project workflowID : String) :
    SameStatus s (s.abortComplete tenant project workflowID) := by
  simp only [abortComplete]
  split
  · exact ⟨fun _ => rfl, rfl, rfl, rfl, rfl, rfl⟩
  · rename_i x hx
    exact .put hx rfl

/-- The sweep drops running keys that are not tracked, and there are none. -/
theorem Counted.expiredLeases (h : s.Counted) (now : Time) (order : List String) :
    SameStatus s (s.expiredLeases now order).1 := by
  refine ⟨fun _ => rfl, rfl, ?_, rfl, rfl, rfl⟩
  refine List.filter_eq_self.mpr ?_
  intro k hk
  obtain ⟨x, hx, -⟩ := Option.map_eq_some_iff.mp ((h.running k).mp hk)
  rw [hx]
  rfl

end Store
end AgentBus.Workflow
