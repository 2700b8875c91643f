import AgentBus.Lib.Serial
import AgentBus.Workflow.Line
import AgentBus.Workflow.Progress
import AgentBus.Workflow.Sequential

/-!
# The schedule of a rebuilt store

`ReserveNext` takes an execution out of its queue, and a retry puts it back at the end, so the live
store hands executions out by the time they last became pending.  A rebuilt store has only folded
the log: nothing was ever taken out of its queues, and an execution that is retried is still where
its submit has put it.  It hands executions out by the time they were submitted.

Both are functions of the log (`byTurn`, `byArrival`).  After calls that were made one at a time
the two stores schedule alike exactly if the two orders are the same.

## Main definitions

* `callsAlone` — the coordinator without its poller.
* `Thread.front?` — the execution that a call has taken out of its queue.
* `Ordered` — the invariant between the steps of a call.
* `Store.Rebuilt` — the queues of a rebuilt store.
-/

namespace AgentBus.Workflow

open AgentStream Pool

/-- The coordinator without its poller: while a call runs the clock may move. -/
def callsAlone (c : Config) : Program State Thread Request Choice Time where
  entry := .start
  thread := Thread.step c
  env s now := s.environment c (.tick now)

/-- The execution that a call has taken out of its queue, and the attempt it has read. -/
def Thread.front? : Thread → Option (Execution × Option ℤ)
  | .granting _ x | .unreserving _ x => some (x, none)
  | .preparing (.grant _ x n) | .publishing (.grant _ x n) _ | .folding (.grant _ x n) _ =>
    some (x, some n)
  | _ => none

/-- Its key, when it is of the task type. -/
def Thread.front (t : Thread) (taskType : String) : List String :=
  match t.front? with
  | some (x, _) => if x.taskType = taskType then [x.key] else []
  | none => []

/-- The invariant between the steps of a call.  The execution that the call has taken out of its
queue is the only one that is reserved, and with it in front the lines of the live store are in the
order of the log. -/
structure Ordered (c : Config) (s : State) (t : Thread) : Prop where
  indexed : s.store.Indexed
  lined : s.store.Lined
  held : ∀ x o, t.front? = some (x, o) → s.store.find? x.key = some x ∧ x.status = .pending ∧
    x.reserved = true ∧ ∀ n ∈ o, n = x.attempt + 1
  reserved : ∀ k y, s.store.find? k = some y → y.reserved = true →
    ∃ x o, t.front? = some (x, o) ∧ x.key = k
  line : ∀ done, s.log = done ++ (t.folding? c).toList → ∀ taskType,
    byTurn taskType done = t.front taskType ++ s.store.line taskType

/-! ## The steps of a call -/

section Steps

variable {c : Config} {s s' : State} {t t' : Thread} {l : Choice}

theorem Quiet.front? (h : Quiet c s t l t') :
    t'.front?.map Prod.fst = t.front?.map Prod.fst ∧ t.folding? c = none ∧
      ∀ x n, t'.front? = some (x, some n) →
        t.front? = some (x, some n) ∨ n = (s.store.deref x).attempt + 1 := by
  cases h with
  | heartbeat a =>
    refine heartbeatStart_ind s a ?_ ?_ <;> intros <;> exact ⟨rfl, rfl, fun _ _ hx => by cases hx⟩
  | fail a =>
    refine failStart_ind s a ?_ ?_ <;> intros <;> exact ⟨rfl, rfl, fun _ _ hx => by cases hx⟩
  | read b y =>
    refine ⟨rfl, rfl, ?_⟩
    intro x n hx
    cases hx
    exact .inr rfl
  | stamp f =>
    cases f with
    | grant b y n => exact ⟨rfl, rfl, fun _ _ hx => .inl hx⟩
    | submit | heartbeat | complete | fail | verdict | sweep =>
      exact ⟨rfl, rfl, fun _ _ hx => by cases hx⟩
  | error f stamp =>
    cases f <;> exact ⟨rfl, rfl, fun _ _ hx => by cases hx⟩
  | _ => exact ⟨rfl, rfl, fun _ _ hx => by cases hx⟩

theorem Thread.front_congr (h : t'.front?.map Prod.fst = t.front?.map Prod.fst)
    (taskType : String) : t'.front taskType = t.front taskType := by
  unfold Thread.front
  cases ht : t.front? with
  | none =>
    rw [ht, Option.map_none, Option.map_eq_none_iff] at h
    rw [h]
  | some p =>
    rw [ht] at h
    obtain ⟨p', hp', heq⟩ := Option.map_eq_some_iff.mp h
    rw [hp']
    dsimp only
    rw [heq]

@[simp] theorem Thread.front_of_none (h : t.front? = none) (taskType : String) :
    t.front taskType = [] := by
  rw [Thread.front, h]

/-- The invariant depends on the log, on the store and on what is in front. -/
theorem Ordered.congr (h : Ordered c s t) (hstore : s'.store = s.store) (hlog : s'.log = s.log)
    (hfront : t'.front? = t.front?) (hfolding : t'.folding? c = t.folding? c) :
    Ordered c s' t' := by
  refine ⟨hstore ▸ h.indexed, hstore ▸ h.lined, ?_, ?_, ?_⟩
  · rw [hstore, hfront]
    exact h.held
  · rw [hstore, hfront]
    exact h.reserved
  · intro done hdone taskType
    rw [hlog, hfolding] at hdone
    rw [hstore, Thread.front_congr (congrArg _ hfront)]
    exact h.line done hdone taskType

theorem Ordered.quiet (h : Ordered c s t) (hq : Quiet c s t l t') : Ordered c s t' := by
  obtain ⟨hfront, hnone, hread⟩ := hq.front?
  refine ⟨h.indexed, h.lined, ?_, ?_, ?_⟩
  · intro x o hx
    have hmap : t.front?.map Prod.fst = some x := by
      rw [← hfront, hx]
      rfl
    obtain ⟨⟨x₀, o₀⟩, hx₀, rfl⟩ := Option.map_eq_some_iff.mp hmap
    obtain ⟨hfind, hpending, hres, hnext⟩ := h.held _ o₀ hx₀
    refine ⟨hfind, hpending, hres, ?_⟩
    intro n hn
    rw [Option.mem_def] at hn
    subst hn
    rcases hread _ n hx with hold | hn
    · rw [hx₀] at hold
      cases hold
      exact hnext n rfl
    · rw [hn, Store.deref_of_find? hfind rfl]
  · intro k y hy hr
    obtain ⟨x, o, hx, hk⟩ := h.reserved k y hy hr
    have hmap : t'.front?.map Prod.fst = some x := by
      rw [hfront, hx]
      rfl
    obtain ⟨⟨x', o'⟩, hx', rfl⟩ := Option.map_eq_some_iff.mp hmap
    exact ⟨_, o', hx', hk⟩
  · intro done hdone taskType
    rw [Thread.front_congr hfront]
    rw [hq.folding?] at hdone
    refine h.line done ?_ taskType
    rw [hnone]
    exact hdone

variable {k : String} {y : Execution} {f : Frame} {stamp : Time}

/-- While nothing is in front nothing is reserved. -/
theorem Ordered.free (h : Ordered c s t) (ht : t.front? = none) (hy : s.store.find? k = some y) :
    y.reserved = false := by
  refine Bool.eq_false_iff.mpr ?_
  intro hr
  obtain ⟨x, o, hx, -⟩ := h.reserved k y hy hr
  rw [ht] at hx
  cases hx

/-- A step that takes nothing out of a queue and folds nothing. -/
theorem Ordered.idle (h : Ordered c s t) {m : Store} (hidx : m.Indexed) (hlined : m.Lined)
    (hline : ∀ ty, m.line ty = s.store.line ty)
    (hflags : ∀ k y, m.find? k = some y → ∃ x, s.store.find? k = some x ∧ y.reserved = x.reserved)
    (ht : t.front? = none) (ht' : t'.front? = none) (hf : t.folding? c = none)
    (hf' : t'.folding? c = none) : Ordered c { s with store := m } t' := by
  refine ⟨hidx, hlined, ?_, ?_, ?_⟩
  · intro x o hx
    rw [ht'] at hx
    cases hx
  · intro k y hy hr
    obtain ⟨x, hx, heq⟩ := hflags k y hy
    rw [heq, h.free ht hx] at hr
    cases hr
  · intro done hdone taskType
    have hold := h.line done (by rw [hf]; rwa [hf'] at hdone) taskType
    rw [hold, hline, Thread.front_of_none ht, Thread.front_of_none ht']

theorem exists_find?_of_put {m : Store} {x x' : Execution} (hx : m.find? k = some x)
    (hres : x'.reserved = x.reserved) (k' : String) (y : Execution)
    (hy : (m.put k x').find? k' = some y) : ∃ z, m.find? k' = some z ∧ y.reserved = z.reserved := by
  rw [Store.find?_put] at hy
  split at hy
  · rename_i hk
    cases hy
    exact ⟨x, hk ▸ hx, hres⟩
  · exact ⟨y, hy, rfl⟩

/-- `ReserveNext` takes the front of the line. -/
theorem Ordered.reserve {b : Batch} (h : Ordered c s (.leasing b)) {r : Store × Option Execution}
    (hr : s.store.Reserves b.call.taskType (s.store.queues b.call.taskType) r)
    (hidx : r.1.Indexed) (hlined : r.1.Lined) :
    Ordered c { s with store := r.1 } (b.onReserve r.2) := by
  cases hr with
  | nothing stale =>
    have hnext : (b.onReserve none).front? = none ∧ (b.onReserve none).folding? c = none := by
      rcases b.onReserve_cases none with ⟨x, hx, -⟩ | hx | hx
      · cases hx
      · rw [hx]
        exact ⟨rfl, rfl⟩
      · rw [hx]
        exact ⟨rfl, rfl⟩
    exact h.idle hidx hlined (Store.line_of_nothing stale) (fun k y hy => ⟨y, hy, rfl⟩) rfl
      hnext.1 rfl hnext.2
  | found pre rest k x split stale present pending free =>
    obtain ⟨-, y, hy, htype⟩ := h.lined.entry b.call.taskType k (by rw [split]; simp)
    rw [present] at hy
    cases hy
    have hkey : x.key = k := h.indexed.keyed k x present
    dsimp only at hidx hlined ⊢
    generalize hm : Store.put _ _ _ = m at hidx hlined ⊢
    have hqueues : m.queues = Function.update s.store.queues b.call.taskType rest := by
      rw [← hm]
      rfl
    have hfind : ∀ k', m.find? k' =
        if k' = k then some { x with reserved := true } else s.store.find? k' := by
      intro k'
      rw [← hm, Store.find?_put]
      rfl
    refine ⟨hidx, hlined, ?_, ?_, ?_⟩
    · intro x' o hx'
      cases hx'
      refine ⟨?_, pending, rfl, fun n hn => by cases hn⟩
      dsimp only
      rw [hfind]
      exact if_pos hkey
    · intro k' z hz hres
      dsimp only at hz
      rw [hfind] at hz
      split at hz
      · rename_i hk'
        exact ⟨_, none, rfl, hkey.trans hk'.symm⟩
      · rw [h.free rfl hz] at hres
        cases hres
    · intro done hdone taskType
      rw [h.line done hdone taskType]
      change s.store.line taskType =
        (if x.taskType = taskType then [x.key] else []) ++ m.line taskType
      rw [htype, hkey]
      exact Store.line_reserved h.lined split stale present pending free hqueues
        (fun k' hne => (hfind k').trans (if_neg hne)) taskType

/-- `Unreserve` puts the execution back at the front of the line. -/
theorem Ordered.unreserve {b : Batch} {x : Execution} (h : Ordered c s (.unreserving b x))
    (hidx : (s.store.unreserve x).Indexed) (hlined : (s.store.unreserve x).Lined)
    (answer : Response) :
    Ordered c { s with store := s.store.unreserve x } (.done (.leaseBatch b.call) answer) := by
  obtain ⟨hx, hpending, hres, -⟩ := h.held x none rfl
  have hqueued := h.lined.queued_of_reserved hx hpending hres
  have heq := Store.unreserve_of_find? hx hpending hres hqueued
  refine ⟨hidx, hlined, ?_, ?_, ?_⟩
  · intro y o hy
    cases hy
  · intro k y hy hr
    dsimp only at hy
    rw [heq] at hy
    have hy : (s.store.put x.key { x with reserved := false }).find? k = some y := hy
    rw [Store.find?_put] at hy
    split at hy
    · cases hy
      cases hr
    · rename_i hk
      obtain ⟨z, o, hz, hkey⟩ := h.reserved k y hy hr
      cases hz
      exact absurd hkey.symm hk
  · intro done hdone taskType
    rw [h.line done hdone taskType]
    exact (Store.line_unreserve h.lined hx hpending hres taskType).symm

/-- A lease is accepted by the execution that is in front. -/
theorem Ordered.leases (h : Ordered c s (.folding f stamp)) (hy : s.store.find? k = some y)
    (hr : y.reserved = true) :
    ∃ b n p, f = .grant b y n ∧ k = f.key ∧
      Execution.Folds y (f.event c stamp) (y.lease (f.event c stamp) p) := by
  obtain ⟨x, o, hx, hk⟩ := h.reserved k y hy hr
  obtain ⟨hfind, hpending, -, hnext⟩ := h.held x o hx
  rw [hk, hy] at hfind
  cases hfind
  cases f with
  | grant b z n =>
    cases hx
    exact ⟨b, n, _, rfl, hk.symm, .leased _ (Frame.eventType_event ..)
      (LeasePayload.unmarshal_marshal _) hpending (hnext n rfl)⟩
  | submit | heartbeat | complete | fail | verdict | sweep => cases hx

/-- After a fold nothing is reserved. -/
theorem Ordered.free_apply (hret : s.store.retainTerminal ≤ 0) (h : Ordered c s (.folding f stamp))
    (hy : (s.store.apply (f.event c stamp)).1.find? k = some y) : y.reserved = false := by
  obtain ⟨o, hwritten, hfind | ⟨hbound, -⟩⟩ :=
    Store.find?_apply_cases s.store (f.event c stamp) k
  · rw [hfind] at hy
    cases hwritten with
    | same refused =>
      -- What is reserved is leased by this very event.
      refine Bool.eq_false_iff.mpr ?_
      intro hr
      obtain ⟨b, n, p, -, hkey, hfolds⟩ := h.leases hy hr
      exact refused (hkey.trans (Frame.key_event ..).symm) y _ hy hfolds
    | created nx key ty absent valid =>
      cases hy
      exact (Store.newExecution_spec valid).2.2.1
    | folded x x' key present folds =>
      cases hy
      cases hr : x.reserved with
      | false => exact Store.reserved_eq_false_of_folds folds hr
      | true =>
        obtain ⟨b, n, p, -, -, hfolds⟩ := h.leases present hr
        rw [← Execution.apply_eq_some_iff] at folds hfolds
        rw [folds] at hfolds
        cases hfolds
        rfl
  · omega

/-- **The fold keeps the lines in the order of the log.** -/
theorem Ordered.fold (hs : Sound c s (.folding f stamp)) (h : Ordered c s (.folding f stamp))
    (hidx : (s.store.apply (f.event c stamp)).1.Indexed)
    (hlined : (s.store.apply (f.event c stamp)).1.Lined) :
    Ordered c { s with store := (s.store.apply (f.event c stamp)).1 } f.onFolded := by
  have hfront : f.onFolded.front? = none := by cases f <;> rfl
  have hfolding : f.onFolded.folding? c = none := by cases f <;> rfl
  refine ⟨hidx, hlined, ?_, ?_, ?_⟩
  · intro x o hx
    rw [hfront] at hx
    cases hx
  · intro k y hy hr
    rw [h.free_apply hs.retain hy] at hr
    cases hr
  · intro done hdone taskType
    obtain ⟨before, hlog, -⟩ := hs.view
    obtain ⟨after, hlog', hview⟩ := (hs.steps (.fold f stamp)).view
    rw [hfolding, Option.toList_none, List.append_nil] at hdone hlog'
    dsimp only at hdone hlog' hview ⊢
    obtain rfl : after = done := hlog'.symm.trans hdone
    -- Whether the execution waits is the same in the store and in the log.
    have hwaits : pendingOf taskType (history f.key after) =
        pendingOf taskType ((s.store.apply (f.event c stamp)).1.find? f.key) := by
      rw [← hview, pendingOf_folded]
    have hline := Store.line_apply hs.retain h.indexed h.lined (e := f.event c stamp) (by
      intro x hx hr
      obtain ⟨b, n, p, -, -, hfolds⟩ := h.leases hx hr
      exact ⟨_, hfolds, by simp [Execution.lease, Execution.record]⟩) taskType
    have hturn := byTurn_concat taskType before (f.event c stamp)
    rw [← show s.log = before ++ [f.event c stamp] from hlog, hdone, h.line before hlog] at hturn
    rw [Frame.key_event] at hline hturn
    rw [hturn, hline, hwaits, Thread.front_of_none hfront, List.nil_append]
    cases f with
    | grant b x n =>
      obtain ⟨hx, -, hr, -⟩ := h.held x (some n) rfl
      obtain ⟨b', n', p, -, -, hfolds⟩ := h.leases hx hr
      have hrunning : pendingOf taskType
          ((s.store.apply ((Frame.grant b x n).event c stamp)).1.find? (Frame.grant b x n).key) =
          false := by
        rcases Store.find?_apply_of_folds (e := (Frame.grant b x n).event c stamp)
          (by rwa [Frame.key_event]) hfolds with hy | ⟨hy, -⟩
        · rw [Frame.key_event] at hy
          rw [hy]
          rfl
        · rw [Frame.key_event] at hy
          rw [hy]
          rfl
      rw [hrunning, Thread.front]
      by_cases hty : x.taskType = taskType
      · simp [Thread.front?, hty, lineUp, Frame.key]
      · simp [Thread.front?, hty]
    | submit | heartbeat | complete | fail | verdict | sweep => rfl

/-- The queues stay exact: only a reserved execution is leased or given back. -/
theorem Ordered.lined_step (h : Ordered c s t) (hret : s.store.retainTerminal ≤ 0)
    (hstep : Steps c s t l s' t') : s'.store.Lined := by
  cases hstep with
  | quiet => exact h.lined
  | begin a r hb => exact h.lined.begins hb
  | reserve b r hr => exact h.lined.reserves hr
  | wait b => exact h.lined.waitChan _
  | publish f stamp valid => exact h.lined
  | fold f stamp =>
    refine h.lined.apply hret h.indexed ?_
    intro x x' hx _ hty
    rw [Frame.eventType_event, Option.some.injEq] at hty
    obtain ⟨b, y, n, rfl⟩ := Frame.eq_grant_of_type hty
    obtain ⟨hy, -, hr, -⟩ := h.held y (some n) rfl
    rw [Frame.key_event, Frame.key, hy] at hx
    cases hx
    exact hr
  | unreserve b x =>
    obtain ⟨hx, -, hr, -⟩ := h.held x none rfl
    refine h.lined.unreserves (Store.unreserve_spec s.store x) ?_
    intro y hy
    rw [hx] at hy
    cases hy
    exact hr
  | abort a => exact h.lined.abortComplete _ _ _
  | expire now order perm =>
    exact ⟨h.lined.nodup, h.lined.entry, h.lined.parked, h.lined.wake⟩

/-- **Every step of a call keeps the lines in the order of the log.** -/
theorem Ordered.steps (hs : Sound c s t) (h : Ordered c s t) (hstep : Steps c s t l s' t') :
    Ordered c s' t' := by
  have hidx := hstep.indexed h.indexed
  have hlined := h.lined_step hs.retain hstep
  cases hstep with
  | quiet t t' l hq => exact h.quiet hq
  | begin a r hb =>
    cases hb with
    | refused duplicate =>
      exact h.idle hidx hlined (fun _ => rfl) (fun k y hy => ⟨y, hy, rfl⟩) rfl rfl rfl rfl
    | fenced x present live current leased free =>
      exact h.idle hidx hlined (Store.line_fence present true)
        (exists_find?_of_put present rfl) rfl rfl rfl rfl
  | reserve b r hr => exact h.reserve hr hidx hlined
  | wait b =>
    refine h.idle hidx hlined (Store.line_waitChan _ _) ?_ rfl rfl rfl rfl
    intro k y hy
    refine ⟨y, ?_, rfl⟩
    unfold Store.waitChan at hy
    split at hy <;> exact hy
  | publish f stamp valid =>
    refine ⟨hidx, hlined, ?_, ?_, ?_⟩
    · intro x o hx
      exact h.held x o (by cases f <;> exact hx)
    · intro k y hy hr
      obtain ⟨x, o, hx, hk⟩ := h.reserved k y hy hr
      exact ⟨x, o, by cases f <;> exact hx, hk⟩
    · intro done hdone taskType
      have hlog : s.log = done := List.append_cancel_right hdone
      rw [h.line done (by rw [hlog]; exact (List.append_nil _).symm) taskType]
      cases f <;> rfl
  | fold f stamp => exact Ordered.fold hs h hidx hlined
  | unreserve b x => exact h.unreserve hidx hlined _
  | abort a =>
    refine h.idle hidx hlined ?_ ?_ rfl rfl rfl rfl
    · intro ty
      simp only [Store.abortComplete]
      split
      · rfl
      · rename_i x hx
        exact Store.line_fence hx false ty
    · simp only [Store.abortComplete]
      split
      · exact fun k y hy => ⟨y, hy, rfl⟩
      · rename_i x hx
        exact exists_find?_of_put hx rfl
  | expire now order perm =>
    exact h.idle hidx hlined (fun _ => rfl) (fun k y hy => ⟨y, hy, rfl⟩) rfl rfl rfl rfl

end Steps

/-! ## Whole runs -/

theorem ordered_init (c : Config) (r : Request) : Ordered c (State.init c) (.start r) where
  indexed := Store.indexed_empty _
  lined := Store.lined_empty _
  held _ _ hx := by cases hx
  reserved k y hy := by cases hy
  line done hdone taskType := by
    have hnil : done = [] := List.append_eq_nil_iff.mp hdone.symm |>.1
    rw [hnil]
    rfl

/-- Between two calls the live store is the fold of the log, and hands executions out by the time
they became pending. -/
structure Tidy (c : Config) (s : State) : Prop where
  sound : ∀ r, Sound c s (.start r)
  ordered : ∀ r, Ordered c s (.start r)
  view : ∀ k, (s.store.find? k).map Execution.folded = history k s.log

variable {c : Config} {s : State} {t : Thread} {es : List Event} {e : Event} {m : Store}

theorem tidy_init (hret : c.retainTerminal ≤ 0) : Tidy c (State.init c) :=
  ⟨sound_init hret, ordered_init c, fun _ => rfl⟩

/-- While a call runs. -/
structure Running (c : Config) (s : State) (t : Thread) : Prop where
  sound : Sound c s t
  ordered : Ordered c s t

theorem Tidy.start (h : Tidy c s) (r : Request) : Running c s (.start r) :=
  ⟨h.sound r, h.ordered r⟩

theorem Running.thread {s' : State} {t' : Thread} {l : Choice} (h : Running c s t)
    (hstep : Steps c s t l s' t') : Running c s' t' :=
  ⟨h.sound.steps hstep, Ordered.steps h.sound h.ordered hstep⟩

theorem Running.tick (h : Running c s t) (now : Time) : Running c { s with clock := now } t :=
  ⟨⟨h.sound.retain, h.sound.keyed, h.sound.ranged, h.sound.view, h.sound.once, h.sound.thread⟩,
    h.ordered.congr rfl rfl rfl rfl⟩

theorem Running.finish (h : Running c s t) (hfin : t.finished = true) : Tidy c s := by
  obtain ⟨hstart, hview⟩ := h.sound.settle hfin
  refine ⟨hstart, ?_, hview⟩
  intro r
  refine h.ordered.congr rfl rfl ?_ ?_
  · cases t <;> first | rfl | cases hfin
  · cases t <;> first | rfl | cases hfin

theorem tidy_serial (hret : c.retainTerminal ≤ 0) {calls : List (Request × List (Choice ⊕ Time))}
    (h : (callsAlone c).serial Thread.finished (State.init c) calls = some s) : Tidy c s := by
  refine Program.serial_invariant (I := Running c) (fun s r hs => hs.start r) ?_ ?_
    (fun s t ht hfin => ht.finish hfin) (tidy_init hret) h
  · intro s t l s' t' ht hstep
    exact ht.thread (Thread.step_spec hstep)
  · intro s t now s' ht henv
    obtain ⟨now', -, rfl⟩ := (environment_spec (c := c) (e := .tick now) henv).tick_of_ne nofun
    exact ht.tick now'

/-! ## The rebuilt store -/

/-- The execution under a key, if it is of the task type. -/
def typedAs (taskType : String) (o : Option Execution) : Bool :=
  o.any fun x => x.taskType = taskType

/-- The queues of a store that has folded `es` and nothing else: what was submitted, in order. -/
structure Store.Rebuilt (es : List Event) (m : Store) : Prop where
  retain : m.retainTerminal ≤ 0
  indexed : m.Indexed
  view : ∀ k, (m.find? k).map Execution.folded = history k es
  parked : ∀ k x, m.find? k = some x → x.reserved = false ∧ m.queued k = true
  queues : ∀ ty, m.queues ty = (submitted es).filter fun k => typedAs ty (m.find? k)

@[simp] theorem mem_submitted {k : String} : k ∈ submitted es ↔ (history k es).isSome = true := by
  rw [history_isSome_iff, submitted, List.mem_map]
  simp only [List.mem_filter, decide_eq_true_eq, and_assoc]
  refine exists_congr fun e => and_congr_right fun _ => ?_
  exact and_comm

theorem Execution.Folds.not_starts {x x' : Execution} (h : Execution.Folds x e x') :
    ¬ Starts e := by
  intro hs
  cases h with
  | leased p ty | heartbeat p ty | completed p ty | failed p ty | retry p ty | dead p ty =>
    rw [hs.1] at ty
    cases ty

@[simp] theorem Store.Rebuilt.mem_submitted (h : m.Rebuilt es) {k : String} :
    k ∈ submitted es ↔ (m.find? k).isSome = true := by
  rw [Workflow.mem_submitted, ← h.view, Option.isSome_map]

/-- A first submit puts its execution at the end of its queue. -/
theorem Store.Rebuilt.add {m' : Store} (h : m.Rebuilt es) {nx : Execution} (hs : Starts e)
    (honce : e.key ∉ submitted es) (hres : nx.reserved = false)
    (hfind : ∀ k, m'.find? k = if k = e.key then some nx else m.find? k)
    (hqueues : m'.queues = Function.update m.queues nx.taskType (m.queues nx.taskType ++ [e.key]))
    (hflags : m'.queued = Function.update m.queued e.key true) :
    (∀ k x, m'.find? k = some x → x.reserved = false ∧ m'.queued k = true) ∧
      ∀ ty, m'.queues ty = (submitted (es ++ [e])).filter fun k => typedAs ty (m'.find? k) := by
  constructor
  · intro k x hx
    rw [hfind] at hx
    rw [hflags]
    split at hx
    · rename_i hk
      cases hx
      subst hk
      exact ⟨hres, Function.update_self ..⟩
    · rename_i hk
      rw [Function.update_of_ne hk]
      exact h.parked k x hx
  · intro taskType
    have hold : ((submitted es).filter fun k => typedAs taskType (m'.find? k)) =
        m.queues taskType := by
      rw [h.queues]
      refine List.filter_congr ?_
      intro k hk
      rw [hfind, if_neg]
      rintro rfl
      exact honce hk
    rw [hqueues, submitted_concat, if_pos hs, List.filter_append, hold]
    by_cases hty : taskType = nx.taskType
    · subst hty
      rw [Function.update_self]
      simp [typedAs, hfind]
    · rw [Function.update_of_ne hty]
      simp [typedAs, Ne.symm hty, hfind]

/-- An execution that is folded stays where it is. -/
theorem Store.Rebuilt.change {m' : Store} (h : m.Rebuilt es) {x x' : Execution}
    (present : m.find? e.key = some x) (folds : Execution.Folds x e x')
    (hfind : ∀ k, m'.find? k = if k = e.key then some x' else m.find? k)
    (hqueues : m'.queues = m.queues) (hflags : m'.queued = m.queued) :
    (∀ k x, m'.find? k = some x → x.reserved = false ∧ m'.queued k = true) ∧
      ∀ ty, m'.queues ty = (submitted (es ++ [e])).filter fun k => typedAs ty (m'.find? k) := by
  constructor
  · intro k y hy
    rw [hfind] at hy
    rw [hflags]
    split at hy
    · rename_i hk
      cases hy
      subst hk
      obtain ⟨hres, hqueued⟩ := h.parked _ x present
      exact ⟨reserved_eq_false_of_folds folds hres, hqueued⟩
    · exact h.parked k y hy
  · intro taskType
    rw [hqueues, submitted_concat, if_neg folds.not_starts, List.append_nil]
    refine (h.queues taskType).trans (List.filter_congr ?_)
    intro k _
    rw [hfind]
    split
    · rename_i hk
      rw [hk, present]
      simp [typedAs, (sameWork_of_folds folds).taskType]
    · rfl

/-- **A rebuilt store keeps executions where their submits have put them.** -/
theorem Store.Rebuilt.apply (h : m.Rebuilt es) (honce : Starts e → e.key ∉ submitted es) :
    (m.apply e).1.Rebuilt (es ++ [e]) := by
  have hview : ∀ k, ((m.apply e).1.find? k).map Execution.folded = history k (es ++ [e]) := by
    intro k
    rw [view_apply h.retain, history_concat, h.view]
  have hret : (m.apply e).1.retainTerminal ≤ 0 := (retainTerminal_apply m e).trans_le h.retain
  have hidx : (m.apply e).1.Indexed := h.indexed.apply e
  have hkeep := apply_keeping h.retain e
  generalize (m.apply e).1 = m' at hview hret hidx hkeep
  cases hkeep with
  | ignored refused =>
    -- A submit that was ignored is not the first one of its key.
    have hnot : ¬ Starts e := by
      intro hs
      refine honce hs (h.mem_submitted.mpr ?_)
      rw [← Option.isSome_map, hview, history_isSome_iff]
      exact ⟨e, by simp, rfl, hs⟩
    refine ⟨hret, hidx, hview, h.parked, ?_⟩
    intro ty
    rw [submitted_concat, if_neg hnot, List.append_nil]
    exact h.queues ty
  | created nx ty absent valid =>
    obtain ⟨-, hpending, hres, -⟩ := newExecution_spec valid
    have hs : Starts e := by
      refine ⟨ty, ?_⟩
      have hsome := congrArg Option.isSome (folded_newExecution m.refs e)
      rwa [Option.isSome_map, Option.isSome_map, valid, eq_comm] at hsome
    obtain ⟨hqueues, hflags⟩ := reconcileQueue_of_new (m := m.put e.key nx)
      (h.indexed.queued_eq_false absent) (Execution.free_iff.mpr ⟨hpending, hres⟩)
    have hfind : ∀ k, ((m.put e.key nx).reconcileQueue e.key nx).find? k =
        if k = e.key then some nx else m.find? k := by
      intro k
      rw [find?_reconcileQueue, find?_put]
    obtain ⟨hparked, hline⟩ := h.add hs (honce hs) hres hfind hqueues hflags
    exact ⟨hret, hidx, hview, hparked, hline⟩
  | folded x x' terminalQ present folds =>
    have hqueued : (m.put e.key x').queued e.key = true := (h.parked _ x present).2
    rw [reconcileQueue_of_queued hqueued] at hview hidx hret ⊢
    have hfind : ∀ k, (m.put e.key x').find? k = if k = e.key then some x' else m.find? k :=
      fun k => find?_put m e.key k x'
    obtain ⟨hparked, hline⟩ := h.change present folds hfind rfl rfl
    exact ⟨hret, hidx, hview, hparked, hline⟩

theorem Store.rebuilt_applyAll {retain : ℤ} (hret : retain ≤ 0)
    (honce : es.Pairwise fun e e' => Starts e → Starts e' → e.key ≠ e'.key) :
    ((Store.empty retain).applyAll es).Rebuilt es := by
  induction es using List.reverseRecOn with
  | nil =>
    refine ⟨hret, indexed_empty retain, fun _ => rfl, ?_, fun _ => rfl⟩
    intro k x hx
    cases hx
  | append_singleton es e ih =>
    obtain ⟨hes, -, hlast⟩ := List.pairwise_append.mp honce
    rw [applyAll_append]
    refine (ih hes).apply ?_
    intro hs hmem
    obtain ⟨e', he', hkey⟩ := List.mem_map.mp hmem
    obtain ⟨he', hs'⟩ := List.mem_filter.mp he'
    exact hlast e' he' e (List.mem_singleton_self e) (of_decide_eq_true hs') hs hkey

/-- A rebuilt store hands executions out by the time they were submitted. -/
theorem Store.Rebuilt.line (h : m.Rebuilt es) (taskType : String) :
    m.line taskType = byArrival taskType es := by
  rw [Store.line, h.queues, List.filter_filter, byArrival]
  refine List.filter_congr ?_
  intro k _
  rw [← h.view, pendingOf_folded]
  cases hx : m.find? k with
  | none => simp [ready, hx, typedAs, pendingOf]
  | some x => simp [ready_of_find? hx, Execution.free, (h.parked k x hx).1, typedAs, pendingOf]

theorem nodup_submitted (honce : es.Pairwise fun e e' => Starts e → Starts e' → e.key ≠ e'.key) :
    (submitted es).Nodup := by
  rw [submitted, List.Nodup, List.pairwise_map, List.pairwise_filter]
  refine honce.imp ?_
  intro e e' h hs hs'
  exact h (of_decide_eq_true hs) (of_decide_eq_true hs')

/-- **When a rebuilt store schedules identically.**  After any calls, made one at a time and with
no terminal retention, the store rebuilt from the log hands out the same executions in the same
order as the live store, for every task type and however often it is asked, if and only if the
pending executions of every task type became pending in the order in which they were submitted. -/
theorem schedule_same_iff (c : Config) (hret : c.retainTerminal ≤ 0)
    (calls : List (Request × List (Choice ⊕ Time))) (s : State)
    (h : (callsAlone c).serial Thread.finished (State.init c) calls = some s) :
    (∀ taskType n, (s.store.reservations taskType n).map Execution.folded =
        (((Store.empty c.retainTerminal).applyAll s.log).reservations taskType n).map
          Execution.folded) ↔
      ∀ taskType, byTurn taskType s.log = byArrival taskType s.log := by
  have htidy := tidy_serial hret h
  have hsound := htidy.sound .sweepExpired
  have hordered := htidy.ordered .sweepExpired
  have hrebuilt := Store.rebuilt_applyAll hret hsound.once
  refine forall_congr' fun taskType => ?_
  have hlive : s.store.line taskType = byTurn taskType s.log :=
    (hordered.line s.log (List.append_nil _).symm taskType).symm
  rw [Store.reservations_agree_iff (hordered.lined.nodup taskType) ?_ ?_ hsound.keyed, hlive,
    hrebuilt.line]
  · rw [hrebuilt.queues]
    exact (nodup_submitted hsound.once).filter _
  · intro k
    rw [htidy.view, hrebuilt.view]

/-! ## A retried execution -/

/-- Steps of a call that nothing disturbs. -/
def steps (n : ℕ) : List (Choice ⊕ Time) := List.replicate n (.inl .go)

/-- Two tasks are submitted, the first is leased and fails, and is to be retried. -/
def retriedFirst : List (Request × List (Choice ⊕ Time)) :=
  [(.submit (.plain "v" "build"), steps 4),
    (.submit (.plain "w" "build"), steps 4),
    (.leaseBatch ⟨"build", "w1", 1, 0⟩, steps 8),
    (.fail ⟨⟨"acme", "p", "v", "w1", 1⟩, "boom", true⟩, steps 7)]

/-- The ids of what two calls of `ReserveNext` return. -/
def firstTwo (m : Store) : List String := (m.reservations "build" 2).map Execution.workflowID

theorem rebuilt_schedule_differs :
    ∃ s, (callsAlone .default).serial Thread.finished (State.init .default) retriedFirst = some s ∧
      firstTwo s.store = ["w", "v"] ∧
      firstTwo ((Store.empty Config.default.retainTerminal).applyAll s.log) = ["v", "w"] := by
  have hrun : ((callsAlone .default).serial Thread.finished (State.init .default)
      retriedFirst).map (fun s => (firstTwo s.store,
        firstTwo ((Store.empty Config.default.retainTerminal).applyAll s.log))) =
      some (["w", "v"], ["v", "w"]) := by
    decide +kernel
  obtain ⟨s, hs, heq⟩ := Option.map_eq_some_iff.mp hrun
  rw [Prod.mk.injEq] at heq
  exact ⟨s, hs, heq⟩

/-- Two tasks are submitted, and the first is leased. -/
def leasedFirst : List (Request × List (Choice ⊕ Time)) := retriedFirst.take 3

theorem schedule_same_leased :
    ∃ s, (callsAlone .default).serial Thread.finished (State.init .default) leasedFirst = some s ∧
      firstTwo s.store = ["w"] ∧
      firstTwo ((Store.empty Config.default.retainTerminal).applyAll s.log) = ["w"] ∧
      ((∀ taskType n, (s.store.reservations taskType n).map Execution.folded =
          (((Store.empty Config.default.retainTerminal).applyAll s.log).reservations taskType n).map
            Execution.folded) ↔
        ∀ taskType, byTurn taskType s.log = byArrival taskType s.log) := by
  have hrun : ((callsAlone .default).serial Thread.finished (State.init .default)
      leasedFirst).map (fun s => (firstTwo s.store,
        firstTwo ((Store.empty Config.default.retainTerminal).applyAll s.log))) =
      some (["w"], ["w"]) := by
    decide +kernel
  obtain ⟨s, hs, heq⟩ := Option.map_eq_some_iff.mp hrun
  rw [Prod.mk.injEq] at heq
  exact ⟨s, hs, heq.1, heq.2, schedule_same_iff .default (by decide) leasedFirst s hs⟩

end AgentBus.Workflow
