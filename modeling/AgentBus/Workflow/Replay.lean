import AgentBus.AgentStream.Codec
import AgentBus.Lib.Ledger
import AgentBus.Workflow.History
import AgentBus.Workflow.Steps
import Mathlib.Data.List.Infix

/-!
# The live store and the log

A call publishes its event and folds it in two steps.  Two calls on one execution can publish in one
order and fold in the other, and the fold does not commute: of two concurrent submits the log keeps
the first, and the live store the one that was folded first (`submit_order_differs`).

When every fold takes the next event of its key, the live store is the fold of the log whenever no
call is between its publish and its fold (`live_eq_replay`).

## Main definitions

* `traced` — the coordinator, with a record of the events folded.
* `inLogOrder` — every fold takes the next event of its key, and the poller does not run.
-/

namespace AgentBus.Workflow

open AgentStream Pool

/-- The coordinator, with the events its calls have folded, in order. -/
def traced (c : Config) : Program (State × List Event) Thread Request Choice EnvStep :=
  (coordinator c).trace fun t => (t.folding? c).toList

/-- A fold takes the next event of its key in the log, and the poller does not run. -/
def inLogOrder (c : Config) : Guard (State × List Event) Thread Choice EnvStep where
  thread s t _ := ∀ e ∈ t.folding? c,
    ((s.2 ++ [e]).filter fun e' => e'.key = e.key) <+: s.1.log.filter fun e' => e'.key = e.key
  env _ e := e ≠ .poll

/-- What every step of such a run keeps. -/
structure Replayed (s : State × List Event) : Prop where
  retain : s.1.store.retainTerminal ≤ 0
  /-- The live store is the fold of the events folded. -/
  live : ∀ k, (s.1.store.find? k).map Execution.folded = history k s.2
  order : InOrder Event.key s.1.log s.2

variable {c : Config} {s s' : State} {t t' : Thread} {l : Choice}

/-- A step adds to the log what it leaves to be folded. -/
theorem Steps.log_eq (h : Steps c s t l s' t') : s'.log = s.log ++ (t'.folding? c).toList := by
  rcases h.log_cases with ⟨hlog, hnone⟩ | ⟨f, stamp, -, rfl, rfl⟩
  · rw [hlog, hnone]
    exact (List.append_nil _).symm
  · rfl

/-- A thread that is about to fold an event folds it. -/
theorem Steps.store_of_folding (h : Steps c s t l s' t') {e : Event} (ht : t.folding? c = some e) :
    s'.store = (s.store.apply e).1 := by
  cases h with
  | fold f stamp =>
    cases ht
    rfl
  | quiet t t' l h => cases h <;> cases ht
  | _ => cases ht

/-- **What a step keeps.** -/
theorem Replayed.step {folds : List Event} (h : Replayed (s, folds))
    (hguard : (inLogOrder c).thread (s, folds) t l) (hstep : Steps c s t l s' t') :
    Replayed (s', folds ++ (t.folding? c).toList) := by
  have hret : s.store.retainTerminal ≤ 0 := h.retain
  refine ⟨by rw [hstep.retainTerminal]; exact hret, ?_, ?_⟩
  · intro k
    have hlive := h.live k
    cases ht : t.folding? c with
    | none =>
      rw [hstep.folded_find? ht, Option.toList_none, List.append_nil]
      exact hlive
    | some e =>
      rw [hstep.store_of_folding ht, Store.view_apply hret, Option.toList_some, history_concat,
        hlive]
  · have horder : InOrder Event.key s.log (folds ++ (t.folding? c).toList) := by
      cases ht : t.folding? c with
      | none =>
        rw [Option.toList_none, List.append_nil]
        exact h.order
      | some e => exact h.order.settle (hguard e ht)
    rw [hstep.log_eq]
    cases t'.folding? c with
    | none =>
      rw [Option.toList_none, List.append_nil]
      exact horder
    | some e => exact horder.issue [e]

/-- **The invariant of the runs that fold in log order.** -/
theorem replayed_of_reach (hret : c.retainTerminal ≤ 0) {w : World (State × List Event) Thread}
    (h : (traced c).Reach (inLogOrder c) (State.init c, []) w) :
    Holds Replayed (fun _ _ => True) (fun _ _ => True) w := by
  refine Program.Reach.local_invariant (fun _ _ _ => trivial) ?_ ?_ ?_ ?_ h
  · exact ⟨hret, fun k => rfl, .refl _ _⟩
  · exact fun _ _ _ => ⟨trivial, fun _ _ => trivial⟩
  · rintro ⟨s, folds⟩ t l s' t' hs - hguard hstep
    obtain ⟨⟨s₁, t₁⟩, hrun, heq⟩ := Option.map_eq_some_iff.mp hstep
    cases heq
    exact ⟨⟨hs.step hguard (coordinator_steps hrun), trivial⟩, fun _ _ _ => ⟨trivial, trivial⟩⟩
  · rintro ⟨s, folds⟩ e s' hs hguard hstep
    refine ⟨?_, fun _ _ => trivial⟩
    obtain ⟨s₁, henv, rfl⟩ := Option.map_eq_some_iff.mp hstep
    obtain ⟨now, -, rfl⟩ := (environment_spec henv).tick_of_ne hguard
    exact ⟨hs.retain, hs.live, hs.order⟩

/-- What was published is what was folded and what the calls are about to fold. -/
theorem log_perm (hret : c.retainTerminal ≤ 0) {w : World (State × List Event) Thread}
    (h : (traced c).Reach (inLogOrder c) (State.init c, []) w) :
    w.shared.1.log.Perm (w.shared.2 ++ w.threads.flatMap fun t => (t.folding? c).toList) := by
  refine Program.Reach.balance (fun s => s.1.log) Prod.snd (fun t => (t.folding? c).toList)
    (fun w hw => replayed_of_reach hret hw) (List.Perm.refl _) (fun _ => rfl) ?_ ?_ h
  · rintro ⟨s, folds⟩ t l s' t' - - - hstep
    obtain ⟨⟨s₁, t₁⟩, hrun, heq⟩ := Option.map_eq_some_iff.mp hstep
    cases heq
    exact ⟨_, _, (coordinator_steps hrun).log_eq, rfl, .refl _⟩
  · rintro ⟨s, folds⟩ e s' hstep
    obtain ⟨s₁, henv, rfl⟩ := Option.map_eq_some_iff.mp hstep
    refine ⟨?_, rfl⟩
    cases environment_spec henv with
    | tick | fetch | deliver => rfl

/-- **The live store is the fold of the log.**  In every run whose folds take the next event of
their key, whenever no call is in flight, replaying the log into an empty store gives every
execution its folded fields. -/
theorem live_eq_replay (c : Config) (hret : c.retainTerminal ≤ 0)
    (w : World (State × List Event) Thread)
    (h : (traced c).Reach (inLogOrder c) (State.init c, []) w)
    (hquiet : ∀ t ∈ w.threads, t.finished = true) (k : String) :
    (w.shared.1.store.find? k).map Execution.folded =
      (((Store.empty c.retainTerminal).applyAll w.shared.1.log).find? k).map Execution.folded := by
  have hinv := (replayed_of_reach hret h).shared
  have hnone : (w.threads.flatMap fun t => (t.folding? c).toList) = [] := by
    refine List.flatMap_eq_nil_iff.mpr fun t ht => ?_
    have hfinished := hquiet t ht
    cases t <;> first | rfl | cases hfinished
  have hperm := log_perm hret h
  rw [hnone, List.append_nil] at hperm
  rw [hinv.live, Store.view_applyAll hret, history, hinv.order.filter_eq hperm]
  rfl

/-! ## Two submits of one execution -/

/-- Both have published, the first one first. -/
def bothPublished : List (Act Request Choice EnvStep) :=
  [.spawn (.submit (.plain "w" "build")), .spawn (.submit (.plain "w" "deploy"))] ++ goOn 0 3 ++
    goOn 1 3

instance (c : Config) (s : State × List Event) (t : Thread) (l : Choice) :
    Decidable ((inLogOrder c).thread s t l) :=
  inferInstanceAs (Decidable (∀ e ∈ t.folding? c, _))

instance (c : Config) (s : State × List Event) (e : EnvStep) :
    Decidable ((inLogOrder c).env s e) :=
  inferInstanceAs (Decidable (e ≠ .poll))

/-- Folded in the order of the log, and leased: the store is what a replay gives. -/
theorem submit_order_kept :
    ∃ w, (traced .default).Reach (inLogOrder .default) (State.init .default, []) w ∧
      (∀ t ∈ w.threads, t.finished = true) ∧
      (w.shared.1.store.find? "acme/p/w").map (fun x => (x.taskType, x.attempt)) =
        some ("build", 1) ∧
      (w.shared.1.store.find? "acme/p/w").map Execution.folded =
        (((Store.empty 0).applyAll w.shared.1.log).find? "acme/p/w").map Execution.folded := by
  have hrun : ((traced .default).execWithin (inLogOrder .default) ⟨(State.init .default, []), []⟩
      (bothPublished ++ goOn 0 1 ++ goOn 1 1 ++ arrive 2 8 (.leaseBatch ⟨"build", "w1", 1, 0⟩))).map
        (fun w => (w.threads.all Thread.finished,
          (w.shared.1.store.find? "acme/p/w").map fun x => (x.taskType, x.attempt))) =
      some (true, some ("build", 1)) := by
    decide +kernel
  obtain ⟨w, hreach, heq⟩ := Program.exists_reach_within hrun
  rw [Prod.mk.injEq, List.all_eq_true] at heq
  exact ⟨w, hreach, heq.1, heq.2, live_eq_replay .default (by decide) w hreach heq.1 _⟩

/-- **The live store runs one task and the log says another.**  The second submit is folded first:
it creates the execution, and the first is ignored. -/
theorem submit_order_differs :
    ∃ w, (coordinator .default).Reach Guard.all (State.init .default) w ∧
      (∀ t ∈ w.threads, t.finished = true) ∧
      (w.shared.store.find? "acme/p/w").map Execution.taskType = some "deploy" ∧
      (((Store.empty 0).applyAll w.shared.log).find? "acme/p/w").map Execution.taskType =
        some "build" := by
  have hrun : ((coordinator .default).exec ⟨State.init .default, []⟩
      (bothPublished ++ goOn 1 1 ++ goOn 0 1)).map (fun w => (w.threads.all Thread.finished,
        (w.shared.store.find? "acme/p/w").map Execution.taskType,
        (((Store.empty 0).applyAll w.shared.log).find? "acme/p/w").map Execution.taskType)) =
      some (true, some "deploy", some "build") := by
    decide +kernel
  obtain ⟨w, hw, heq⟩ := Program.exists_reach hrun
  rw [Prod.mk.injEq, Prod.mk.injEq, List.all_eq_true] at heq
  exact ⟨w, hw, heq⟩

end AgentBus.Workflow
