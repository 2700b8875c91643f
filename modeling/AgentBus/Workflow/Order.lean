import AgentBus.Workflow.Counts
import AgentBus.Workflow.History
import AgentBus.Workflow.Poller

/-!
# The order of a replay

The status counts and the index of running executions say nothing that the executions do not say
(`Store.Counted`).  Without a retention bound the executions depend on the events of each key
alone, so two replays that agree key by key build the same store as far as these go, whatever the
order across keys.  The poller reads one partition after the other, which is such an order.

## Main definitions

* `Store.Agrees` — the same executions, counts and running keys.
* `replay` — the store rebuilt from a list of events.
-/

namespace AgentBus.Workflow

open AgentStream Broker

/-- The store rebuilt from a list of events, with nothing retired. -/
def replay (es : List Event) : Store := (Store.empty 0).applyAll es

namespace Store

/-- The same executions, counts and running keys. -/
structure Agrees (s s' : Store) : Prop where
  executions : ∀ k, (s.find? k).map Execution.folded = (s'.find? k).map Execution.folded
  counts : s.counts = s'.counts
  running : s.running.Perm s'.running

/-! ## Replays -/

theorem Agrees.trans {s₁ s₂ s₃ : Store} (h : s₁.Agrees s₂) (h' : s₂.Agrees s₃) : s₁.Agrees s₃ where
  executions k := (h.executions k).trans (h'.executions k)
  counts := h.counts.trans h'.counts
  running := h.running.trans h'.running

/-- **The executions decide the counts and the running keys.** -/
theorem Counted.agrees {s s' : Store} (h : s.Counted) (h' : s'.Counted)
    (hview : ∀ k, (s.find? k).map Execution.folded = (s'.find? k).map Execution.folded) :
    s.Agrees s' := by
  have hstatus : ∀ k, (s.find? k).map Execution.status = (s'.find? k).map Execution.status := by
    intro k
    have heq := congrArg (Option.map Execution.status) (hview k)
    rwa [Option.map_map, Option.map_map] at heq
  refine ⟨hview, ?_, ?_⟩
  · funext st
    rw [h.counts, h'.counts, tally_congr hstatus]
  · refine (List.perm_ext_iff_of_nodup h.nodup h'.nodup).mpr ?_
    intro k
    rw [h.running, h'.running, hstatus]

end Store

/-- Replays of lists that agree key by key agree. -/
theorem replay_agrees {es es' : List Event} (h : ∀ k, history k es = history k es') :
    (replay es).Agrees (replay es') := by
  have hcounted : ∀ fs, (replay fs).Counted := fun fs =>
    let ⟨_, hkept⟩ := Store.kept_applyAll 0 fs
    hkept.tallied.counted
  refine (hcounted es).agrees (hcounted es') ?_
  intro k
  have hview : ∀ fs, ((replay fs).find? k).map Execution.folded = history k fs := fun fs =>
    Store.view_applyAll (s := Store.empty 0) le_rfl fs k
  rw [hview, hview, h]

/-! ## The poller -/

/-- The history of a key is the history of its partition. -/
theorem history_ofPartition (k : String) (es : List Event) :
    history k (ofPartition defaultTopicPartitions (keyPartition defaultTopicPartitions k) es) =
      history k es := by
  rw [history, history, filter_key_partition]

/-- **What a poller has read rebuilds the same store as any order of it.** -/
theorem drain_agrees {b : Broker (List UInt8)} {n : ℕ} {view : ℕ → List (List UInt8)}
    {es : List Event} (h : Reads topic defaultPollBatch b n view es) :
    ∃ cs s, drain b n (List.replicate defaultTopicPartitions 0, Store.empty 0) = some (cs, s) ∧
      s.Agrees (replay es) := by
  obtain ⟨cs, fs, hpoll, hfs⟩ := h.poll (fun s e => (s.apply e).1) (by decide) (Store.empty 0)
  refine ⟨cs, replay fs, hpoll, replay_agrees ?_⟩
  intro k
  rw [history, history, hfs]

/-- **The order across keys does not matter.**  Two lists of events that have the same events in
the same order for every key rebuild the same executions, counts and running keys; and so does a
poller that reads one of them, partition by partition and batch by batch. -/
theorem replay_order_irrelevant (es es' : List Event)
    (h : ∀ k, (es.filter fun e => e.key = k) = es'.filter fun e => e.key = k) :
    (replay es).Agrees (replay es') ∧
      ∀ b n view, Reads topic defaultPollBatch b n view es →
        ∃ cs s, drain b n (List.replicate defaultTopicPartitions 0, Store.empty 0) = some (cs, s) ∧
          s.Agrees (replay es') := by
  have hagrees : (replay es).Agrees (replay es') :=
    replay_agrees fun k => congrArg (List.foldl foldView none) (h k)
  refine ⟨hagrees, ?_⟩
  intro b n view hreads
  obtain ⟨cs, s, hdrain, hs⟩ := drain_agrees hreads
  exact ⟨cs, s, hdrain, hs.trans hagrees⟩

/-- The submits of two executions. -/
def twoSubmits : List Event :=
  ["v", "w"].map fun id =>
    (Frame.submit (.plain id "build")).event .default 0

theorem replay_order_irrelevant_two :
    (replay twoSubmits).Agrees (replay twoSubmits.reverse) ∧
      (∃ b view, Reads topic defaultPollBatch b 1 view twoSubmits) ∧
      ∀ b n view, Reads topic defaultPollBatch b n view twoSubmits →
        ∃ cs s, drain b n (List.replicate defaultTopicPartitions 0, Store.empty 0) = some (cs, s) ∧
          s.Agrees (replay twoSubmits.reverse) := by
  have hsame : ∀ k, (twoSubmits.filter fun e => e.key = k) =
      twoSubmits.reverse.filter fun e => e.key = k := filter_key_swap (by decide +kernel)
  have hcomplete : ∀ e ∈ twoSubmits, e.Complete ∧ e.validate.isOk = true := by
    decide +kernel
  have hreads := exists_reads topic defaultPollBatch 4 1 hcomplete (by decide +kernel)
    (by decide +kernel)
  obtain ⟨hagrees, hpoller⟩ := replay_order_irrelevant twoSubmits twoSubmits.reverse hsame
  exact ⟨hagrees, hreads, hpoller⟩

end AgentBus.Workflow
