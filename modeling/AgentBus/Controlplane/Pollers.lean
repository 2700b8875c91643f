import AgentBus.AgentStream.Cursors
import AgentBus.Controlplane.RunStates
import AgentBus.Workflow.Poller

/-!
# The two pollers while messages are published

The pollers of `internal/workflow` and `internal/controlplane` keep their cursors from pass to pass
while publishers write and rings drop what is old.  Both are instances of
`AgentBus.AgentStream.Cursors`: a pass that is not interrupted is their `drainOnce`
(`run_workflow_pass`, `run_controlplane_pass`), and every run is accounted for
(`pollers_account_for_every_offset`).
-/

namespace AgentBus.Controlplane

open AgentStream Broker

/-- `Ingest` of the coordinator, as its poller calls it. -/
def ingestWorkflow (s : Workflow.Store) (e : Event) : Workflow.Store := (s.apply e).1

/-- An uninterrupted pass of the workflow poller. -/
theorem run_workflow_pass (d : Tailing Workflow.Store) (hpart : d.part = 0) :
    (d.run Workflow.topic Workflow.defaultPollBatch ingestWorkflow
        (List.replicate d.cursors.length .fetch)).map (fun d' => (d'.cursors, d'.state)) =
      (Workflow.drainOnce d.broker d.cursors d.state).map fun r => (r.1, r.2.1) := by
  rw [run_pass _ _ _ [] d.cursors d rfl hpart, Workflow.drainOnce, hpart]
  rfl

/-- An uninterrupted pass of the control plane's poller. -/
theorem run_controlplane_pass (clock : ℕ → Time) (topic : String) (d : Tailing (ControlPlane × ℕ))
    (hpart : d.part = 0) :
    (d.run topic defaultPollBatch (ingestNext clock)
        (List.replicate d.cursors.length .fetch)).map (fun d' => (d'.cursors, d'.state)) =
      (drainOnce clock topic d.broker d.cursors d.state).map fun r => (r.1, r.2.1) := by
  rw [run_pass _ _ _ [] d.cursors d rfl hpart, drainOnce, hpart]
  rfl

/-- **The pollers skip and repeat nothing.**  Over rings of any capacity, on a topic with any
number of partitions and with publishes between any two fetches, both pollers examine increasing
offsets, account for every offset below a cursor, and hand over the envelopes among what they
examine. -/
theorem pollers_account_for_every_offset (capacity n : ℕ) (as : List Act) :
    (∀ s : Workflow.Store, ∃ d,
      (Tailing.start (Workflow.newPoller ((Broker.new capacity).ensureTopic Workflow.topic n))
        s).run Workflow.topic Workflow.defaultPollBatch ingestWorkflow as = some d ∧
      Accounts ingestWorkflow s d) ∧
    ∀ (clock : ℕ → Time) (topic : String) (cp : ControlPlane × ℕ), ∃ d,
      (Tailing.start (newPoller ((Broker.new capacity).ensureTopic topic n) topic)
        cp).run topic defaultPollBatch (ingestNext clock) as = some d ∧
      Accounts (ingestNext clock) cp d := by
  constructor
  · intro s
    rw [Workflow.newPoller, Broker.ensureTopic_ensureTopic]
    exact run_accounts Workflow.topic _ _ capacity n s as
  · intro clock topic cp
    rw [newPoller, Broker.ensureTopic_ensureTopic]
    exact run_accounts topic _ _ capacity n cp as

end AgentBus.Controlplane
