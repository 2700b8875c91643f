import AgentBus.AgentStream.Polling
import AgentBus.Grpcapi.Publish
import AgentBus.Workflow.Coordinator

/-!
# The poller over a broker

`internal/workflow/poller.go` on the bytes of a broker: the poller keeps a cursor per
partition of the topic, and a pass fetches a batch from each of them and folds the envelopes
it finds.  It is a poller of `AgentBus.AgentStream.Polling` whose consumer is the store.

## Main definitions

* `newPoller`, `drainOnce`, `drain` — the poller and its passes.
-/

namespace AgentBus.Workflow

open AgentStream Broker

/-- `NewPoller`: the topic exists from now on, and every cursor starts at the beginning. -/
def newPoller (b : Broker (List UInt8)) : Broker (List UInt8) × List ℤ :=
  let b := b.ensureTopic topic 0
  (b, List.replicate (b.partitionCount topic) 0)

/-- `drainOnce`: a single pass over all partitions. -/
def drainOnce (b : Broker (List UInt8)) (cs : List ℤ) (s : Store) :
    Option (List ℤ × Store × ℕ) :=
  pollFrom topic defaultPollBatch (fun s e => (s.apply e).1) b 0 cs s

/-- The cursors and the store after `n` passes. -/
def drain (b : Broker (List UInt8)) (n : ℕ) (d : List ℤ × Store) : Option (List ℤ × Store) :=
  poll topic defaultPollBatch (fun s e => (s.apply e).1) b n d

end AgentBus.Workflow
