import AgentBus.Broker.Notify
import AgentBus.Broker.Subscription
import AgentBus.Cluster.Agreement
import AgentBus.Cluster.Cancel
import AgentBus.Cluster.Durability
import AgentBus.Cluster.Exposure
import AgentBus.Cluster.FailedAppend
import AgentBus.Cluster.Follower
import AgentBus.Cluster.Leadership
import AgentBus.Cluster.Quorum
import AgentBus.Cluster.Refresh
import AgentBus.Cluster.Ring
import AgentBus.Cluster.Router
import AgentBus.Cluster.ShardCommit
import AgentBus.Cluster.Snapshot
import AgentBus.Cluster.Streams
import AgentBus.Consumer.Flusher
import AgentBus.Consumer.OffsetsFile
import AgentBus.Consumer.Staleness
import AgentBus.Controlplane.Escalation
import AgentBus.Controlplane.Gauges
import AgentBus.Controlplane.InboxRaces
import AgentBus.Controlplane.Liveness
import AgentBus.Controlplane.Pollers
import AgentBus.Controlplane.Waiting
import AgentBus.Eventbus.Handoff
import AgentBus.Eventbus.Redirect
import AgentBus.Eventbus.ReplaySession
import AgentBus.Grpcapi.Consume
import AgentBus.Grpcapi.FetchPaths
import AgentBus.Grpcapi.Pages
import AgentBus.Grpcapi.Pagination
import AgentBus.Grpcapi.Visibility
import AgentBus.Protocol.Batch
import AgentBus.Protocol.Frame
import AgentBus.Ratelimit.Isolation
import AgentBus.Wal.Corruption
import AgentBus.Wal.Crash
import AgentBus.Wal.GroupCommit
import AgentBus.Wal.Versions
import AgentBus.Workflow.Answers
import AgentBus.Workflow.AttemptBound
import AgentBus.Workflow.Completion
import AgentBus.Workflow.Failover
import AgentBus.Workflow.Fifo
import AgentBus.Workflow.Isolation
import AgentBus.Workflow.LeaseHold
import AgentBus.Workflow.Progress
import AgentBus.Workflow.Redelivery
import AgentBus.Workflow.Replay
import AgentBus.Workflow.Restart
import AgentBus.Workflow.Retention
import AgentBus.Workflow.Schedule
import AgentBus.Workflow.StoreRuns
import AgentBus.Workflow.TaskTypes
import AgentBus.Workflow.Transitions
import AgentBus.Workflow.Wakeup
