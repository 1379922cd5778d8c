import Orchestrator.Acceptance
import Orchestrator.Closure
import Orchestrator.Cluster.Loops
import Orchestrator.Cluster.Published
import Orchestrator.Cluster.Settled
import Orchestrator.Concurrent.Cancellation
import Orchestrator.Concurrent.FanIn
import Orchestrator.Concurrent.Signals
import Orchestrator.Delivery.Alone
import Orchestrator.Delivery.Consumed
import Orchestrator.Delivery.Delivered
import Orchestrator.Isolation.Calls
import Orchestrator.Memory.Agreement
import Orchestrator.Memory.Rollback
import Orchestrator.Ownership
import Orchestrator.Recovery
import Orchestrator.Redislock
import Orchestrator.Server.Poller
import Orchestrator.Store.Migrations
import Orchestrator.System.Claims
import Orchestrator.System.Confluence
import Orchestrator.System.Crash
import Orchestrator.System.Instances
import Orchestrator.System.Leases
import Orchestrator.System.Maps
import Orchestrator.System.Meaning
import Orchestrator.System.Progress
import Orchestrator.Widths
