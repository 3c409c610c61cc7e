import LobEngine.Lib.Double
import LobEngine.Lib.Exc
import LobEngine.Lib.Prog
import LobEngine.Lib.Streams
import LobEngine.Types
import LobEngine.Depth
import LobEngine.Executions
import LobEngine.Go.Reachable
import LobEngine.Go.Sequencing
import LobEngine.Go.Determinism
import LobEngine.Go.Untouched
import LobEngine.Go.Atomic
import LobEngine.Go.Command
import LobEngine.Go.Termination
import LobEngine.Go.Guards
import LobEngine.Go.Recovery
import LobEngine.Go.Sums
import LobEngine.Go.Partitioned
import LobEngine.Node.LevelRuns
import LobEngine.Node.Recovery
import LobEngine.Node.Crossing
import LobEngine.Node.Matching
import LobEngine.Node.Priority
import LobEngine.Node.Conservation
import LobEngine.Node.Triggers
import LobEngine.Node.Trailing
import LobEngine.Node.Fills
import LobEngine.Node.Determinism
import LobEngine.Publishing
import LobEngine.Announcing
import LobEngine.Partition
import LobEngine.Engines.Events
import LobEngine.Stops
import LobEngine.Rejected
import LobEngine.Isolation
import LobEngine.Worker.Events
import LobEngine.Worker.Truth
import LobEngine.Worker.Stale
import LobEngine.Worker.Broker
import LobEngine.Worker.Election
import LobEngine.Node.MatchingNode
