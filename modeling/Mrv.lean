import Mrv.Lib.HashMap
import Mrv.Lib.SortedMap
import Mrv.Lib.Search
import Mrv.Lib.Quorum
import Mrv.Lib.Walk
import Mrv.Lib.System
import Mrv.Lib.Except
import Mrv.Crypto
import Mrv.Config
import Mrv.Messages
import Mrv.Consensus.State
import Mrv.Consensus.Update
import Mrv.Consensus.Run
import Mrv.Consensus.Flatten
import Mrv.Consensus.Leaders
import Mrv.Consensus.Invariant
import Mrv.Consensus.Linked
import Mrv.Consensus.Agreement
import Mrv.Consensus.Commit
import Mrv.Consensus.Order
import Mrv.Consensus.History
import Mrv.Consensus.Content
import Mrv.Primary.Verify
import Mrv.Lib.Handler
import Mrv.Primary.Core
import Mrv.Primary.Handlers
import Mrv.Primary.Run
import Mrv.Primary.Delivery
import Mrv.Primary.Voting
import Mrv.Primary.Validity
import Mrv.Primary.Rejection
import Mrv.Primary.Aggregation
import Mrv.Primary.Proposer
import Mrv.Consensus.Panic
import Mrv.Executor.State
import Mrv.Lib.Kahn
import Mrv.Executor.Run
import Mrv.Executor.Update
import Mrv.Executor.Invariant
import Mrv.Executor.Linear
import Mrv.Executor.Output
import Mrv.Executor.Finality
import Mrv.Executor.Visibility
import Mrv.Lib.Reorder
import Mrv.Executor.Canonical
import Mrv.Executor.Evidence
import Mrv.Executor.Window
import Mrv.Lib.Saturation
import Mrv.Executor.Strict
import Mrv.Executor.Causality
import Mrv.Commitment
import Mrv.Thresholds
import Mrv.Primary.Growth
import Mrv.Primary.Helper
import Mrv.Primary.Suspension
import Mrv.Primary.Parking
import Mrv.Consensus.Retention
import Mrv.Keys
import Mrv.Network.ReliableSender
import Mrv.Store.Task
import Mrv.Worker.BatchMaker
import Mrv.Worker.QuorumWaiter
import Mrv.Lib.Blocking
import Mrv.Primary.Awaiting
import Mrv.Primary.Deadlock
import Mrv.Primary.Moves
import Mrv.Primary.Hashing
import Mrv.Primary.Supply
import Mrv.Consensus.Progress
import Mrv.Consensus.Relabel
import Mrv.Lib.View
import Mrv.Primary.Backing
import Mrv.Primary.Steady
import Mrv.Primary.Panic
import Mrv.Protocol.Agreement
import Mrv.Protocol.Pipeline
import Mrv.Protocol.Progress
import Mrv.Lib.Bincode
import Mrv.Wire
import Mrv.Lib.Waits
import Mrv.Protocol.Cluster
