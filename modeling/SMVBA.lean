import SMVBA.Library.Network
import SMVBA.Library.Repeats
import SMVBA.Library.Quorum
import SMVBA.Library.Replay
import SMVBA.Library.Rounds
import SMVBA.Library.Logs
import SMVBA.Library.Framing
import SMVBA.Library.Mealy
import SMVBA.Library.Threads
import SMVBA.Library.Channel
import SMVBA.Library.Ring
import SMVBA.Library.Tasks
import SMVBA.Library.Numerals
import SMVBA.Library.Scanning
import SMVBA.Consensus.Config
import SMVBA.Config.CommitteeFile
import SMVBA.Consensus.Message
import SMVBA.Consensus.Aggreator
import SMVBA.Consensus.Elector
import SMVBA.Consensus.Commitor
import SMVBA.Consensus.Core
import SMVBA.Consensus.Run
import SMVBA.Rules.Basic
import SMVBA.Rules.Refinement
import SMVBA.Rules.Sent
import SMVBA.Rules.Spb
import SMVBA.Rules.Votes
import SMVBA.Rules.Locals
import SMVBA.Rules.Blocks
import SMVBA.Rules.Facts
import SMVBA.Rules.Answers
import SMVBA.Rules.Available
import SMVBA.Rules.Leaders
import SMVBA.Network.System
import SMVBA.Network.Blocks
import SMVBA.Network.Exec
import SMVBA.Network.Certificates
import SMVBA.Network.Once
import SMVBA.Network.Halts
import SMVBA.Network.Reproposals
import SMVBA.Network.Rounds
import SMVBA.Network.LeaderTable
import SMVBA.Network.Equivocation
import SMVBA.Node.Abandon
import SMVBA.Node.Epochs
import SMVBA.Node.Commits
import SMVBA.Node.CommitLog
import SMVBA.Node.Tallies
import SMVBA.Node.Adoption
import SMVBA.Node.Halting
import SMVBA.Node.LoopBack
import SMVBA.Node.VoteCounts
import SMVBA.Node.Channel
import SMVBA.Network.Transport
import SMVBA.Spb.Calls
import SMVBA.Spb.OneVote
import SMVBA.Spb.Buffers
import SMVBA.Network.Agreement
import SMVBA.Network.CommitOrder
import SMVBA.Pool.TxQueue
import SMVBA.Mempool.Store
import SMVBA.Mempool.StoreLoop
import SMVBA.Mempool.Synchronizer
import SMVBA.Mempool.Mempool
import SMVBA.Mempool.Replica
import SMVBA.Mempool.Waiters
import SMVBA.Mempool.Bookkeeping
import SMVBA.Mempool.Refinement
import SMVBA.Mempool.Payloads
import SMVBA.Mempool.Origins
import SMVBA.Mempool.Availability
import SMVBA.Mempool.Queue
import SMVBA.Mempool.Requests
import SMVBA.Mempool.Fetching
import SMVBA.Mempool.LoopBacks
import SMVBA.Network.Replicas
import SMVBA.Network.Retrieval
import SMVBA.Network.Recommits
import SMVBA.Network.Conservation
import SMVBA.Benchmark.Consistency
import SMVBA.Network.CommitLogs
import SMVBA.Network.Fetching
import SMVBA.Byzantine.System
import SMVBA.Byzantine.Coin
import SMVBA.Byzantine.Decisions
import SMVBA.Node.Election
import SMVBA.Node.Duplicates
import SMVBA.Node.Thresholds
import SMVBA.Node.Views
import SMVBA.Node.Instances
import SMVBA.Network.Progress
import SMVBA.Network.Coins
import SMVBA.Wire.Message
import SMVBA.Wire.Hashes
import SMVBA.Wire.Preimages
import SMVBA.Wire.Receive
import SMVBA.Wire.Crashes
import SMVBA.Wire.Authenticity
