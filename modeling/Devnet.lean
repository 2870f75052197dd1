import Devnet.Chain.Interleaving
import Devnet.Chain.Reception
import Devnet.Cli.Genesis
import Devnet.Core.Lifecycle
import Devnet.Core.Endpoint
import Devnet.Duties.GenesisPubkeys
import Devnet.Lib.WriteOnce
import Devnet.Duties.OneTime
import Devnet.Engine.Envelope
import Devnet.Engine.Authentic
import Devnet.Engine.Countable
import Devnet.Engine.Lmd
import Devnet.Engine.Latency
import Devnet.Engine.Ladder
import Devnet.Engine.Imports
import Devnet.Engine.Proposing
import Devnet.Engine.Replicas
import Devnet.Engine.Agreement
import Devnet.Engine.SafeTarget
import Devnet.Engine.VoteTarget
import Devnet.ForkChoice.Packing
import Devnet.Lib.Ballots
import Devnet.Lib.Effects
import Devnet.Lib.Run
import Devnet.Lib.Tables
import Devnet.Lib.Trees
import Devnet.Lib.Twins
import Devnet.P2p.Callers
import Devnet.P2p.RpcCodec
import Devnet.P2p.Slots
import Devnet.Node.ConsensusLoop
import Devnet.Node.Gauges
import Devnet.Protocol.Accountable
import Devnet.Protocol.Conflict
import Devnet.Protocol.History
import Devnet.Protocol.Batches
import Devnet.Protocol.Binding
import Devnet.Protocol.Failures
import Devnet.Protocol.Ream
import Devnet.Protocol.Justifiable
import Devnet.Ssz.FullTree
import Devnet.Storage.Backends
import Devnet.Sync.Adversary
import Devnet.Sync.Watch
import Devnet.Types.RawBits
import Devnet.Crypto.Windows
import Devnet.Crypto.Containers
import Devnet.Node.Silence
import Devnet.Cli.Ceremony
