import NexusPool.Codec.Words
import NexusPool.Hash.BaseUint
import NexusPool.Library.Program
import NexusPool.Library.Serializability
import NexusPool.Library.OrderedMap
import NexusPool.Ledger.Coinbase
import NexusPool.Ledger.Database
import NexusPool.Ledger.Record
import NexusPool.Ledger.DataRegistry
import NexusPool.Ledger.Payout
import NexusPool.Ledger.PayoutRun
import NexusPool.Ledger.Refund
import NexusPool.Ledger.Concurrency
import NexusPool.Network.Framing
import NexusPool.Mining.Prime
import NexusPool.Library.Action
import NexusPool.Library.Run
import NexusPool.Mining.Block
import NexusPool.Server.World
import NexusPool.Server.DaemonConnection
import NexusPool.Server.Step
import NexusPool.Server.MinerEffect
import NexusPool.Server.StepEffect
import NexusPool.Server.CoinbaseExchange
import NexusPool.Server.Startup
import NexusPool.Server.Submissions
import NexusPool.Server.SubmittedBlock
import NexusPool.Server.BlockFinder
import NexusPool.Ledger.Footprint
import NexusPool.Server.Settlement
import NexusPool.Server.Requests
import NexusPool.Server.RequestCount
import NexusPool.Server.Outstanding
import NexusPool.Server.OwnEntry
import NexusPool.Server.Session
import NexusPool.Server.ShareCredit
import NexusPool.Ledger.Disk
import NexusPool.Ledger.RefundFlag
import NexusPool.Server.OrphanedBlocks
import NexusPool.Server.Restart
import NexusPool.Library.Interrupt
import NexusPool.Ledger.Crash
import NexusPool.Codec.Base58
import NexusPool.Server.LoginAddress
import NexusPool.Server.Reward
import NexusPool.Ledger.DatabaseFile
import NexusPool.Ledger.DatabaseCalls
import NexusPool.Ledger.CoinbaseQueries
import NexusPool.Server.RoundNumbers
import NexusPool.Network.Transmit
import NexusPool.Server.Defined
import NexusPool.Server.ClosedConnections
import NexusPool.Server.WalletLoss
import NexusPool.Network.Ddos
import NexusPool.Server.Enforcement
import NexusPool.Server.RebuiltCoinbase
import NexusPool.Ledger.ForeignKeys
import NexusPool.Ledger.RefundExact
import NexusPool.Ledger.PayoutLoop
import NexusPool.Ledger.PayoutTotal
import NexusPool.Ledger.Proportional
import NexusPool.Ledger.FileLoading
import NexusPool.Server.PacketsSent
import NexusPool.Server.InputReads
import NexusPool.Server.ShareVerdict
import NexusPool.Library.Slices
import NexusPool.Server.BlockDelivery
import NexusPool.Server.OrphanWindow
import NexusPool.Ledger.BannedUsers
import NexusPool.Server.Cleanup
import NexusPool.Server.EntryLookup
import NexusPool.Network.DdosAverage
import NexusPool.Server.EchoedBlocks
import NexusPool.Mining.Cluster
import NexusPool.Mining.Fraction
import NexusPool.Codec.Base58Inverse
import NexusPool.Hash.Arithmetic
import NexusPool.Network.DdosBounds
import NexusPool.Codec.LittleEndian
import NexusPool.Library.InPlace
import NexusPool.Library.Rotation
import NexusPool.Library.Sponge
import NexusPool.Hash.KeccakF
import NexusPool.Hash.KeccakRounds
import NexusPool.Hash.KeccakPermutation
import NexusPool.Hash.KeccakSponge
import NexusPool.Hash.KeccakAbsorb
import NexusPool.Hash.KeccakSqueeze
import NexusPool.Library.BitPadding
import NexusPool.Hash.KeccakHash
import NexusPool.Library.Threefish
import NexusPool.Hash.SkeinBlock
import NexusPool.Hash.SkeinCipher
import NexusPool.Library.HoldBack
import NexusPool.Hash.Skein
import NexusPool.Hash.SkeinHash
import NexusPool.Hash.Templates
import NexusPool.Mining.BlockHash
import NexusPool.Ledger.Posting
import NexusPool.Server.Journal
import NexusPool.Server.Audit
import NexusPool.Codec.AddressText
import NexusPool.Hash.HexText
import NexusPool.Server.Recovery
import NexusPool.Server.RoundShares
import NexusPool.Hash.KeccakDuplex
