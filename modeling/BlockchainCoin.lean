import BlockchainCoin.Framework.Base64
import BlockchainCoin.Framework.Bytes
import BlockchainCoin.Framework.Checks
import BlockchainCoin.Framework.Chunks
import BlockchainCoin.Framework.Cursor
import BlockchainCoin.Framework.Delimited
import BlockchainCoin.Framework.Dict
import BlockchainCoin.Framework.Except
import BlockchainCoin.Framework.Ledger
import BlockchainCoin.Framework.Merkle
import BlockchainCoin.Framework.Reorder
import BlockchainCoin.Framework.Sha256
import BlockchainCoin.Framework.Steps
import BlockchainCoin.Framework.Table
import BlockchainCoin.Impl.ByteReader
import BlockchainCoin.Impl.Consensus
import BlockchainCoin.Impl.Crypto
import BlockchainCoin.Impl.Dicts
import BlockchainCoin.Impl.ForkChoice
import BlockchainCoin.Impl.Import
import BlockchainCoin.Impl.Network
import BlockchainCoin.Impl.Node
import BlockchainCoin.Impl.Peer
import BlockchainCoin.Impl.Peers
import BlockchainCoin.Impl.Service
import BlockchainCoin.Impl.Storage
import BlockchainCoin.Impl.Summaries
import BlockchainCoin.Impl.Transaction
import BlockchainCoin.Impl.Transport
import BlockchainCoin.Proof.Activate
import BlockchainCoin.Proof.AddBlock
import BlockchainCoin.Proof.Admission
import BlockchainCoin.Proof.Assembly
import BlockchainCoin.Proof.Atomic
import BlockchainCoin.Proof.Balances
import BlockchainCoin.Proof.BanTerm
import BlockchainCoin.Proof.Banned
import BlockchainCoin.Proof.Block
import BlockchainCoin.Proof.BlockDicts
import BlockchainCoin.Proof.ByteReader
import BlockchainCoin.Proof.Cache
import BlockchainCoin.Proof.Calls
import BlockchainCoin.Proof.Chain
import BlockchainCoin.Proof.Codec
import BlockchainCoin.Proof.Commitment
import BlockchainCoin.Proof.Connections
import BlockchainCoin.Proof.Converge
import BlockchainCoin.Proof.Decode
import BlockchainCoin.Proof.Dial
import BlockchainCoin.Proof.Dicts
import BlockchainCoin.Proof.Downloads
import BlockchainCoin.Proof.Effects
import BlockchainCoin.Proof.Fifo
import BlockchainCoin.Proof.ForkStore
import BlockchainCoin.Proof.ForkTree
import BlockchainCoin.Proof.Frames
import BlockchainCoin.Proof.Genesis
import BlockchainCoin.Proof.Gossip
import BlockchainCoin.Proof.Handshake
import BlockchainCoin.Proof.Headers
import BlockchainCoin.Proof.History
import BlockchainCoin.Proof.Import
import BlockchainCoin.Proof.Included
import BlockchainCoin.Proof.Index
import BlockchainCoin.Proof.Inventory
import BlockchainCoin.Proof.KeepAlive
import BlockchainCoin.Proof.Limits
import BlockchainCoin.Proof.Lives
import BlockchainCoin.Proof.Malformed
import BlockchainCoin.Proof.Malleable
import BlockchainCoin.Proof.Mempool
import BlockchainCoin.Proof.Mined
import BlockchainCoin.Proof.Mining
import BlockchainCoin.Proof.Node
import BlockchainCoin.Proof.Order
import BlockchainCoin.Proof.Parse
import BlockchainCoin.Proof.Peers
import BlockchainCoin.Proof.Pending
import BlockchainCoin.Proof.Propagation
import BlockchainCoin.Proof.Raises
import BlockchainCoin.Proof.Received
import BlockchainCoin.Proof.Reimport
import BlockchainCoin.Proof.Rejected
import BlockchainCoin.Proof.Relay
import BlockchainCoin.Proof.Reload
import BlockchainCoin.Proof.Reopen
import BlockchainCoin.Proof.Reorg
import BlockchainCoin.Proof.Restart
import BlockchainCoin.Proof.Room
import BlockchainCoin.Proof.Root
import BlockchainCoin.Proof.Schedule
import BlockchainCoin.Proof.Serving
import BlockchainCoin.Proof.Signing
import BlockchainCoin.Proof.Spends
import BlockchainCoin.Proof.Stored
import BlockchainCoin.Proof.Stream
import BlockchainCoin.Proof.Summaries
import BlockchainCoin.Proof.Traffic
import BlockchainCoin.Proof.Transaction
import BlockchainCoin.Proof.Unshared
import BlockchainCoin.Proof.Upkeep
import BlockchainCoin.Proof.Wallet
import BlockchainCoin.Proof.Work
import BlockchainCoin.Proof.Counts
