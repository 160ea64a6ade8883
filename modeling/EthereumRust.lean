import EthereumRust.Evm.JumpDest
import EthereumRust.Evm.Panics
import EthereumRust.Evm.MemoryGas
import EthereumRust.Evm.Logs
import EthereumRust.Evm.Operands
import EthereumRust.Rlp.Overflow
import EthereumRust.Trie.Transparent
import EthereumRust.Trie.ProofCorrect
import EthereumRust.Trie.Reload
import EthereumRust.Parallel.SortedSchedules
import EthereumRust.Parallel.Commit
import EthereumRust.Consensus.Prune
import EthereumRust.Consensus.Voting
import EthereumRust.Consensus.RecentSigners
import EthereumRust.Consensus.Finality
import EthereumRust.Consensus.Balances
import EthereumRust.Consensus.RequestStores
import EthereumRust.Consensus.Exits
import EthereumRust.Verkle.Binding
import EthereumRust.Verkle.Proof
import EthereumRust.Das.PeerDas
import EthereumRust.Verification.State
import EthereumRust.Ssf.Strategies
import EthereumRust.Filter.Polling
import EthereumRust.Network.Connection
import EthereumRust.Network.Discovery
import EthereumRust.Network.DiscoveryV5
import EthereumRust.HistoryExpiry.Archival
import EthereumRust.HistoryExpiry.Retrieval
import EthereumRust.Account.KeyFile
import EthereumRust.Txpool.Selection
import EthereumRust.Evm.MemoryModel
import EthereumRust.Evm.ModExp
import EthereumRust.Consensus.CommitteeDraw
import EthereumRust.Engine.Canonical
import EthereumRust.Engine.Api
import EthereumRust.Parallel.Conflicts
import EthereumRust.Consensus.CommonAncestor
import EthereumRust.Consensus.LongestChain
import EthereumRust.Mev.BaseFee
import EthereumRust.Core.BlobPool
import EthereumRust.Parallel.Groups
import EthereumRust.Mev.Auction
import EthereumRust.Ssf.Formation
import EthereumRust.Verkle.Witness
import EthereumRust.HistoryExpiry.FileSystem
import EthereumRust.Genesis
