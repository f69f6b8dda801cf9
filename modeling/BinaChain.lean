import BinaChain.Support.Word
import BinaChain.Support.Text
import BinaChain.Support.Hex
import BinaChain.Support.HexWord
import BinaChain.Support.Maps
import BinaChain.Support.Machine
import BinaChain.Support.Ranking
import BinaChain.Support.Chain
import BinaChain.Support.Merkle
import BinaChain.Support.Seen
import BinaChain.Support.Abi
import BinaChain.Support.Table
import BinaChain.Support.Residue
import BinaChain.Core.Crypto
import BinaChain.Core.Block
import BinaChain.Core.Transaction
import BinaChain.Core.Claims
import BinaChain.Core.Randomness
import BinaChain.Core.BitcoinEntropy
import BinaChain.Core.Difficulty
import BinaChain.Core.Rewards
import BinaChain.Ledger.Identity
import BinaChain.Ledger.Execution
import BinaChain.Ledger.StateRoot
import BinaChain.Ledger.Rows
import BinaChain.Ledger.Replay
import BinaChain.Ledger.Payee
import BinaChain.Ledger.Schedule
import BinaChain.Ledger.Conservation
import BinaChain.Node.Store
import BinaChain.Node.Sqlite
import BinaChain.Node.StoreMap
import BinaChain.Node.State
import BinaChain.Node.Admission
import BinaChain.Node.Mining
import BinaChain.Node.Body
import BinaChain.Node.Sync
import BinaChain.Node.Reconcile
import BinaChain.Node.ChainWork
import BinaChain.Node.Encoding
import BinaChain.Node.Election
import BinaChain.Node.System
import BinaChain.Node.Coherence
import BinaChain.Node.Provenance
import BinaChain.Node.Nullifiers
import BinaChain.Node.Equivalence
import BinaChain.Node.Trace
import BinaChain.Node.Canonical
import BinaChain.Node.Retarget
import BinaChain.Node.Pinning
import BinaChain.Node.Supply
import BinaChain.Node.Calls
import BinaChain.Node.Peers
import BinaChain.Node.Relay
import BinaChain.Evm.Oracle
import BinaChain.Evm.MinedAction
import BinaChain.Node.Restart
import BinaChain.Node.Pointer
import BinaChain.Node.Attested
import BinaChain.Node.Checkpoints
import BinaChain.Evm.BinaOracle
import BinaChain.Evm.Bonds
import BinaChain.Evm.Ingestion
import BinaChain.Evm.Quorum
import BinaChain.Evm.Deauthorised
import BinaChain.Evm.Utility
import BinaChain.Evm.Liveness
import BinaChain.Evm.FastPath
import BinaChain.Evm.Custody
import BinaChain.Evm.Relink
import BinaChain.Evm.BinaKeys
import BinaChain.Node.ForkPoint
import BinaChain.Node.Requeue
import BinaChain.Node.Winner
import BinaChain.Ledger.Atomic
import BinaChain.Node.MempoolBound
import BinaChain.Node.Commitment
import BinaChain.Ledger.History
import BinaChain.Node.TotalWork
import BinaChain.Ledger.Torn
import BinaChain.Node.RateLimit
import BinaChain.Evm.Committee
import BinaChain.Evm.Rotation
import BinaChain.Evm.Signatures
import BinaChain.Evm.RelinkLog
import BinaChain.Evm.Raffle
import BinaChain.Evm.Verifier
import BinaChain.Evm.Decompression
import BinaChain.Node.Staleness
import BinaChain.Core.Contributions
import BinaChain.Core.Pow
import BinaChain.Evm.MinerToken
import BinaChain.Evm.MinerRegistry
import BinaChain.Evm.MinerLottery
import BinaChain.Ledger.Names
import BinaChain.Node.Agreement
import BinaChain.Node.Serving
import BinaChain.Node.Flood
