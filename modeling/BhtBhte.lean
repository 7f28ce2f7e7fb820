import BhtBhte.Script.HybridSig
import BhtBhte.Script.PqFormat
import BhtBhte.Script.PqWitness
import BhtBhte.Mldsa.Correct
import BhtBhte.Mldsa.Equivalence
import BhtBhte.Mldsa.Framing
import BhtBhte.Mldsa.Fallback
import BhtBhte.Mldsa.Widths
import BhtBhte.Mldsa.Canonical
import BhtBhte.Mldsa.Challenges
import BhtBhte.Mldsa.ShakeFallback
import BhtBhte.Mldsa.Shake
import BhtBhte.Settlement.Withdrawals
import BhtBhte.Settlement.Pending
import BhtBhte.Settlement.Merkle
import BhtBhte.Settlement.Approvals
import BhtBhte.Settlement.Fraud
import BhtBhte.Settlement.Refusals
import BhtBhte.Settlement.Paused
import BhtBhte.Settlement.Attestations
import BhtBhte.Node.Supply
import BhtBhte.Node.Duplicates
import BhtBhte.Node.Broadcasts
import BhtBhte.Node.Undo
import BhtBhte.Node.Replayable
import BhtBhte.Node.Keys
import BhtBhte.Node.Remine
import BhtBhte.Node.Solvent
import BhtBhte.Node.Nonces
import BhtBhte.Node.Roots
import BhtBhte.Node.ForkChoice
import BhtBhte.Node.Agreement
import BhtBhte.Node.Receipts
import BhtBhte.Node.Forgeries
import BhtBhte.Node.Recovery
import BhtBhte.Node.Finality
import BhtBhte.Node.Requests
import BhtBhte.Node.Bans
import BhtBhte.Node.Durable
import BhtBhte.Node.Reload
import BhtBhte.Node.Validators
import BhtBhte.Node.References
import BhtBhte.Node.Syncs
import BhtBhte.Node.History
import BhtBhte.Node.Writes
import BhtBhte.Node.Commits
import BhtBhte.Node.Rpc
import BhtBhte.Node.Anchors
import BhtBhte.Channel.Signatures
import BhtBhte.Channel.Index
import BhtBhte.Channel.Closing
import BhtBhte.Network.HtlcRuns
import BhtBhte.Network.Capacity
import BhtBhte.Network.HtlcIndex
import BhtBhte.Network.Shortest
import BhtBhte.Anchor.Records
import BhtBhte.Anchor.Queries
import BhtBhte.Bhc.Rechecks
import BhtBhte.Bhc.Binding
import BhtBhte.Bhc.Cleanup
import BhtBhte.Bhc.Registration
import BhtBhte.Bhc.Matching
import BhtBhte.Bhc.Mutexes
import BhtBhte.Bhc.Coordination
import BhtBhte.Bhc.RateLimits
import BhtBhte.Bhc.Observer
import BhtBhte.Pow.Transition
import BhtBhte.Pow.Acceptance
import BhtBhte.Pow.Extension
import BhtBhte.Pow.Digest
import BhtBhte.Spv.Work
import BhtBhte.Spv.Headers
import BhtBhte.Spv.Transactions
import BhtBhte.Spv.Branches
import BhtBhte.Spv.Soundness
import BhtBhte.Spv.Chains
import BhtBhte.Withdrawal.Period
import BhtBhte.Withdrawal.Once
import BhtBhte.Withdrawal.Anchored
import BhtBhte.Withdrawal.Escape
import BhtBhte.Withdrawal.Parsing
import BhtBhte.Wallet.Signer
import BhtBhte.Wallet.Transaction
import BhtBhte.Wallet.Pending
import BhtBhte.Wallet.Manager
import BhtBhte.Wallet.MultiMode
import BhtBhte.Hardware.Paths
import BhtBhte.Hardware.Apdus
import BhtBhte.WalletPro.Wire
import BhtBhte.WalletPro.Responses
import BhtBhte.WalletPro.Recovery
import BhtBhte.WalletPro.Bridge
import BhtBhte.Vm.Goroutines
