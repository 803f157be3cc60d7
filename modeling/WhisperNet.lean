import WhisperNet.Lib.Dict
import WhisperNet.Lib.Machine
import WhisperNet.Lib.Window
import WhisperNet.Python.Value
import WhisperNet.Python.Text
import WhisperNet.Crypto.Primitives
import WhisperNet.Crypto.Reference
import WhisperNet.Crypto.Signer
import WhisperNet.Crypto.Tamper
import WhisperNet.Crypto.Shamir
import WhisperNet.Crypto.Ciphers
import WhisperNet.Ledger.Task
import WhisperNet.Ledger.Ops
import WhisperNet.Ledger.Effects
import WhisperNet.Ledger.Calls
import WhisperNet.Ledger.Completed
import WhisperNet.Ledger.Convergence
import WhisperNet.Cluster.Network
import WhisperNet.Cluster.Authenticity
import WhisperNet.Cluster.Agreement
import WhisperNet.Lib.Action
import WhisperNet.Membership.State
import WhisperNet.Membership.Handlers
import WhisperNet.Membership.Effects
import WhisperNet.Lib.Linked
import WhisperNet.Membership.Outreach
import WhisperNet.Cluster.Mesh
import WhisperNet.Cluster.Healing
import WhisperNet.Runtime.Scan
import WhisperNet.Runtime.Coverage
import WhisperNet.Runtime.Rescue
import WhisperNet.Cluster.Partition
import WhisperNet.Crypto.Wrap
import WhisperNet.Crypto.Recovery
import WhisperNet.Crypto.Opening
import WhisperNet.Runtime.Execute
import WhisperNet.Runtime.Shares
import WhisperNet.Runtime.RoundTrip
import WhisperNet.Ledger.Restart
import WhisperNet.Runtime.Threads
import WhisperNet.Runtime.Zombies
import WhisperNet.Runtime.InFlight
import WhisperNet.Membership.Suspicion
import WhisperNet.Membership.Transitions
import WhisperNet.Lib.Branching
import WhisperNet.Runtime.Node
import WhisperNet.Cluster.Flood
import WhisperNet.Runtime.Redelivery
import WhisperNet.Cluster.Leases
import WhisperNet.Cluster.Attestation
import WhisperNet.Runtime.Malformed
import WhisperNet.Cluster.Disclosure
import WhisperNet.Python.Json
import WhisperNet.Python.JsonRoundTrip
import WhisperNet.Ledger.Crash
import WhisperNet.Ledger.News
import WhisperNet.Runtime.Traffic
import WhisperNet.Cluster.Replication
import WhisperNet.Crypto.Secrecy
import WhisperNet.Membership.Quorum
import WhisperNet.Runtime.Shareholders
import WhisperNet.Runtime.BadShares
import WhisperNet.Ledger.Atomicity
import WhisperNet.Lib.FirstLeast
import WhisperNet.Lib.Between
import WhisperNet.Lib.Contest
import WhisperNet.Lib.Custody
import WhisperNet.Runtime.Auction
import WhisperNet.Runtime.Bidding
import WhisperNet.Runtime.Renewal
import WhisperNet.Cluster.LeaseSign
import WhisperNet.Ledger.Traces
import WhisperNet.Membership.Exceptions
import WhisperNet.Membership.AllOrNothing
import WhisperNet.Membership.Newest
import WhisperNet.Membership.Overlay
import WhisperNet.Membership.Joins
import WhisperNet.Demo.Snapshot
import WhisperNet.Demo.Spawning
import WhisperNet.Demo.Views
import WhisperNet.Demo.Poller
import WhisperNet.Demo.Registry
import WhisperNet.Demo.Economy
import WhisperNet.Demo.Payments
import WhisperNet.Demo.Mttr
import WhisperNet.Lib.Pieces
import WhisperNet.Lib.HashChain
import WhisperNet.Lib.Keccak
import WhisperNet.Python.Unicode
import WhisperNet.Pyens.Names
import WhisperNet.Pyens.ChildLabels
import WhisperNet.Pyens.Reference
import WhisperNet.Pyens.Minting
import WhisperNet.Cluster.Provenance
import WhisperNet.Runtime.Reports
import WhisperNet.Cluster.Delivery
import WhisperNet.Cluster.Verdicts
import WhisperNet.Cluster.Durability
import WhisperNet.Demo.Clients
import WhisperNet.Cluster.Forward
import WhisperNet.Cluster.OwnLeases
import WhisperNet.Cluster.Handover
import WhisperNet.Lib.Grouping
import WhisperNet.Pyens.Store
import WhisperNet.Pyens.History
import WhisperNet.Pyens.Ownership
