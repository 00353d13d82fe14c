import MutationGuard.Bytes
import MutationGuard.Bytes.Lemmas
import MutationGuard.Hex
import MutationGuard.Invariant
import MutationGuard.Invariant.Constraint
import MutationGuard.Invariant.Error
import MutationGuard.Invariant.Guard
import MutationGuard.Invariant.Report
import MutationGuard.Invariant.Validate
import MutationGuard.Lock
import MutationGuard.Machine.Activation
import MutationGuard.Machine.Bytecode
import MutationGuard.Machine.Error
import MutationGuard.Machine.Fragment
import MutationGuard.Machine.FrameGuard
import MutationGuard.Machine.Gas
import MutationGuard.Machine.Listing
import MutationGuard.Machine.Memory
import MutationGuard.Machine.Op
import MutationGuard.Machine.Run
import MutationGuard.Machine.Stack
import MutationGuard.Machine.Step
import MutationGuard.Machine.Transaction
import MutationGuard.Policy.Basic
import MutationGuard.Policy.Codec
import MutationGuard.Policy.Permission
import MutationGuard.Proofs.Atomicity
import MutationGuard.Proofs.Batch
import MutationGuard.Proofs.Budget
import MutationGuard.Proofs.Built
import MutationGuard.Proofs.Comparison
import MutationGuard.Proofs.Destruction
import MutationGuard.Proofs.Effect
import MutationGuard.Proofs.Ensures
import MutationGuard.Proofs.Firewall
import MutationGuard.Proofs.FlatState
import MutationGuard.Proofs.Immutability
import MutationGuard.Proofs.LazyDecoding
import MutationGuard.Proofs.Ledger
import MutationGuard.Proofs.ReadOnly
import MutationGuard.Proofs.Record
import MutationGuard.Proofs.Restriction
import MutationGuard.Proofs.Session
import MutationGuard.Proofs.Spending
import MutationGuard.Proofs.Supply
import MutationGuard.Proofs.Tally
import MutationGuard.Proofs.Termination
import MutationGuard.Proofs.Transparency
import MutationGuard.Proofs.Txn
import MutationGuard.Proofs.Unmetered
import MutationGuard.Rlp.Encode
import MutationGuard.Rlp.Item
import MutationGuard.Scenario.Sample
import MutationGuard.Scenario.Script
import MutationGuard.Scenario.World
import MutationGuard.Serial
import MutationGuard.Sha256
import MutationGuard.State.Account
import MutationGuard.State.Outage
import MutationGuard.State.Overlay
import MutationGuard.State.Table
import MutationGuard.State.Txn
import MutationGuard.Word
import MutationGuard.Word.Lemmas
import MutationGuard.Proofs.Commit
import MutationGuard.Rlp.Lemmas
import MutationGuard.Policy.Lemmas
import MutationGuard.Proofs.RoundTrip
import MutationGuard.Proofs.Strictness
import MutationGuard.Invariant.Lemmas
import MutationGuard.Proofs.Protocol
import MutationGuard.Proofs.Nesting
import MutationGuard.Proofs.Validation
import MutationGuard.Proofs.Bounds
import MutationGuard.Proofs.Calls
import MutationGuard.Proofs.FailedCalls
import MutationGuard.Proofs.HaltReasons
import MutationGuard.Proofs.Resolution
import MutationGuard.Proofs.Intersection
import MutationGuard.Proofs.Composition
import MutationGuard.Proofs.MemoryRange
import MutationGuard.Machine.Access
import MutationGuard.Proofs.Tiling
import MutationGuard.Proofs.Packing
import MutationGuard.Proofs.Rereading
import MutationGuard.Proofs.MemoryHistory
import MutationGuard.Proofs.RestrictOperation
import MutationGuard.Proofs.Truncation
import MutationGuard.Proofs.Advance
import MutationGuard.Proofs.Layout
import MutationGuard.Proofs.Installation
import MutationGuard.Proofs.Deployment
import MutationGuard.Proofs.LiveSlots
import MutationGuard.Proofs.Growth
