import PointerSemantics.Builder
import PointerSemantics.Exploration
import PointerSemantics.Json.Options
import PointerSemantics.Json.Program
import PointerSemantics.Json.Reader
import PointerSemantics.Json.State
import PointerSemantics.Swap.Validation
import PointerSemantics.Twin
import PointerSemantics.WellFormed
import PointerSemantics.Proofs.AddrRange
import PointerSemantics.Proofs.Exec
import PointerSemantics.Proofs.Memory.Invariant
import PointerSemantics.Proofs.Memory.Preservation
import PointerSemantics.Proofs.Values
import PointerSemantics.Proofs.Pointers
import PointerSemantics.Proofs.Effects
import PointerSemantics.Proofs.Reachable
import PointerSemantics.Proofs.Runs
import PointerSemantics.Proofs.Splitting
import PointerSemantics.Proofs.Memory.Access
import PointerSemantics.Proofs.Memory.Addresses
import PointerSemantics.Proofs.Memory.Stability
import PointerSemantics.Proofs.Memory.Commute
import PointerSemantics.Proofs.Memory.ReadWrite
import PointerSemantics.Proofs.Memory.LiveBytes
import PointerSemantics.Proofs.Action
import PointerSemantics.Proofs.Swap.Actions
import PointerSemantics.Proofs.Swap.Diamond
import PointerSemantics.Proofs.Swap.Instructions
import PointerSemantics.Proofs.Swap.Pairs
import PointerSemantics.Proofs.Swap.Code
import PointerSemantics.Proofs.Swap.Simulation
import PointerSemantics.Proofs.Swap.Validation
import PointerSemantics.Proofs.Blind
import PointerSemantics.Proofs.Memory.Proposals
import PointerSemantics.Proofs.Twin
import PointerSemantics.Proofs.Clock
import PointerSemantics.Proofs.Answers
import PointerSemantics.Proofs.Leaves
import PointerSemantics.Proofs.Codec
import PointerSemantics.Proofs.Roundtrip
import PointerSemantics.Proofs.Search
import PointerSemantics.Proofs.Branching
import PointerSemantics.Proofs.Refinement
import PointerSemantics.Proofs.Build
import PointerSemantics.Proofs.Bookkeeping
import PointerSemantics.Proofs.Checked.Words
import PointerSemantics.Proofs.Checked.Operands
import PointerSemantics.Proofs.Checked.Pointers
import PointerSemantics.Proofs.Checked.Memory
import PointerSemantics.Proofs.Checked.Step
import PointerSemantics.Proofs.Memory.Requests
import PointerSemantics.Proofs.History
import PointerSemantics.Proofs.Casts
import PointerSemantics.Proofs.Comparison
import PointerSemantics.Proofs.Supplied
import PointerSemantics.Proofs.Definitions
import PointerSemantics.Proofs.Pieces
import PointerSemantics.Proofs.Construction
import PointerSemantics.Proofs.Typing
import PointerSemantics.Proofs.Calls
import PointerSemantics.Proofs.Lockstep
import PointerSemantics.Proofs.Unforgeable
import PointerSemantics.Proofs.Allocation
import PointerSemantics.Proofs.Locality
import PointerSemantics.Proofs.Memory.FirstFit
import PointerSemantics.Proofs.BitVectors
import PointerSemantics.Proofs.Operands
import PointerSemantics.Proofs.Poison
import PointerSemantics.Proofs.Moves
import PointerSemantics.Proofs.Distance
import PointerSemantics.Proofs.Zero
import PointerSemantics.Proofs.Swap.OutOfMemory
import PointerSemantics.Proofs.Json.State
