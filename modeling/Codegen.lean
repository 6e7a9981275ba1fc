import Codegen.BitSet
import Codegen.Main
import Codegen.Proofs.Heap
import Codegen.Proofs.Flow.Cutting
import Codegen.Proofs.Flow.Entry
import Codegen.Proofs.Flow.Exit
import Codegen.Proofs.Flow.Joined
import Codegen.Proofs.Flow.Meaning
import Codegen.Proofs.Select.Address
import Codegen.Proofs.Select.Behaviour
import Codegen.Proofs.Select.Generates
import Codegen.Proofs.Select.Calls
import Codegen.Proofs.Select.Acceptance
import Codegen.Proofs.Evaluation
import Codegen.Proofs.Select.Order
import Codegen.Proofs.Flow.Branches
import Codegen.Proofs.Flow.Graph
import Codegen.Proofs.Select.Supply
import Codegen.Proofs.Source.Reading
import Codegen.Proofs.Source.Scanned
import Codegen.Proofs.Source.Sentence
import Codegen.Proofs.Source.Resolved
import Codegen.Proofs.Source.Traversal
import Codegen.Proofs.Flow.References
import Codegen.Proofs.Select.Checked
import Codegen.Proofs.Lowering
import Codegen.Proofs.Flow.Edges
import Codegen.Proofs.Flow.Labelling
import Codegen.Proofs.BitSet
import Codegen.Proofs.Flow.Relabel
import Codegen.Proofs.Select.Labels
import Codegen.Proofs.Independence
import Codegen.Proofs.Flow.Partition
import Codegen.Proofs.Flow.Fixpoint
import Codegen.Proofs.Flow.Adjacency
import Codegen.Proofs.Flow.FallThrough
import Codegen.Proofs.Select.Condition
import Codegen.Proofs.Select.Emission
import Codegen.Proofs.Select.Operands
import Codegen.Proofs.Select.Stack
import Codegen.Proofs.Liveness
import Codegen.Proofs.Select.Ownership
import Codegen.Proofs.Select.CallNodes
import Codegen.Proofs.AddressText
import Codegen.Proofs.Select.Matching
import Codegen.Proofs.Wire
import Codegen.Proofs.Flow.Repeated
