import OpGraph.Op.Unpack
import OpGraph.Pass.Script
import OpGraph.Proofs.Edit.Atomic
import OpGraph.Proofs.Edit.Cycles
import OpGraph.Proofs.Edit.Elision
import OpGraph.Proofs.Edit.FeedingNames
import OpGraph.Proofs.Edit.Fusing
import OpGraph.Proofs.Edit.Replacement
import OpGraph.Proofs.Graph.Reinference
import OpGraph.Proofs.Op.ConcatSlices
import OpGraph.Proofs.Op.Refinement
import OpGraph.Proofs.Op.WindowFaults
import OpGraph.Proofs.Op.WindowRounding
import OpGraph.Proofs.Optimize.Blind
import OpGraph.Proofs.Optimize.Collapse
import OpGraph.Proofs.Optimize.Complete
import OpGraph.Proofs.Optimize.Liveness
import OpGraph.Proofs.Optimize.NamedBoundary
import OpGraph.Proofs.Optimize.Repetition
import OpGraph.Proofs.Optimize.Settled
import OpGraph.Proofs.Pass.Disabled
import OpGraph.Proofs.Pattern.Cone
import OpGraph.Proofs.Rule.Incremental
import OpGraph.Proofs.Rule.Reached
import OpGraph.Proofs.Shape.Exactness
import OpGraph.Proofs.Shape.Intersection
import OpGraph.Proofs.Tensor.Associativity
