import LazyTensor.Proofs.Layout.Binding
import LazyTensor.Proofs.Graph.Collect
import LazyTensor.Proofs.Program.Scope
import LazyTensor.Proofs.Program.Simulation
import LazyTensor.Proofs.Kernel.Scheduled
import LazyTensor.Proofs.OpTree.Key
import LazyTensor.Proofs.Graph.Complete
import LazyTensor.Proofs.Layout.Collapse
import LazyTensor.Proofs.Layout.Contraction
import LazyTensor.Proofs.Graph.Answer
import LazyTensor.Proofs.Table.Split
import LazyTensor.Proofs.SymInt.Formed
import LazyTensor.Proofs.SymInt.Canonical
import LazyTensor.Proofs.SymInt.Division
import LazyTensor.Proofs.Program.Launch
import LazyTensor.Proofs.Kernel.Lanes
import LazyTensor.Proofs.Integers
