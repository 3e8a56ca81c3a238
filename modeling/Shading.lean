import Shading.Proofs.ArtifactFormat
import Shading.Proofs.Bytecode.ModuleFormat
import Shading.Proofs.Emission.DistinctNames
import Shading.Proofs.Emission.Reads
import Shading.Proofs.Linked.Locations
import Shading.Proofs.Linked.Resources
import Shading.Proofs.Linked.WorkGroups
import Shading.Proofs.Lowering.Evaluation
import Shading.Proofs.Lowering.ReadOnly
import Shading.Proofs.OptimizedBehavior
import Shading.Proofs.Pass.Renumbering
import Shading.Proofs.Pass.Sweeping
import Shading.Proofs.Shipping
import Shading.Proofs.Surface.Printing
import Shading.Proofs.Typed.ConstantExpr
import Shading.Source.FileTree
import Shading.Surface.Outline
import Shading.Typed.Outline
import Shading.Proofs.Source.Expanding
import Shading.Proofs.Source.CleanLines
import Shading.Proofs.Typed.IntegerConst
