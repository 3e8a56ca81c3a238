import Shading.Artifact
import Shading.Bytecode.Optimize
import Shading.Compilation.Options
import Shading.Emission.Fault
import Shading.Linked.Link
import Shading.Lowering.Builder

/-! The one error that ends a compilation. -/
namespace Shading

inductive CompileError where
  | front (e : FrontError)
  | link (e : LinkError)
  | registers (f : Linked.RegisterFault)
  | lowering (f : Lowering.Fault)
  | optimizer (e : Bytecode.OptimizeError)
  | emission (f : Emission.Fault)
  | artifact (f : Artifact.Fault)
  | options (f : CompileOptions.Fault)

namespace CompileError

/-- A short name of the work that failed. -/
def kind : CompileError → String
  | .front (.headerNotFound ..) => "include"
  | .front (.located _) => "parse"
  | .link (.merge _) => "link"
  | .link (.place _) => "map"
  | .registers _ => "reflection"
  | .lowering _ => "lowering"
  | .optimizer _ => "optimizer"
  | .emission _ => "emission"
  | .artifact _ => "io"
  | .options _ => "options"

def message : CompileError → String
  | .front e => e.message
  | .link (.merge cause) => "Failed to link program: " ++ cause.message
  | .link (.place f) => "Failed to map IO: " ++ f.message
  | .registers f => "Reflection error: " ++ f.message
  | .lowering f => "Lowering error: " ++ f.message
  | .optimizer e => "Optimizer reported a fatal error: " ++ e.message
  | .emission f => "Emission error: " ++ f.message
  | .artifact f => "Serialization IO error: " ++ f.message
  | .options f => "Invalid options: " ++ f.message

def isReported : CompileError → Bool
  | .link _ | .optimizer _ => true
  | _ => false

def line : CompileError → Nat
  | .front e => e.line
  | _ => 0

end CompileError

end Shading
