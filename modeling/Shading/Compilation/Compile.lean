import Shading.Compilation.Error
import Shading.Emission.Text
import Shading.Lowering.Function

/-! From the source of one stage to its artifact. -/
namespace Shading
open Reporting

/-- The uniforms of a source, and the module that it is lowered to. -/
def lowerSource (o : CompileOptions) (lib : Source.Library) (source : String) :
    Reporting CompileError (UniformTable × Bytecode.Module) := do
  ofExcept (o.check.mapError CompileError.options)
  note .debug ("compiling " ++ o.file ++ " as " ++ o.stage.name ++ " shader for " ++ o.target.text ++
    " (optimize = " ++ toString o.optimize ++ ")")
  let u := StageSource.withDefines { stage := o.stage, file := o.file, text := source } o.defines
  let checked ← mapError .front (u.check lib)
  let linked ← mapError .link (link [checked])
  let (uniforms, program) ← mapError .registers (Linked.reflect linked.program)
  let lowered ← mapError .lowering (Lowering.lower program)
  return (uniforms, lowered)

def compileStages (o : CompileOptions) (lib : Source.Library) (source : String) :
    Reporting CompileError Artifact := do
  let (uniforms, lowered) ← lowerSource o lib source
  let optimized ← mapError .optimizer (Bytecode.optimize lowered o.optimize o.file)
  let text ← mapError .emission (Emission.emit optimized o.target.version o.target.es)
  note .debug ("compiled " ++ o.file ++ ": " ++ toString uniforms.length ++ " uniforms, " ++
    toString text.utf8ByteSize ++ " bytes of source")
  return ⟨uniforms, text⟩

/-- Says why a compilation failed, if nobody has said it yet. -/
def tellFailure (o : CompileOptions) (e : CompileError) : Reporting CompileError Unit := do
  if !e.isReported then report (.error o.file e.line e.message)
  note .debug ("compile of " ++ o.file ++ " failed at " ++ e.kind ++ " stage")

def compile (o : CompileOptions) (lib : Source.Library) (source : String) :
    Reporting CompileError Artifact :=
  tryCatch (compileStages o lib source) fun e => do
    tellFailure o e
    throw e

/-- Users of the compiler: those that came and did not leave yet, and those among them that leave by
themselves. -/
structure Sessions where
  active : Nat := 0
  guards : Nat := 0
  deriving DecidableEq, Repr

namespace Sessions

def enter (s : Sessions) : Sessions := { s with active := s.active + 1 }

def leave (s : Sessions) : Sessions := { s with active := s.active - 1 }

def guard (s : Sessions) : Sessions := ⟨s.active + 1, s.guards + 1⟩

def release (s : Sessions) : Sessions :=
  if s.guards = 0 then s else ⟨s.active - 1, s.guards - 1⟩

@[simp] theorem release_guard (s : Sessions) : s.guard.release = s := by simp [guard,release]

end Sessions

/-- A compilation whose artifact goes to a sink. -/
structure Shipment where
  taken : List UInt8
  outcome : Except CompileError Artifact
  journal : Journal
  sessions : Sessions

/-- Compiles inside of a session and writes the artifact to a sink. -/
def shipTo (s : Sessions) (o : CompileOptions) (lib : Source.Library) (source : String)
    (sink : Artifact.Sink) : Shipment :=
  let open_ := s.guard
  let (result, journal) := (compile o lib source).run.run {}
  match result with
  | .error e => ⟨[], .error e, journal, open_.release⟩
  | .ok a =>
    let d := a.deliverTo sink
    ⟨d.taken, (d.outcome.mapError .artifact).map fun _ => a, journal, open_.release⟩

def ship (s : Sessions) (o : CompileOptions) (lib : Source.Library) (source : String)
    (capacity : Option Nat) : Shipment := shipTo s o lib source (.closing capacity)

end Shading
