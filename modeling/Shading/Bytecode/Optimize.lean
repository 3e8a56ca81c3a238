import Shading.Bytecode.Pass.DeadCode
import Shading.Bytecode.Pass.DeadFunctions
import Shading.Bytecode.Pass.Fold
import Shading.Bytecode.Pass.Naming
import Shading.Bytecode.Pass.Unreachable
import Shading.Bytecode.Validity
import Shading.Diagnostic

/-! Passes in their order, and the check of what they leave. -/
namespace Shading.Bytecode
open Reporting

inductive Pass where
  | deadFunctions
  | unreachable
  | fold
  | deadCode
  | localNames
  | compact
  deriving DecidableEq, Repr

namespace Pass

def all : List Pass := [.deadFunctions, .unreachable, .fold, .deadCode, .localNames, .compact]

def legalization : List Pass := [.deadFunctions, .unreachable]

def performance : List Pass := [.fold, .deadCode, .localNames, .compact]

def name : Pass → String
  | .deadFunctions => "eliminate-dead-functions"
  | .unreachable => "remove-unreachable-code"
  | .fold => "fold-constants"
  | .deadCode => "eliminate-dead-code"
  | .localNames => "strip-local-names"
  | .compact => "compact-ids"

def ofName? (s : String) : Option Pass := all.find? fun p => p.name == s

def run [Beyond] : Pass → List Instruction → Result
  | .deadFunctions => dropDeadFunctions
  | .unreachable => dropUnreachable
  | .fold => foldScalars
  | .deadCode => dropDeadCode
  | .localNames => dropLocalNames
  | .compact => renumber

end Pass

inductive OptimizeError where
  | undecodable (f : Fault)
  | failed (p : Pass) (f : Pass.Fault)
  | decorationsChanged
  | unassemblable (f : Fault)
  deriving DecidableEq, Repr

namespace OptimizeError

def message : OptimizeError → String
  | .undecodable f => "cannot decode module: " ++ f.message
  | .failed p f => p.name ++ ": " ++ f.message
  | .decorationsChanged => "binding and location decorations changed during optimization"
  | .unassemblable f => "cannot assemble module: " ++ f.message

def severity : OptimizeError → Severity
  | .decorationsChanged => .internalError
  | _ => .fatal

end OptimizeError

def nameOf? (code : List Instruction) (id : Id) : Option String :=
  (code.filter fun i => i.op == .debugName && i.operands.head? == some id).findSome?
    Instruction.text?

/-- A decoration by the name of its target. -/
structure NamedDecoration where
  target : Option String
  kind : UInt32
  value : UInt32
  deriving DecidableEq, Repr

def decorations [Beyond] (code : List Instruction) : List NamedDecoration :=
  (code.filter fun i => i.op == .decorate).map fun i =>
    ⟨nameOf? code (i.operand 0), i.operand 1, i.operand 2⟩

def fatal {α : Type} (source : String) (e : OptimizeError) : Reporting OptimizeError α := do
  report ⟨e.severity, source, 0, e.message⟩
  throw e

def runPasses [Beyond] (source : String) : List Pass → List Instruction →
    Reporting OptimizeError (List Instruction)
  | [], code => return code
  | p :: ps, code => do
    note .debug ("running pass " ++ p.name ++ " on " ++ source)
    report ⟨.debug, source, 0, "running pass " ++ p.name⟩
    match p.run code with
    | .error f => fatal source (.failed p f)
    | .ok r =>
      if let some text := r.note then note .trace text
      runPasses source ps r.code

def decode (m : Module) : Except Fault (Header × List Instruction) := do
  return (← m.header, ← m.instructions)

def boundOf (code : List Instruction) : Id := Pass.maxId code + 1

/-- What the passes make of a module. Only a pass that fails, and decorations that change, are errors;
all else that can be said of the result is reported. -/
def optimize [Beyond] (m : Module) (full : Bool) (source : String) : Reporting OptimizeError Module := do
  match decode m with
  | .error f => fatal source (.undecodable f)
  | .ok (h, code) =>
    let passes := Pass.legalization ++ if full then Pass.performance else []
    let optimized ← runPasses source passes code
    if decorations optimized ≠ decorations code then fatal source .decorationsChanged
    match Module.assemble { h with bound := boundOf optimized } optimized with
    | .error f => fatal source (.unassemblable f)
    | .ok m =>
      let found := m.findings
      reportAll (found.map fun f => .error source f.index f.flaw.message)
      note .debug ("optimized " ++ source ++ " (optimize = " ++ toString full ++ "): " ++
        toString m.words.length ++ " words, " ++ toString found.length ++ " validator findings")
      return m

end Shading.Bytecode
