import Shading.Diagnostic
import Shading.Emission.Body

/-! The text of a whole module. -/
namespace Shading.Emission
open Bytecode

/-- A parameter as it is declared. -/
structure ParamText where
  mode : ParamMode
  ty : Ty
  name : String
  deriving Repr

structure FunctionText where
  returnTy : Ty
  name : String
  params : List ParamText
  body : List Stmt
  deriving Repr

/-- All that a text says. -/
structure Document where
  target : Target
  stage : Stage
  extensions : List String
  /-- The names of sampler types that have no precision of their own. -/
  samplers : List String
  localSize : Option (UInt32 × UInt32 × UInt32)
  outer : List Outer
  functions : List FunctionText
  deriving Repr

def modeText : ParamMode → String
  | .in_ => ""
  | .out => "out "
  | .inout => "inout "
  | .constIn => "const "

def ParamText.text (p : ParamText) : String := modeText p.mode ++ declaration p.ty p.name

def FunctionText.text (f : FunctionText) : String :=
  f.returnTy.text ++ " " ++ f.name ++ "(" ++ ", ".intercalate (f.params.map ParamText.text) ++
    ")\n\x7b\n" ++ textOf 1 f.body ++ "\x7d\n"

namespace Document

def precisionStatements (d : Document) : List String :=
  if d.target.es then
    ["precision " ++ (if d.stage = .fragment then "mediump" else "highp") ++ " float;",
      "precision highp int;"] ++ d.samplers.map fun s => "precision highp " ++ s ++ ";"
  else []

def localSizeLines (d : Document) : List String :=
  match d.localSize with
  | some (x, y, z) =>
    ["layout(local_size_x = " ++ toString x.toNat ++ ", local_size_y = " ++ toString y.toNat ++
      ", local_size_z = " ++ toString z.toNat ++ ") in;"]
  | none => []

def text (d : Document) : String :=
  let head := d.target.versionLine :: d.extensions.map (fun e => "#extension " ++ e ++ " : enable") ++
    d.precisionStatements ++ d.localSizeLines ++
    (if d.outer.isEmpty then [] else "" :: d.outer.map Outer.text)
  String.join (head.map (· ++ "\n")) ++ String.join (d.functions.map fun f => "\n" ++ f.text)

end Document

def writeParam (s : Scene) (p : Param) : Write ParamText := do
  let ty ← s.tables.ty (← require (.paramNoPointer p.id) (s.tables.pointers.lookup p.ptrTy))
  let name ← takeName p.id (s.tables.names.lookup p.id)
  setTerm p.id (.name name)
  return ⟨p.mode, ty, name⟩

def mentioned (code : List Instruction) : List Id :=
  code.flatMap fun i => i.references.drop (if i.op.hasResultType then 1 else 0)

def writeFunction [Beyond] (s : Scene) (name : String) (f : Function) : Write FunctionText := do
  let params ← f.params.mapM (writeParam s)
  let nodes ← controlTree name f.body
  writeNodes s nodes
  settle s
  let returnTy ← s.tables.ty f.returnTy
  return ⟨returnTy, name, params, (← get).written.reverse⟩

def sorted (texts : List String) : List String := texts.eraseDups.mergeSort fun a b => a ≤ b

def needsPrecision (s : Sampler) : Bool := s.name != "sampler2D" && s.name != "samplerCube"

def Tables.samplers (t : Tables) : List String :=
  sorted (t.types.filterMap fun (_, ty) =>
    match ty with
    | .sampler s => if needsPrecision s then some s.name else none
    | _ => none)

def writeFunctions [Beyond] (c : Context) (g : Globals) (used : List String) (names : Table String) :
    List (String × Function) → Except Fault (List FunctionText × List String)
  | [] => .ok ([], [])
  | (name, f) :: rest => do
    let s : Scene :=
      { c with globalTerms := g.terms, functionNames := names, mentioned := mentioned f.body }
    let (text, w) ← (writeFunction s name f).run { used }
    let (texts, extensions) ← writeFunctions c g used names rest
    return (text :: texts, w.extensions ++ extensions)

def Context.document [Beyond] (c : Context) : Except Fault Document := do
  let g ← c.globals
  let (functions, used) := c.assignFunctionNames g.used c.tables.functions
  let names := (functions.map fun (name, f) => (f.id, name)).reverse
  let (functions, extensions) ← writeFunctions c g used names functions
  return ⟨c.target, c.stage, sorted extensions, c.tables.samplers, c.tables.localSize, g.lines,
    functions⟩

/-- What the text of a module says. -/
def document [Beyond] (m : Module) (target : Target) : Except Fault Document := do
  let h ← (m.header).mapError .undecodable
  let code ← (m.instructions).mapError .undecodable
  ofTarget (target.checkStage h.stage)
  let (tables, entry) ← Tables.ofCode target code
  Context.document ⟨target, h.stage, tables, entry⟩

def emit [Beyond] (m : Module) (version : Nat) (es : Bool) : Reporting Fault String := do
  let target ← ofTarget (Target.select version es)
  let text := (← document m target).text
  Reporting.note .debug ("emitted " ++ toString text.utf8ByteSize ++ " bytes of GLSL " ++
    target.text)
  return text

end Shading.Emission
