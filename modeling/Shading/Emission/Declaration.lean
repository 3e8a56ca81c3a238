import Shading.Emission.Statement
import Shading.Emission.Tables
import Shading.Interface

/-! The declarations of global variables, and the names of functions. -/
namespace Shading.Emission
open Bytecode

/-- How a global takes part in the interface of a stage. -/
inductive Role where
  | uniform
  | attribute
  | varying
  | in_
  | out
  deriving DecidableEq, Repr

def Role.text : Role → String
  | .uniform => "uniform"
  | .attribute => "attribute"
  | .varying => "varying"
  | .in_ => "in"
  | .out => "out"

/-- A global variable as it is declared. -/
structure GlobalLine where
  location : Option Nat := none
  binding : Option Nat := none
  invariant : Bool := false
  interpolation : Option Interpolation := none
  role : Option Role := none
  ty : Ty
  name : String
  deriving DecidableEq, Repr

def layoutText (entries : List String) : String :=
  if entries.isEmpty then "" else "layout(" ++ ", ".intercalate entries ++ ") "

def GlobalLine.text (g : GlobalLine) : String :=
  layoutText ((g.location.map fun n => "location = " ++ toString n).toList ++
      (g.binding.map fun n => "binding = " ++ toString n).toList) ++
    (if g.invariant then "invariant " else "") ++
    ((g.interpolation.map fun i => i.text ++ " ").getD "") ++
    ((g.role.map fun r => r.text ++ " ").getD "") ++ declaration g.ty g.name ++ ";"

/-- What stands before the functions. -/
inductive Outer where
  | global (g : GlobalLine)
  /-- A variable of the language that must not vary between programs. -/
  | invariant (name : String)
  deriving DecidableEq, Repr

def Outer.text : Outer → String
  | .global g => g.text
  | .invariant name => "invariant " ++ name ++ ";"

/-- The names that are taken, and how globals are written. -/
structure Globals where
  used : List String := []
  terms : Table Term := []
  lines : List Outer := []

namespace Globals

def add (g : Globals) (id : Id) (term : Term) (lines : List Outer) : Globals :=
  { g with terms := (id, term) :: g.terms, lines := g.lines ++ lines }

def use (g : Globals) (name : String) : Globals := { g with used := name :: g.used }

end Globals

structure Context where
  target : Target
  stage : Stage
  tables : Tables
  entry : Id

namespace Context

def decoration? (c : Context) (id : Id) (d : Decoration) : Option UInt32 := c.tables.decoration? id d

/-- The one colour of a fragment needs a declaration where the language has none of its own. -/
def addBuiltin (c : Context) (g : Globals) (id : Id) (code : UInt32) : Except Fault Globals := do
  let v ← require (.unknownVar code) (Builtin.Var.ofCode? code.toNat)
  ofTarget (c.target.checkVar v)
  let (g, name, line) :=
    if v = .fragColor ∧ !c.target.isLegacy then
      let name := freshName g.used id (some "fragColor")
      let location := if c.target.hasAttributeLocations then some 0 else none
      (g.use name, name, [Outer.global { location, role := some .out, ty := .vec 4, name }])
    else (g, v.name, [])
  let invariant := if (c.decoration? id .invariant).isSome then [Outer.invariant name] else []
  return g.add id (.name name) (line ++ invariant)

/-- Legacy fragments write to variables of the language. -/
def legacyOutput (c : Context) (id : Id) (ty : Ty) : Except Fault Term :=
  let location := ((c.decoration? id .location).getD 0).toNat
  let isOwn := fun (p : Id × StorageClass) =>
    p.2 == .output && (c.decoration? p.1 .builtin).isNone
  let usesColor := c.tables.globals.any fun p =>
    c.decoration? p.1 .builtin == some (.ofNat Builtin.Var.fragColor.code)
  if ty ≠ .vec 4 then .error (.fragmentOutput ty c.target)
  else if c.tables.globals.countP isOwn = 1 ∧ !usesColor ∧ location = 0 then
    .ok (.name "gl_FragColor")
  else .ok (.select (.name "gl_FragData") ("[" ++ toString location ++ "]"))

/-- The interpolation that is written; smoothness needs no word where there is none. -/
def interpolation (c : Context) (id : Id) : Except Fault (Option Interpolation) :=
  match c.decoration? id .interpolation with
  | none => .ok none
  | some code => do
    let i ← require (.unknownInterpolation code) (Interpolation.ofCode? code.toNat)
    if c.target.hasInterpolation ∧ ¬(i = .noperspective ∧ c.target.es) then return some i
    else if i = .smooth then return none
    else throw (.noInterpolation i.text c.target)

def interfaceRole (c : Context) (input : Bool) : Role :=
  if c.target.isLegacy then (if c.stage = .vertex ∧ input then .attribute else .varying)
  else if input then .in_ else .out

def layoutEntry (c : Context) (id : Id) (d : Decoration) (available : Bool) : Option Nat :=
  if available then (c.decoration? id d).map UInt32.toNat else none

def interfaceLine (c : Context) (id : Id) (input : Bool) (ty : Ty) (name : String) :
    Except Fault GlobalLine := do
  let outermost := (c.stage = .vertex ∧ input) ∨ (c.stage = .fragment ∧ !input)
  let location := c.layoutEntry id .location
    (if outermost then c.target.hasAttributeLocations else c.target.hasVaryingLocations)
  let invariant := (c.decoration? id .invariant).isSome
  let interpolation ← c.interpolation id
  return { location, invariant, interpolation, role := some (c.interfaceRole input), ty, name }

def globalLine (c : Context) (id : Id) (storage : StorageClass) (ty : Ty) (name : String) :
    Except Fault GlobalLine :=
  match storage with
  | .uniform =>
    let location := c.layoutEntry id .location c.target.hasUniformLocations
    let binding := c.layoutEntry id .binding c.target.hasBinding
    .ok { location, binding, role := some .uniform, ty, name }
  | .input => c.interfaceLine id true ty name
  | .output => c.interfaceLine id false ty name
  | .priv => .ok { ty, name }
  | .function => .error (.functionStorage id)

def addGlobal (c : Context) (g : Globals) (global : Id × StorageClass) : Except Fault Globals := do
  let (id, storage) := global
  let ty ← c.tables.pointee id
  match c.decoration? id .builtin with
  | some code => c.addBuiltin g id code
  | none =>
    if c.target.isLegacy ∧ c.stage = .fragment ∧ storage = .output then
      return g.add id (← c.legacyOutput id ty) []
    else
      let name := freshName g.used id (c.tables.names.lookup id)
      let line ← c.globalLine id storage ty name
      return (g.use name).add id (.name name) [.global line]

def globals (c : Context) : Except Fault Globals := c.tables.globals.foldlM c.addGlobal {}

def assignFunctionNames (c : Context) :
    List String → List Function → List (String × Function) × List String
  | used, [] => ([], used)
  | used, f :: fs =>
    let name := if f.id = c.entry then "main" else freshName used f.id (c.tables.names.lookup f.id)
    let (rest, used) := c.assignFunctionNames (name :: used) fs
    ((name, f) :: rest, used)

end Context

end Shading.Emission
