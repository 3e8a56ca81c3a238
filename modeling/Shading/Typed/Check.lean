import Shading.Typed.CheckStmt
import Shading.Typed.Usage

/-! Checking of whole programs: globals, functions, and the resources they use. -/
namespace Shading.Typed

/-- An integer constant that fits a word. -/
def checkLayoutInteger (u : WrittenUnit) (e : Surface.LayoutEntry) : Checking Nat := do
  match e.value with
  | none => fail e.span (.noLayoutInteger e.name)
  | some value =>
    match (← checkExpr u value).eval?.bind Const.integer? with
    | some n => if 0 ≤ n then return n.toNat else fail e.span (.noLayoutInteger e.name)
    | none => fail e.span (.noLayoutInteger e.name)

def isModern (u : WrittenUnit) : Bool := if u.es then 300 ≤ u.version else 130 ≤ u.version

/-- Where a global lives that is no constant. -/
def checkStorage (u : WrittenUnit) (d : Surface.Declarator) :
    Option Surface.StorageQualifier → Checking Storage
  | none | some .const => return .priv
  | some .uniform => return .uniform
  | some .in_ =>
    if u.stage == .compute then fail d.span (.computeInterface d.name) else return .input
  | some .out =>
    if u.stage == .compute then fail d.span (.computeInterface d.name) else return .output
  | some .attribute => do
    if u.stage != .vertex then fail d.span .attributeStage
    if isModern u then warn u d.span .attribute
    return .input
  | some .varying => do
    if isModern u then warn u d.span .varying
    match u.stage with
    | .vertex => return .output
    | .fragment => return .input
    | .compute => fail d.span .varyingStage
  | some .inout => fail d.span .globalInout

def admits (stage : Stage) (storage : Storage) (name : String) (ty : Ty)
    (q : Surface.Qualifiers) : Except Cause Unit := do
  if ty.base.isSampler && storage != .uniform then throw (.samplerNotUniform ty.base.text)
  if storage.isInterface then
    if ty.base.isOf .bool then throw (.boolInterface name)
    if stage == .fragment && storage == .input && ty.base.isInteger &&
        q.interpolation != some .flat then
      throw (.integerNotFlat name)
    if stage == .vertex && storage == .input && ty.isArray then throw (.arrayInput name)
  else if q.interpolation.isSome then throw .misplacedInterpolation
  if q.invariant && storage != .output then throw .misplacedInvariant

/-- The locations and bindings that a layout gives; later entries replace earlier ones. -/
def checkLayout (u : WrittenUnit) : List Surface.LayoutEntry → Global → Checking Global
  | [], g => return g
  | e :: es, g =>
    if e.name == "location" then do
      if g.storage == .priv then fail e.span .misplacedLocation
      checkLayout u es { g with location := some (← checkLayoutInteger u e) }
    else if e.name == "binding" then do
      if g.storage != .uniform then fail e.span .misplacedBinding
      checkLayout u es { g with binding := some (← checkLayoutInteger u e) }
    else if e.name ∈ ["local_size_x", "local_size_y", "local_size_z"] then
      fail e.span (.misplacedLocalSize e.name)
    else fail e.span (.unknownLayout e.name)

def declareGlobal (g : Global) : Checks Unit := do
  let _ ← declare g.name (.variable (.global g.name) g.ty)
  addGlobal g

def checkGlobalConst (u : WrittenUnit) (ty : Ty) (d : Surface.Declarator) : Checking Unit := do
  let value ← checkConstInit u ty d
  match value.eval? with
  | some c =>
    let _ ← declare d.name (.constant c)
  | none =>
    declareGlobal { name := d.name, ty, storage := .priv, readOnly := true, init := some value,
                    line := (u.locate d.span).2 }

def checkGlobal (u : WrittenUnit) (decl : Surface.Declaration) (d : Surface.Declarator) :
    Checking Unit := do
  let ty ← checkTy u decl.type d.sizes
  if ty.isVoid then fail d.span (.illegalVoid d.name)
  requireFreshName d.name d.span
  let q := decl.qualifiers
  if q.storage = some .const then checkGlobalConst u ty d
  else
    let storage ← checkStorage u d q.storage
    placed d.span (admits u.stage storage d.name ty q)
    let g ← checkLayout u q.layout
      { name := d.name, ty, storage, interpolation := q.interpolation, invariant := q.invariant,
        line := (u.locate d.span).2 }
    if let some init := d.init then
      if storage != .priv then fail init.span (.cannotInitialize d.name)
    let init ← checkInit u ty d.init
    declareGlobal { g with init }

def checkAxes (u : WrittenUnit) : List Surface.LayoutEntry → WorkGroup → Checking WorkGroup
  | [], size => return size
  | e :: es, size => do
    let axis : Option (Nat → WorkGroup) :=
      [("local_size_x", fun n => { size with x := n }), ("local_size_y", fun n => { size with y := n }),
        ("local_size_z", fun n => { size with z := n })].lookup e.name
    match axis with
    | none => fail e.span (.unknownLayout e.name)
    | some set =>
      let n ← checkLayoutInteger u e
      if n = 0 then fail e.span (.localSizeZero e.name)
      checkAxes u es (set n)

def checkLocalSize (u : WrittenUnit) (entries : List Surface.LayoutEntry) (span : Span) :
    Checking Unit := do
  if u.stage != .compute then fail span .localSizeStage
  let earlier := (← get).program.localSize
  let size ← checkAxes u entries (earlier.getD {})
  if earlier.isSome && earlier != some size then fail span .localSizeChanged
  if let some (x, y, z) := u.stage.limits.workGroup then
    if x < size.x ∨ y < size.y ∨ z < size.z then
      fail span (.localSizeTooLarge size ⟨x, y, z⟩)
  modify fun s => { s with program := { s.program with localSize := some size } }

def checkParams (u : WrittenUnit) : List Surface.Param → Checking (List (Ty × Passing))
  | [] => return []
  | p :: ps => do
    let ty ← checkTy u p.type p.sizes
    if ty.isVoid then fail p.span (.illegalVoid "void")
    if ty.isSampler && p.passing != .in_ then fail p.span .samplerOutput
    return (ty, p.passing) :: (← checkParams u ps)

def admitsFunction (name : String) (params : List (Ty × Passing)) (returnTy : Ty) :
    Except Cause Unit := do
  if (Builtin.Func.lookup? name).isSome then throw (.redefinesBuiltin name)
  if (Ty.ofName? name).isSome || name.startsWith "gl_" then throw (.illegalFunctionName name)
  if name == entryName then
    if !params.isEmpty then throw .entryParams
    if !returnTy.isVoid then throw .entryReturns

/-- The overload that a prototype declares: a new one, or one that was declared in the same way. -/
def checkPrototype (u : WrittenUnit) (p : Surface.Prototype) : Checking Overload := do
  let returnTy ← checkTy u p.returnType []
  if returnTy.isSampler then fail p.span (.returnsSampler p.name)
  let params ← checkParams u p.params
  placed p.span (admitsFunction p.name params returnTy)
  let new : Overload := { name := p.name, params, returnTy }
  match (← get).overloads.find? fun o => o.signature == new.signature with
  | some old =>
    if old.returnTy != returnTy then fail p.span (.overloadReturn p.name)
    if old.params.map Prod.snd != params.map Prod.snd then fail p.span (.overloadPassing p.name)
    return old
  | none =>
    if ((← get).scopes.lookup? p.name).isSome then fail p.span (.redefinition p.name)
    modify fun s => { s with overloads := s.overloads ++ [new] }
    return new

def namedParams (p : Surface.Prototype) (o : Overload) : List Param :=
  p.params.zipWith (fun q (ty, passing) => ⟨q.name.getD "", ty, passing, q.isConst⟩) o.params

def putFunction (f : Function) : List Function → List Function
  | [] => [f]
  | g :: gs => if g.signature = f.signature then f :: gs else g :: putFunction f gs

def addPrototype (u : WrittenUnit) (p : Surface.Prototype) : Checking Unit := do
  let o ← checkPrototype u p
  if ((← get).program.function? o.signature).isNone then
    let f : Function :=
      { name := o.name, signature := o.signature, returnTy := o.returnTy, params := namedParams p o,
        locals := [], body := none, line := (u.locate p.span).2 }
    modify fun s => { s with program := { s.program with functions := s.program.functions ++ [f] } }

/-- Parameters that have names, from the given position on. -/
def declareParams (u : WrittenUnit) : Nat → List Surface.Param → List Param → Checks Unit
  | i, q :: qs, p :: ps => do
    if p.name != "" then
      if !(← declare p.name (.variable (.param i) p.ty)) then
        report u ⟨q.span, .redefinition p.name⟩
    declareParams u (i + 1) qs ps
  | _, _, _ => return

/-- The body shares one scope with the parameters. -/
def checkBody (u : WrittenUnit) (d : Surface.FunctionDef) (o : Overload) (params : List Param) :
    Checks (List Local × List Stmt) := inScope do
  declareParams u 0 d.proto.params params
  modify fun s => { s with frame := some { returnTy := o.returnTy, params } }
  let body ← checkStmts u d.body
  let locals := ((← get).frame.map Frame.locals).getD []
  modify fun s => { s with frame := none }
  return (locals, body)

def checkFunction (u : WrittenUnit) (d : Surface.FunctionDef) : Checking Unit := do
  let o ← checkPrototype u d.proto
  if o.defined then fail d.proto.span (.secondBody d.proto.name)
  modify fun s => { s with overloads := s.overloads.map fun p =>
    if p.signature = o.signature then { p with defined := true } else p }
  let params := namedParams d.proto o
  let (locals, body) ← checkBody u d o params
  let f : Function :=
    { name := o.name, signature := o.signature, returnTy := o.returnTy, params, locals,
      body := some body, line := (u.locate d.span).2 }
  modify fun s => { s with program := { s.program with
    functions := putFunction f s.program.functions } }

def checkItem (u : WrittenUnit) : Surface.Item → Checks Unit
  | .variables d => d.declarators.forM fun e => recover u () (checkGlobal u d e)
  | .prototype p => recover u () (addPrototype u p)
  | .function d => recover u () (checkFunction u d)
  | .localSize entries span => recover u () (checkLocalSize u entries span)

/-- A program with all that was said of it. A compute stage has a work group of one, unless it says
otherwise. -/
structure Checked where
  program : Program
  log : Log
  deriving Repr

def checkUnit (u : WrittenUnit) : Checked :=
  let start : State :=
    { program := { stage := u.stage, file := u.file, version := u.version, es := u.es } }
  let s := ((u.items.forM (checkItem u)).run start).2
  let complaints := s.program.overuse.map fun (line, text) => Diagnostic.error u.file line text
  let localSize :=
    if u.stage == .compute && s.program.localSize.isNone then some {} else s.program.localSize
  ⟨{ s.program with localSize }, s.log ++ complaints⟩

end Typed

open Reporting Typed

/-- Checks a unit; the first error is the one that is given back. -/
def WrittenUnit.check (u : WrittenUnit) : Reporting FrontError Checked := do
  let c := checkUnit u
  reportAll c.log
  match c.log.firstError? with
  | some d =>
    note .debug ("validation of " ++ u.file ++ " failed with " ++ toString c.log.length ++
      " diagnostics")
    throw (.located ⟨d.source, d.line, d.message⟩)
  | none =>
    note .debug ("validated " ++ u.file ++ ": " ++ toString c.program.globals.length ++
      " globals, " ++ toString c.program.functions.length ++ " functions")
    return c

def StageSource.check (u : StageSource) (lib : Source.Library) : Reporting FrontError Checked := do
  (← u.read lib).check

end Shading
