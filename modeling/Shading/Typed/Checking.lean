import Shading.Surface.Unit
import Shading.Typed.Conversion

/-! The state of a check. A fault ends the statement or declaration that shows it and is reported; the
check goes on after it, with all that was declared before. -/
namespace Shading.Typed

/-- A function that may be called. -/
structure Overload where
  name : String
  params : List (Ty × Passing)
  returnTy : Ty
  defined : Bool := false
  deriving Repr

def Overload.signature (o : Overload) : String := Typed.signature o.name (o.params.map Prod.fst)

/-- The function whose body is being checked. -/
structure Frame where
  returnTy : Ty
  params : List Param
  locals : List Local := []
  loops : Nat := 0
  deriving Repr

structure State where
  program : Program
  scopes : Scopes := {}
  overloads : List Overload := []
  frame : Option Frame := none
  log : Log := []
  deriving Repr

abbrev Checks := StateM State

abbrev Checking := ExceptT Fault Checks

def fail {α : Type} (span : Span) (cause : Cause) : Checking α := throw ⟨span, cause⟩

def placed {α : Type} (span : Span) : Except Cause α → Checking α
  | .ok a => pure a
  | .error cause => fail span cause

def say (u : WrittenUnit) (severity : Severity) (span : Span) (message : String) : Checks Unit :=
  let (file, line) := u.locate span
  modify fun s => { s with log := s.log ++ [⟨severity, file, line, message⟩] }

def report (u : WrittenUnit) (f : Fault) : Checks Unit := say u .error f.span f.cause.message

def warn (u : WrittenUnit) (span : Span) (d : Deprecation) : Checking Unit :=
  ExceptT.lift (say u .warning span d.message)

def recover {α : Type} (u : WrittenUnit) (default : α) (work : Checking α) : Checks α := do
  match ← work.run with
  | .ok a => return a
  | .error f =>
    report u f
    return default

def inScope {α : Type} (work : Checks α) : Checks α := do
  modify fun s => { s with scopes := s.scopes.push }
  let a ← work
  modify fun s => { s with scopes := s.scopes.pop }
  return a

def modifyFrame (f : Frame → Frame) : Checks Unit :=
  modify fun s => { s with frame := s.frame.map f }

def inLoop {α : Type} (work : Checks α) : Checks α := do
  modifyFrame fun f => { f with loops := f.loops + 1 }
  let a ← work
  modifyFrame fun f => { f with loops := f.loops - 1 }
  return a

def insideLoop : Checking Bool := return (← get).frame.any fun f => 0 < f.loops

/-- A meaning for a name that the newest scope does not have yet; an older one stays. -/
def declare (name : String) (m : Meaning) : Checks Bool := do
  match (← get).scopes.declare? name m with
  | some scopes =>
    modify fun s => { s with scopes }
    return true
  | none => return false

def addGlobal (g : Global) : Checks Unit :=
  modify fun s => { s with program := { s.program with globals := s.program.globals ++ [g] } }

/-- The name of a variable, and whether it may be written. -/
def State.access (s : State) : VarRef → String × Access
  | .global name =>
    (name, match s.program.global? name with
      | some g =>
        match g.storage with
        | .uniform => .uniform
        | .input => .input
        | _ => if g.readOnly then .const else .plain
      | none => .plain)
  | .local_ i =>
    match s.frame.bind fun f => f.locals[i]? with
    | some l => (l.name, if l.readOnly then .const else .plain)
    | none => ("", .plain)
  | .param i =>
    match s.frame.bind fun f => f.params[i]? with
    | some p => (p.name, if p.readOnly then .const else .plain)
    | none => ("", .plain)

/-- Whether an expression may be written: a variable that is not read-only, or a part of one that
names no component twice. -/
def State.writable (s : State) (operation : String) : Expr → Except Cause Unit
  | .var v _ =>
    let (name, access) := s.access v
    if access.isReadOnly then .error (.notWritable operation name access) else .ok ()
  | .swizzle base components _ =>
    if components.Nodup then s.writable operation base
    else .error (.repeatedComponent operation)
  | .index base _ _ => s.writable operation base
  | _ => .error (.notWritableValue operation)

def checkWritable (span : Span) (operation : String) (e : Expr) : Checking Unit := do
  placed span ((← get).writable operation e)

/-- The value as one of the wanted type. -/
def coerce (span : Span) (operation : String) (wanted : Ty) (e : Expr) : Checking Expr :=
  match e.coerce? wanted with
  | some e => pure e
  | none => fail span (.cannotConvert operation e.ty wanted)

end Shading.Typed
