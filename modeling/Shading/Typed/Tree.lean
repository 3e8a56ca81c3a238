import Shading.Builtin.Func
import Shading.Builtin.Var
import Shading.Const
import Shading.Interface

/-! Checked programs: every expression knows its type, conversions are written out as constructors,
and a call names one overload. Globals are known by name, locals and parameters by position. -/
namespace Shading.Typed

inductive VarRef where
  | global (name : String)
  | local_ (index : Nat)
  | param (index : Nat)
  deriving DecidableEq, Repr

inductive Expr where
  | const (c : Const)
  | var (v : VarRef) (ty : Ty)
  | binary (op : BinaryOp) (lhs rhs : Expr) (ty : Ty)
  | unary (op : UnaryOp) (operand : Expr)
  /-- An assignment, with an operator if it also computes. -/
  | assign (op : Option BinaryOp) (target value : Expr)
  /-- An increment or a decrement that gives the new value (`before`) or the old one. -/
  | step (up before : Bool) (target : Expr)
  | select (cond yes no : Expr)
  | construct (args : List Expr) (ty : Ty)
  /-- A call of an overload by its signature. -/
  | call (function : String) (args : List Expr) (ty : Ty)
  | builtin (function : Builtin.Func) (args : List Expr) (ty : Ty)
  | swizzle (base : Expr) (components : List Nat) (ty : Ty)
  | index (base position : Expr) (ty : Ty)
  deriving Repr

namespace Expr

def ty : Expr → Ty
  | .const c => c.ty
  | .var _ t | .binary _ _ _ t | .construct _ t | .call _ _ t | .builtin _ _ t | .swizzle _ _ t
  | .index _ _ t => t
  | .unary _ e | .assign _ e _ | .step _ _ e | .select _ e _ => e.ty

def const? : Expr → Option Const
  | .const c => some c
  | _ => none

def root? : Expr → Option VarRef
  | .var v _ => some v
  | .swizzle e _ _ | .index e _ _ => e.root?
  | _ => none

def isAccess (e : Expr) : Bool := e.root?.isSome

mutual

/-- Whether evaluation may write to memory. -/
def hasEffect : Expr → Bool
  | .const _ | .var _ _ => false
  | .assign .. | .step .. | .call .. => true
  | .binary _ l r _ => l.hasEffect || r.hasEffect
  | .unary _ e | .swizzle e _ _ => e.hasEffect
  | .select c a b => c.hasEffect || a.hasEffect || b.hasEffect
  | .construct args _ | .builtin _ args _ => anyEffect args
  | .index e i _ => e.hasEffect || i.hasEffect

def anyEffect : List Expr → Bool
  | [] => false
  | e :: es => e.hasEffect || anyEffect es

end

mutual

/-- The overloads that are called, each call before those of its arguments. -/
def calls : Expr → List String
  | .const _ | .var _ _ => []
  | .binary _ l r _ => l.calls ++ r.calls
  | .unary _ e | .step _ _ e | .swizzle e _ _ => e.calls
  | .assign _ t v => t.calls ++ v.calls
  | .select c a b => c.calls ++ a.calls ++ b.calls
  | .construct args _ | .builtin _ args _ => callsIn args
  | .call f args _ => f :: callsIn args
  | .index e i _ => e.calls ++ i.calls

def callsIn : List Expr → List String
  | [] => []
  | e :: es => e.calls ++ callsIn es

end

end Expr

inductive Stmt where
  | expr (e : Expr)
  | declare (index : Nat) (init : Option Expr)
  | if_ (cond : Expr) (yes no : List Stmt)
  /-- A loop that is tested before its body (`head`) or after it. -/
  | loop (head : Bool) (cond step : Option Expr) (body : List Stmt)
  | break_
  | continue_
  | return_ (value : Option Expr)
  | discard
  | block (body : List Stmt)
  deriving Repr

namespace Stmt

def optionCalls (e : Option Expr) : List String := (e.map Expr.calls).getD []

mutual

def calls : Stmt → List String
  | .expr e => e.calls
  | .declare _ init => optionCalls init
  | .if_ c yes no => c.calls ++ callsIn yes ++ callsIn no
  | .loop _ cond step body => optionCalls cond ++ optionCalls step ++ callsIn body
  | .return_ v => optionCalls v
  | .block body => callsIn body
  | .break_ | .continue_ | .discard => []

def callsIn : List Stmt → List String
  | [] => []
  | s :: ss => s.calls ++ callsIn ss

end

end Stmt

/-- Where a global lives. -/
inductive Storage where
  | uniform
  | input
  | output
  | priv
  deriving DecidableEq, Repr

namespace Storage

def isInterface : Storage → Bool
  | .input | .output => true
  | .uniform | .priv => false

def text : Storage → String
  | .uniform => "uniform"
  | .input => "input"
  | .output => "output"
  | .priv => "private"

end Storage

structure Global where
  name : String
  ty : Ty
  storage : Storage
  location : Option Nat := none
  binding : Option Nat := none
  interpolation : Option Interpolation := none
  invariant : Bool := false
  builtin : Option Builtin.Var := none
  /-- Stored at the start of the entry point. -/
  init : Option Expr := none
  readOnly : Bool := storage == .uniform || storage == .input
  line : Nat := 0
  deriving Repr

def Global.ofBuiltin (v : Builtin.Var) (line : Nat) : Global :=
  { name := v.name, ty := v.ty, storage := if v.isOutput then .output else .input,
    builtin := some v, line }

structure Param where
  /-- Empty if the parameter has no name. -/
  name : String
  ty : Ty
  passing : Passing
  readOnly : Bool
  deriving DecidableEq, Repr

structure Local where
  name : String
  ty : Ty
  readOnly : Bool
  deriving DecidableEq, Repr

def signature (name : String) (params : List Ty) : String :=
  name ++ "(" ++ ",".intercalate (params.map Ty.text) ++ ")"

def entryName : String := "main"

structure Function where
  name : String
  signature : String
  returnTy : Ty
  params : List Param
  locals : List Local
  /-- A prototype has none. -/
  body : Option (List Stmt)
  line : Nat
  deriving Repr

namespace Function

def isEntry (f : Function) : Bool := f.name == entryName

def callees (f : Function) : List String := (Stmt.callsIn (f.body.getD [])).eraseDups

end Function

/-- The size of a work group along its three axes. -/
structure WorkGroup where
  x : Nat := 1
  y : Nat := 1
  z : Nat := 1
  deriving DecidableEq, Repr

def WorkGroup.text (g : WorkGroup) : String :=
  toString g.x ++ "x" ++ toString g.y ++ "x" ++ toString g.z

/-- A checked program of one stage. -/
structure Program where
  stage : Stage
  file : String
  version : Nat := 100
  es : Bool := true
  globals : List Global := []
  functions : List Function := []
  localSize : Option WorkGroup := none
  deriving Repr, Inhabited

namespace Program

def global? (p : Program) (name : String) : Option Global := p.globals.find? fun g => g.name == name

def uniforms (p : Program) : List Global := p.globals.filter fun g => g.storage == .uniform

def function? (p : Program) (signature : String) : Option Function :=
  p.functions.find? fun f => f.signature == signature

def entry? (p : Program) : Option Function :=
  p.functions.find? fun f => f.isEntry && f.body.isSome

end Program

end Shading.Typed
