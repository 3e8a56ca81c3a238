import Shading.Interface
import Shading.Operator
import Shading.Token

/-! Programs as they are written: types are names, array sizes are expressions, and every node knows
the text it was read from. -/
namespace Shading.Surface
open Number

inductive Expr where
  /-- The word of a literal without a sign. -/
  | int (n : UInt32) (span : Span)
  | uint (n : UInt32) (span : Span)
  | float (x : Binary32) (span : Span)
  | bool (b : Bool) (span : Span)
  | ident (name : String) (span : Span)
  | binary (op : BinaryOp) (lhs rhs : Expr) (span : Span)
  | unary (op : UnaryOp) (operand : Expr) (span : Span)
  /-- An assignment, with an operator if it also computes. -/
  | assign (op : Option BinaryOp) (target value : Expr) (span : Span)
  /-- An increment or a decrement, before or after its operand. -/
  | step (up before : Bool) (operand : Expr) (span : Span)
  | ternary (cond yes no : Expr) (span : Span)
  /-- A call, or a constructor if the name is a type. -/
  | call (name : String) (args : List Expr) (span : Span)
  | field (base : Expr) (name : String) (span : Span)
  | index (base position : Expr) (span : Span)

namespace Expr

def span : Expr → Span
  | .int _ s | .uint _ s | .float _ s | .bool _ s | .ident _ s | .binary _ _ _ s | .unary _ _ s
  | .assign _ _ _ s | .step _ _ _ s | .ternary _ _ _ s | .call _ _ s | .field _ _ s
  | .index _ _ s => s

/-- The same node over another range. -/
def withSpan (s : Span) : Expr → Expr
  | .int n _ => .int n s
  | .uint n _ => .uint n s
  | .float x _ => .float x s
  | .bool b _ => .bool b s
  | .ident name _ => .ident name s
  | .binary op l r _ => .binary op l r s
  | .unary op e _ => .unary op e s
  | .assign op t v _ => .assign op t v s
  | .step up before e _ => .step up before e s
  | .ternary c a b _ => .ternary c a b s
  | .call name args _ => .call name args s
  | .field e name _ => .field e name s
  | .index e i _ => .index e i s

end Expr

inductive StorageQualifier where
  | const
  | uniform
  | in_
  | out
  | inout
  | attribute
  | varying
  deriving DecidableEq, Repr

def StorageQualifier.text : StorageQualifier → String
  | .const => "const"
  | .uniform => "uniform"
  | .in_ => "in"
  | .out => "out"
  | .inout => "inout"
  | .attribute => "attribute"
  | .varying => "varying"

/-- One entry of a layout, with or without a value. -/
structure LayoutEntry where
  name : String
  value : Option Expr
  span : Span

structure Qualifiers where
  storage : Option StorageQualifier := none
  layout : List LayoutEntry := []
  interpolation : Option Interpolation := none
  invariant : Bool := false

def Qualifiers.layoutEntry? (q : Qualifiers) (name : String) : Option LayoutEntry :=
  q.layout.reverse.find? fun e => e.name == name

structure TypeName where
  name : String
  span : Span

structure Declarator where
  name : String
  sizes : List Expr
  init : Option Expr
  span : Span

structure Declaration where
  qualifiers : Qualifiers
  type : TypeName
  declarators : List Declarator
  span : Span

structure Param where
  passing : Passing
  isConst : Bool
  type : TypeName
  name : Option String
  sizes : List Expr
  span : Span

structure Prototype where
  returnType : TypeName
  name : String
  params : List Param
  span : Span

inductive Stmt where
  | declare (d : Declaration) (span : Span)
  | expr (e : Expr) (span : Span)
  | block (body : List Stmt) (span : Span)
  | if_ (cond : Expr) (yes : Stmt) (no : Option Stmt) (span : Span)
  | for_ (init : Option Stmt) (cond step : Option Expr) (body : Stmt) (span : Span)
  | while_ (cond : Expr) (body : Stmt) (span : Span)
  | do_ (body : Stmt) (cond : Expr) (span : Span)
  | return_ (value : Option Expr) (span : Span)
  | break_ (span : Span)
  | continue_ (span : Span)
  | discard (span : Span)
  | empty (span : Span)

def Stmt.span : Stmt → Span
  | .declare _ s | .expr _ s | .block _ s | .if_ _ _ _ s | .for_ _ _ _ _ s | .while_ _ _ s
  | .do_ _ _ s | .return_ _ s | .break_ s | .continue_ s | .discard s | .empty s => s

structure FunctionDef where
  proto : Prototype
  body : List Stmt
  span : Span

/-- What stands at the top of a program. -/
inductive Item where
  | variables (d : Declaration)
  | function (f : FunctionDef)
  | prototype (p : Prototype)
  /-- The size of a work group. -/
  | localSize (layout : List LayoutEntry) (span : Span)

end Shading.Surface
