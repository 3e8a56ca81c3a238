import Shading.Typed.Tree

/-! Constant expressions: the value of a scalar, and the shapes that count as constant. -/
namespace Shading.Typed.Expr

/-- The value of a scalar expression that is built from constants. -/
def eval? : Expr → Option Const
  | .const c => some c
  | .unary op e => if e.ty.isScalar then e.eval?.bind (Const.unary? op) else none
  | .binary op l r t =>
    if t.isScalar then do Const.binary? op (← l.eval?) (← r.eval?) else none
  | .select c a b =>
    if a.ty.isScalar then
      match c.eval? with
      | some (.bool true) => a.eval?
      | some (.bool false) => b.eval?
      | _ => none
    else none
  | .construct [e] (.scalar k) => if e.ty.isScalar then e.eval?.map (Const.cast k) else none
  | _ => none

mutual

/-- Literals under operators, constructors and functions that read no texture. -/
def isConstant : Expr → Bool
  | .const _ => true
  | .unary _ e | .swizzle e _ _ => e.isConstant
  | .binary _ l r _ => l.isConstant && r.isConstant
  | .select c a b => c.isConstant && a.isConstant && b.isConstant
  | .construct args _ => allConstant args
  | .builtin f args _ => !f.isTexture && allConstant args
  | .index e i _ => e.isConstant && i.isConstant
  | .var .. | .assign .. | .step .. | .call .. => false

def allConstant : List Expr → Bool
  | [] => true
  | e :: es => e.isConstant && allConstant es

end

/-- A size: an integer constant above zero. -/
def sizeValue? (e : Expr) : Option Nat :=
  if e.ty = .int ∨ e.ty = .uint then
    match e.eval?.bind Const.integer? with
    | some n => if 0 < n then some n.toNat else none
    | none => none
  else none

end Shading.Typed.Expr
