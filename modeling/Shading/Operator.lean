import Shading.Ty

/-! The operators of expressions: their spelling, how tightly they bind, and the type they give. -/
namespace Shading

inductive BinaryOp where
  | add
  | sub
  | mul
  | div
  | mod
  | lt
  | le
  | gt
  | ge
  | eq
  | ne
  | logicalAnd
  | logicalOr
  | logicalXor
  | bitAnd
  | bitOr
  | bitXor
  | shl
  | shr
  deriving DecidableEq, Repr

namespace BinaryOp

def all : List BinaryOp :=
  [.add, .sub, .mul, .div, .mod, .lt, .le, .gt, .ge, .eq, .ne, .logicalAnd, .logicalOr, .logicalXor,
    .bitAnd, .bitOr, .bitXor, .shl, .shr]

def symbol : BinaryOp → String
  | .add => "+"
  | .sub => "-"
  | .mul => "*"
  | .div => "/"
  | .mod => "%"
  | .lt => "<"
  | .le => "<="
  | .gt => ">"
  | .ge => ">="
  | .eq => "=="
  | .ne => "!="
  | .logicalAnd => "&&"
  | .logicalOr => "||"
  | .logicalXor => "^^"
  | .bitAnd => "&"
  | .bitOr => "|"
  | .bitXor => "^"
  | .shl => "<<"
  | .shr => ">>"

/-- A smaller number binds more tightly. -/
def precedence : BinaryOp → Nat
  | .mul | .div | .mod => 4
  | .add | .sub => 5
  | .shl | .shr => 6
  | .lt | .le | .gt | .ge => 7
  | .eq | .ne => 8
  | .bitAnd => 9
  | .bitXor => 10
  | .bitOr => 11
  | .logicalAnd => 12
  | .logicalXor => 13
  | .logicalOr => 14

def isComparison : BinaryOp → Bool
  | .lt | .le | .gt | .ge | .eq | .ne => true
  | _ => false

def isLogical : BinaryOp → Bool
  | .logicalAnd | .logicalOr | .logicalXor => true
  | _ => false

def isShift : BinaryOp → Bool
  | .shl | .shr => true
  | _ => false

def isIntegerOnly : BinaryOp → Bool
  | .mod | .bitAnd | .bitOr | .bitXor | .shl | .shr => true
  | _ => false

def code (op : BinaryOp) : Nat := all.idxOf op

def ofCode? (n : Nat) : Option BinaryOp := all[n]?

def ofSymbol? (s : String) : Option BinaryOp := all.find? fun op => op.symbol == s

@[simp] theorem ofCode?_code (op : BinaryOp) : ofCode? op.code = some op := by cases op <;> rfl

def meet? (l r : Ty) : Option Ty :=
  if l = r ∨ r.isScalar then some l else if l.isScalar then some r else none

/-- The type of a product; matrices and vectors multiply as in linear algebra. -/
def product? : Ty → Ty → Option Ty
  | .matrix c₁ r₁, .matrix c₂ r₂ => if c₁ = r₂ then some (.matrix c₂ r₁) else none
  | .matrix c r, .vector _ n => if n = c then some (.vec r) else none
  | .vector _ n, .matrix c r => if n = r then some (.vec c) else none
  | l, r => meet? l r

/-- The type of an operation on two types that need no conversion any more. -/
def resultTy? (op : BinaryOp) (l r : Ty) : Option Ty :=
  match op with
  | .logicalAnd | .logicalOr | .logicalXor => if l = .bool ∧ r = .bool then some .bool else none
  | .eq | .ne => if l = r ∧ !l.base.isSampler ∧ !l.isVoid then some .bool else none
  | .lt | .le | .gt | .ge => if l = r ∧ l.isScalar ∧ l.isNumeric then some .bool else none
  | .shl | .shr =>
    if l.isInteger ∧ r.isInteger ∧ (r.isScalar ∨ r.vectorSize? = l.vectorSize?) then some l else none
  | .mod | .bitAnd | .bitOr | .bitXor =>
    if l.isInteger ∧ r.isInteger ∧ l.kind? = r.kind? then meet? l r else none
  | .mul => if l.isNumeric ∧ r.isNumeric ∧ l.kind? = r.kind? then product? l r else none
  | .add | .sub | .div =>
    if l.isNumeric ∧ r.isNumeric ∧ l.kind? = r.kind? then meet? l r else none

end BinaryOp

inductive UnaryOp where
  | neg
  | not
  | bitNot
  deriving DecidableEq, Repr

namespace UnaryOp

def all : List UnaryOp := [.neg, .not, .bitNot]

def symbol : UnaryOp → String
  | .neg => "-"
  | .not => "!"
  | .bitNot => "~"

def code : UnaryOp → Nat
  | .neg => 0
  | .not => 1
  | .bitNot => 2

def ofCode? (n : Nat) : Option UnaryOp := all[n]?

def ofSymbol? (s : String) : Option UnaryOp := all.find? fun op => op.symbol == s

@[simp] theorem ofCode?_code (op : UnaryOp) : ofCode? op.code = some op := by cases op <;> rfl

end UnaryOp

end Shading
