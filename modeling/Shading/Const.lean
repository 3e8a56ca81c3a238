import Shading.Number.Shortest
import Shading.Operator

/-! Scalar constants: their words, their conversions, the operations that are defined on them, and
their text. -/
namespace Shading
open Number

inductive Const where
  | bool (b : Bool)
  | int (n : Int32)
  | uint (n : UInt32)
  | float (x : Binary32)
  deriving DecidableEq, Repr

namespace Const

def kind : Const → Scalar
  | .bool _ => .bool
  | .int _ => .int
  | .uint _ => .uint
  | .float _ => .float

def ty (c : Const) : Ty := .scalar c.kind

def bits : Const → UInt32
  | .bool b => if b then 1 else 0
  | .int n => n.toUInt32
  | .uint n => n
  | .float x => x.bits

def ofBits (k : Scalar) (w : UInt32) : Const :=
  match k with
  | .bool => .bool (w != 0)
  | .int => .int w.toInt32
  | .uint => .uint w
  | .float => .float ⟨w⟩

@[simp] theorem ofBits_bits (c : Const) : ofBits c.kind c.bits = c := by
  cases c with
  | bool b => cases b <;> rfl
  | int n => simp [ofBits,kind,bits]
  | uint n => rfl
  | float x => rfl

def toBool : Const → Bool
  | .bool b => b
  | .int n => n != 0
  | .uint n => n != 0
  | .float x => !x.isZero

def toInt32 : Const → Int32
  | .bool b => if b then 1 else 0
  | .int n => n
  | .uint n => n.toInt32
  | .float x => x.toInt32

def toUInt32 : Const → UInt32
  | .bool b => if b then 1 else 0
  | .int n => n.toUInt32
  | .uint n => n
  | .float x => x.toUInt32

def toFloat : Const → Binary32
  | .bool b => .ofInt (if b then 1 else 0)
  | .int n => .ofInt n.toInt
  | .uint n => .ofInt n.toNat
  | .float x => x

def cast (k : Scalar) (c : Const) : Const :=
  match k with
  | .bool => .bool c.toBool
  | .int => .int c.toInt32
  | .uint => .uint c.toUInt32
  | .float => .float c.toFloat

def integer? : Const → Option Int
  | .int n => some n.toInt
  | .uint n => some n.toNat
  | _ => none

/-- The answer of a comparison; values without an order are only unequal. -/
def comparison (op : BinaryOp) (order : Option Ordering) : Bool :=
  match op with
  | .lt => order == some .lt
  | .le => order == some .lt || order == some .eq
  | .gt => order == some .gt
  | .ge => order == some .gt || order == some .eq
  | .eq => order == some .eq
  | _ => order != some .eq

def boolOp? (op : BinaryOp) (a b : Bool) : Option Bool :=
  match op with
  | .logicalAnd => some (a && b)
  | .logicalOr => some (a || b)
  | .logicalXor | .ne => some (a != b)
  | .eq => some (a == b)
  | _ => none

/-- Shifts by the width or more, and division where the quotient is no word, are undefined. -/
def intOp? (op : BinaryOp) (a b : Int32) : Option Int32 :=
  let divides := b ≠ 0 ∧ ¬(a = Int32.minValue ∧ b = -1)
  let shifts := 0 ≤ b ∧ b < 32
  match op with
  | .add => some (a + b)
  | .sub => some (a - b)
  | .mul => some (a * b)
  | .div => if divides then some (a / b) else none
  | .mod => if divides then some (a % b) else none
  | .bitAnd => some (a &&& b)
  | .bitOr => some (a ||| b)
  | .bitXor => some (a ^^^ b)
  | .shl => if shifts then some (a <<< b) else none
  | .shr => if shifts then some (a >>> b) else none
  | _ => none

def uintOp? (op : BinaryOp) (a b : UInt32) : Option UInt32 :=
  match op with
  | .add => some (a + b)
  | .sub => some (a - b)
  | .mul => some (a * b)
  | .div => if b ≠ 0 then some (a / b) else none
  | .mod => if b ≠ 0 then some (a % b) else none
  | .bitAnd => some (a &&& b)
  | .bitOr => some (a ||| b)
  | .bitXor => some (a ^^^ b)
  | .shl => if b < 32 then some (a <<< b) else none
  | .shr => if b < 32 then some (a >>> b) else none
  | _ => none

/-- Division by zero is left to the target. -/
def floatOp? (op : BinaryOp) (a b : Binary32) : Option Binary32 :=
  match op with
  | .add => some (a.add b)
  | .sub => some (a.sub b)
  | .mul => some (a.mul b)
  | .div => if b.isZero then none else some (a.div b)
  | _ => none

/-- The operation on two constants, if it is defined. Both have one kind, but a shift may count in
the other kind of integer. -/
def binary? (op : BinaryOp) : Const → Const → Option Const
  | .bool a, .bool b => (boolOp? op a b).map .bool
  | .int a, .int b =>
    if op.isComparison then some (.bool (comparison op (some (compare a.toInt b.toInt))))
    else (intOp? op a b).map .int
  | .uint a, .uint b =>
    if op.isComparison then some (.bool (comparison op (some (compare a.toNat b.toNat))))
    else (uintOp? op a b).map .uint
  | .float a, .float b =>
    if op.isComparison then some (.bool (comparison op (a.compare? b)))
    else (floatOp? op a b).map .float
  | .int a, .uint b => if op.isShift ∧ b < 32 then (intOp? op a b.toInt32).map .int else none
  | .uint a, .int b => if op.isShift ∧ 0 ≤ b then (uintOp? op a b.toUInt32).map .uint else none
  | _, _ => none

def unary? : UnaryOp → Const → Option Const
  | .neg, .int n => some (.int (-n))
  | .neg, .uint n => some (.uint (-n))
  | .neg, .float x => some (.float x.neg)
  | .not, .bool b => some (.bool !b)
  | .bitNot, .int n => some (.int (~~~n))
  | .bitNot, .uint n => some (.uint (~~~n))
  | _, _ => none

def floatLayout : Layout := ⟨some (-4, 16), true⟩

/-- The literal that denotes the constant; what has none is written as a quotient. -/
def text : Const → String
  | .bool b => if b then "true" else "false"
  | .int n => toString n.toInt
  | .uint n => toString n.toNat ++ "u"
  | .float x =>
    match x.datum with
    | .nan => "(0.0 / 0.0)"
    | .infinite s => if s then "(-1.0 / 0.0)" else "(1.0 / 0.0)"
    | d => floatLayout.write binary32 d

end Const

end Shading
