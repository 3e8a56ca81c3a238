import Shading.Surface.Cursor
import Shading.Surface.Tree

/-! Reading expressions by operator precedence. -/
namespace Shading.Surface
open Cursor

def binaryOp? : Token → Option BinaryOp
  | .symbol .plus => some .add
  | .symbol .minus => some .sub
  | .symbol .star => some .mul
  | .symbol .slash => some .div
  | .symbol .percent => some .mod
  | .symbol .lt => some .lt
  | .symbol .le => some .le
  | .symbol .gt => some .gt
  | .symbol .ge => some .ge
  | .symbol .eqEq => some .eq
  | .symbol .notEq => some .ne
  | .symbol .andAnd => some .logicalAnd
  | .symbol .orOr => some .logicalOr
  | .symbol .xorXor => some .logicalXor
  | .symbol .amp => some .bitAnd
  | .symbol .pipe => some .bitOr
  | .symbol .caret => some .bitXor
  | .symbol .shl => some .shl
  | .symbol .shr => some .shr
  | _ => none

def binaryOpWithin? (limit : Nat) (t : Token) : Option BinaryOp :=
  (binaryOp? t).filter fun op => op.precedence ≤ limit

def loosest : Nat := 14

/-- An assignment sign and what it computes. -/
def assignOp? : Token → Option (Option BinaryOp)
  | .symbol .assign => some none
  | .symbol .plusAssign => some (some .add)
  | .symbol .minusAssign => some (some .sub)
  | .symbol .starAssign => some (some .mul)
  | .symbol .slashAssign => some (some .div)
  | .symbol .percentAssign => some (some .mod)
  | .symbol .ampAssign => some (some .bitAnd)
  | .symbol .pipeAssign => some (some .bitOr)
  | .symbol .caretAssign => some (some .bitXor)
  | .symbol .shlAssign => some (some .shl)
  | .symbol .shrAssign => some (some .shr)
  | _ => none

/-- A sign before an operand. -/
inductive Leading where
  /-- Has no effect. -/
  | plus
  | op (op : UnaryOp)
  | step (up : Bool)

def leading? : Token → Option Leading
  | .symbol .plus => some .plus
  | .symbol .minus => some (.op .neg)
  | .symbol .bang => some (.op .not)
  | .symbol .tilde => some (.op .bitNot)
  | .symbol .inc => some (.step true)
  | .symbol .dec => some (.step false)
  | _ => none

/-- A sign after an operand. -/
inductive Trailing where
  | index
  | field
  | step (up : Bool)

def trailing? : Token → Option Trailing
  | .symbol .leftBracket => some .index
  | .symbol .dot => some .field
  | .symbol .inc => some (.step true)
  | .symbol .dec => some (.step false)
  | _ => none

def literalWord (n : Nat) (span : Span) : Except Fault UInt32 :=
  if n < UInt32.size then .ok (.ofNat n) else .error ⟨.integerTooBig, span⟩

mutual

/-- Assignments associate to the right. -/
def assignment (s : Cursor) : Except Fault (Expr × After s) := do
  let (target, ⟨s₁, h₁⟩) ← conditional s
  match s₁.accept? assignOp? with
  | none => return (target, ⟨s₁, h₁⟩)
  | some (op, ⟨s₂, h₂⟩) =>
    let (value, ⟨s₃, h₃⟩) ← assignment s₂
    return (.assign op target value (target.span.merge value.span), ⟨s₃, by omega⟩)
termination_by 8 * s.size + 5
decreasing_by all_goals omega

def conditional (s : Cursor) : Except Fault (Expr × After s) := do
  let (cond, ⟨s₁, h₁⟩) ← binary loosest s
  match s₁.eat? (.symbol .question) with
  | none => return (cond, ⟨s₁, h₁⟩)
  | some ⟨s₂, h₂⟩ =>
    let (yes, ⟨s₃, h₃⟩) ← assignment s₂
    let ⟨s₄, h₄⟩ ← s₃.expect (.symbol .colon)
    let (no, ⟨s₅, h₅⟩) ← assignment s₄
    return (.ternary cond yes no (cond.span.merge no.span), ⟨s₅, by omega⟩)
termination_by 8 * s.size + 4
decreasing_by all_goals omega

/-- Operators that bind at least as tightly as `limit`. -/
def binary (limit : Nat) (s : Cursor) : Except Fault (Expr × After s) := do
  let (lhs, ⟨s₁, h₁⟩) ← unary s
  let (e, ⟨s₂, h₂⟩) ← binaryRest limit lhs s₁
  return (e, ⟨s₂, by omega⟩)
termination_by 8 * s.size + 3
decreasing_by all_goals omega

/-- Further operators behind a left operand. -/
def binaryRest (limit : Nat) (lhs : Expr) (s : Cursor) : Except Fault (Expr × Onward s) := do
  match s.accept? (binaryOpWithin? limit) with
  | none => return (lhs, ⟨s, by omega⟩)
  | some (op, ⟨s₁, h₁⟩) =>
    let (rhs, ⟨s₂, h₂⟩) ← binary (op.precedence - 1) s₁
    let (e, ⟨s₃, h₃⟩) ← binaryRest limit (.binary op lhs rhs (lhs.span.merge rhs.span)) s₂
    return (e, ⟨s₃, by omega⟩)
termination_by 8 * s.size + 3
decreasing_by all_goals omega

def unary (s : Cursor) : Except Fault (Expr × After s) := do
  match s.accept? leading? with
  | none => selection s
  | some (sign, ⟨s₁, h₁⟩) =>
    let (e, ⟨s₂, h₂⟩) ← unary s₁
    let span := s.here.merge e.span
    let node : Expr := match sign with
      | .plus => e
      | .op op => .unary op e span
      | .step up => .step up true e span
    return (node, ⟨s₂, by omega⟩)
termination_by 8 * s.size + 2
decreasing_by all_goals omega

/-- An operand with what is selected from it. -/
def selection (s : Cursor) : Except Fault (Expr × After s) := do
  let (e, ⟨s₁, h₁⟩) ← primary s
  let (e', ⟨s₂, h₂⟩) ← selectionRest e s₁
  return (e', ⟨s₂, by omega⟩)
termination_by 8 * s.size + 1
decreasing_by all_goals omega

def selectionRest (e : Expr) (s : Cursor) : Except Fault (Expr × Onward s) := do
  match s.accept? trailing? with
  | none => return (e, ⟨s, by omega⟩)
  | some (.index, ⟨s₁, h₁⟩) =>
    let (i, ⟨s₂, h₂⟩) ← assignment s₁
    let ⟨s₃, h₃⟩ ← s₂.expect (.symbol .rightBracket)
    let (e', ⟨s₄, h₄⟩) ← selectionRest (.index e i (e.span.merge s₃.previous)) s₃
    return (e', ⟨s₄, by omega⟩)
  | some (.field, ⟨s₁, h₁⟩) =>
    let (name, ⟨s₂, h₂⟩) ← s₁.identifier .fieldSelection
    let (e', ⟨s₃, h₃⟩) ← selectionRest (.field e name (e.span.merge s₂.previous)) s₂
    return (e', ⟨s₃, by omega⟩)
  | some (.step up, ⟨s₁, h₁⟩) =>
    let (e', ⟨s₂, h₂⟩) ← selectionRest (.step up false e (e.span.merge s₁.previous)) s₁
    return (e', ⟨s₂, by omega⟩)
termination_by 8 * s.size
decreasing_by all_goals omega

def primary (s : Cursor) : Except Fault (Expr × After s) := do
  match s.next? with
  | none => throw (s.fault .expression)
  | some (l, ⟨s₁, h₁⟩) =>
    match l.token with
    | .int n => return (.int (← literalWord n l.span) l.span, ⟨s₁, h₁⟩)
    | .uint n => return (.uint (← literalWord n l.span) l.span, ⟨s₁, h₁⟩)
    | .float x => return (.float (.ofBinary64 x) l.span, ⟨s₁, h₁⟩)
    | .bool b => return (.bool b l.span, ⟨s₁, h₁⟩)
    | .ident name =>
      match s₁.eat? (.symbol .leftParen) with
      | none => return (.ident name l.span, ⟨s₁, h₁⟩)
      | some ⟨s₂, h₂⟩ =>
        let (args, ⟨s₃, h₃⟩) ← callArguments s₂
        return (.call name args (l.span.merge s₃.previous), ⟨s₃, by omega⟩)
    | .symbol .leftParen =>
      let (e, ⟨s₂, h₂⟩) ← assignment s₁
      let ⟨s₃, h₃⟩ ← s₂.expect (.symbol .rightParen)
      return (e.withSpan (l.span.merge s₃.previous), ⟨s₃, by omega⟩)
    | _ => throw (s.fault .expression)
termination_by 8 * s.size
decreasing_by all_goals omega

/-- The arguments behind an opening bracket, up to the closing one. -/
def callArguments (s : Cursor) : Except Fault (List Expr × After s) := do
  match s.eat? (.symbol .rightParen) with
  | some s₁ => return ([], s₁)
  | none => argumentList s
termination_by 8 * s.size + 7
decreasing_by all_goals omega

def argumentList (s : Cursor) : Except Fault (List Expr × After s) := do
  let (e, ⟨s₁, h₁⟩) ← assignment s
  match s₁.eat? (.symbol .comma) with
  | some ⟨s₂, h₂⟩ =>
    let (es, ⟨s₃, h₃⟩) ← argumentList s₂
    return (e :: es, ⟨s₃, by omega⟩)
  | none =>
    let ⟨s₂, h₂⟩ ← s₁.expect (.symbol .rightParen)
    return ([e], ⟨s₂, by omega⟩)
termination_by 8 * s.size + 6
decreasing_by all_goals omega

end

def expression (s : Cursor) : Except Fault (Expr × After s) := assignment s

end Shading.Surface
