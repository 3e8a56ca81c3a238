import Shading.Source.Macro
import Shading.Surface.Lexer

/-! Conditions of directives: integer expressions in 64-bit arithmetic that wraps. Names that are
left after macro expansion count as zero. -/
namespace Shading.Source
open Text Surface

/-- Why a condition has no value. -/
inductive ConditionFault where
  | lexical (cause : Surface.Cause)
  | definedWithoutName
  | definedUnclosed
  | unexpected (found : Token)
  | unclosed (found : Token)
  | endOfExpression
  | divisionByZero
  deriving DecidableEq, Repr

def ConditionFault.message : ConditionFault → String
  | .lexical cause => "#if : " ++ cause.message
  | .definedWithoutName => "#if : 'defined' expects a macro name"
  | .definedUnclosed => "#if : missing ')' after 'defined'"
  | .unexpected found => "#if : unexpected '" ++ found.text ++ "'"
  | .unclosed found => "#if : expected ')', found '" ++ found.text ++ "'"
  | .endOfExpression => "#if : unexpected end of expression"
  | .divisionByZero => "#if : division by zero"

def wordDefined : List Char := ['d', 'e', 'f', 'i', 'n', 'e', 'd']

section Lengths

variable {c : Char} {cs rest : List Char}

theorem length_lt_cons (shorter : rest.length < cs.length) : rest.length < (c :: cs).length :=
  Nat.lt_succ_of_lt shorter

theorem length_dropWhile_lt (p : Char → Bool) (c : Char) (cs : List Char) :
    (cs.dropWhile p).length < (c :: cs).length :=
  Nat.lt_succ_of_le (List.dropWhile_suffix p).length_le

theorem length_lt_of_dropWhile {p : Char → Bool} (shorter : rest.length < (cs.dropWhile p).length) :
    rest.length < (c :: cs).length :=
  Nat.lt_trans shorter (length_dropWhile_lt p c cs)

theorem length_dropWhile_le {start : List Char} (h : trimStart cs = start) :
    (start.dropWhile isWordChar).length ≤ cs.length := by
  subst h
  exact Nat.le_trans (List.dropWhile_suffix _).length_le (List.dropWhile_suffix _).length_le

theorem length_le_of_brackets {inner : List Char} (opens : trimStart cs = '(' :: inner)
    (closes : trimStart ((trimStart inner).dropWhile isWordChar) = ')' :: rest) :
    rest.length ≤ cs.length := by
  have whole : (trimStart cs).length ≤ cs.length := (List.dropWhile_suffix _).length_le
  have named : ((trimStart inner).dropWhile isWordChar).length ≤ inner.length := length_dropWhile_le rfl
  have closed : (trimStart ((trimStart inner).dropWhile isWordChar)).length ≤
      ((trimStart inner).dropWhile isWordChar).length := (List.dropWhile_suffix _).length_le
  rw [opens,List.length_cons] at whole
  rw [closes,List.length_cons] at closed
  omega

end Lengths

/-- What stands before and after the first word `defined`. -/
def splitDefined? :
    (cs : List Char) → Option (List Char × { rest : List Char // rest.length < cs.length })
  | [] => none
  | c :: cs =>
    if isWordChar c then
      let word := c :: cs.takeWhile isWordChar
      if word = wordDefined then some ([], ⟨cs.dropWhile isWordChar, length_dropWhile_lt isWordChar c cs⟩)
      else (splitDefined? (cs.dropWhile isWordChar)).map fun (before, ⟨rest, h⟩) =>
        (word ++ before, ⟨rest, length_lt_of_dropWhile h⟩)
    else (splitDefined? cs).map fun (before, ⟨rest, h⟩) => (c :: before, ⟨rest, length_lt_cons h⟩)
termination_by cs => cs.length
decreasing_by
  · exact length_dropWhile_lt isWordChar c cs
  · simp

def definedName (cs : List Char) :
    Except ConditionFault (List Char × { rest : List Char // rest.length ≤ cs.length }) :=
  match h : trimStart cs with
  | '(' :: inner =>
    let start := trimStart inner
    let name := start.takeWhile isWordChar
    if name.isEmpty then .error .definedWithoutName
    else
      match h' : trimStart (start.dropWhile isWordChar) with
      | ')' :: rest => .ok (name, ⟨rest, length_le_of_brackets h h'⟩)
      | _ => .error .definedUnclosed
  | start =>
    let name := start.takeWhile isWordChar
    if name.isEmpty then .error .definedWithoutName
    else .ok (name, ⟨start.dropWhile isWordChar, length_dropWhile_le h⟩)

def isAlwaysDefined (name : String) : Bool := name == "__VERSION__" || name == "__LINE__"

/-- Every `defined` replaced by one or zero. -/
def answerDefined (m : Macros) (cs : List Char) : Except ConditionFault (List Char) :=
  match splitDefined? cs with
  | none => .ok cs
  | some (before, ⟨after, shorter⟩) => do
    let (name, ⟨rest, within⟩) ← definedName after
    have := Nat.lt_of_le_of_lt within shorter
    let name := String.ofList name
    let value := if m.isDefined name || isAlwaysDefined name then '1' else '0'
    let more ← answerDefined m rest
    return before ++ [' ', value, ' '] ++ more
termination_by cs.length

/-- How loosely an operator binds; zero binds nothing. -/
def conditionLevel? : Token → Option Nat
  | .symbol .orOr => some 1
  | .symbol .andAnd => some 2
  | .symbol .pipe => some 3
  | .symbol .caret => some 4
  | .symbol .amp => some 5
  | .symbol .eqEq | .symbol .notEq => some 6
  | .symbol .lt | .symbol .gt | .symbol .le | .symbol .ge => some 7
  | .symbol .shl | .symbol .shr => some 8
  | .symbol .plus | .symbol .minus => some 9
  | .symbol .star | .symbol .slash | .symbol .percent => some 10
  | _ => none

def truth (b : Bool) : Int64 := if b then 1 else 0

/-- The value of an operation. Both sides of a logical operator have been evaluated. -/
def conditionOp (op : Token) (a b : Int64) : Except ConditionFault Int64 :=
  match op with
  | .symbol .orOr => .ok (truth (a != 0 || b != 0))
  | .symbol .andAnd => .ok (truth (a != 0 && b != 0))
  | .symbol .pipe => .ok (a ||| b)
  | .symbol .caret => .ok (a ^^^ b)
  | .symbol .amp => .ok (a &&& b)
  | .symbol .eqEq => .ok (truth (a == b))
  | .symbol .notEq => .ok (truth (a != b))
  | .symbol .lt => .ok (truth (a < b))
  | .symbol .gt => .ok (truth (b < a))
  | .symbol .le => .ok (truth (a ≤ b))
  | .symbol .ge => .ok (truth (b ≤ a))
  | .symbol .shl => .ok (a <<< b)
  | .symbol .shr => .ok (a >>> b)
  | .symbol .plus => .ok (a + b)
  | .symbol .minus => .ok (a - b)
  | .symbol .star => .ok (a * b)
  | .symbol .slash => if b = 0 then .error .divisionByZero else .ok (a / b)
  | _ => if b = 0 then .error .divisionByZero else .ok (a % b)

mutual

/-- The value of an expression whose operators bind more tightly than `level`, and what is left. -/
def conditionExpr (level : Nat) (ts : List Token) :
    Except ConditionFault (Int64 × { rest : List Token // rest.length < ts.length }) := do
  let (a, ⟨r₁, h₁⟩) ← conditionUnary ts
  let (v, ⟨r₂, h₂⟩) ← conditionRest level a r₁
  return (v, ⟨r₂, by omega⟩)
termination_by 2 * ts.length + 1
decreasing_by all_goals omega

/-- Further operators behind the value `a`. -/
def conditionRest (level : Nat) (a : Int64) : (ts : List Token) →
    Except ConditionFault (Int64 × { rest : List Token // rest.length ≤ ts.length })
  | [] => .ok (a, ⟨[], by simp⟩)
  | op :: r₁ =>
    match (conditionLevel? op).filter (level < ·) with
    | none => .ok (a, ⟨op :: r₁, by simp⟩)
    | some l => do
      let (b, ⟨r₂, h₂⟩) ← conditionExpr l r₁
      let c ← conditionOp op a b
      let (v, ⟨r₃, h₃⟩) ← conditionRest level c r₂
      return (v, ⟨r₃, by simp; omega⟩)
termination_by ts => 2 * ts.length
decreasing_by all_goals simp only [List.length_cons]; omega

def conditionUnary : (ts : List Token) →
    Except ConditionFault (Int64 × { rest : List Token // rest.length < ts.length })
  | [] => .error .endOfExpression
  | .symbol .bang :: r₁ => do
    let (a, ⟨r₂, h₂⟩) ← conditionUnary r₁
    return (truth (a == 0), ⟨r₂, by simp; omega⟩)
  | .symbol .minus :: r₁ => do
    let (a, ⟨r₂, h₂⟩) ← conditionUnary r₁
    return (-a, ⟨r₂, by simp; omega⟩)
  | .symbol .plus :: r₁ => do
    let (a, ⟨r₂, h₂⟩) ← conditionUnary r₁
    return (a, ⟨r₂, by simp; omega⟩)
  | .symbol .tilde :: r₁ => do
    let (a, ⟨r₂, h₂⟩) ← conditionUnary r₁
    return (~~~a, ⟨r₂, by simp; omega⟩)
  | .int n :: r₁ => .ok (.ofNat n, ⟨r₁, by simp⟩)
  | .uint n :: r₁ => .ok (.ofNat n, ⟨r₁, by simp⟩)
  | .bool b :: r₁ => .ok (truth b, ⟨r₁, by simp⟩)
  | .symbol .leftParen :: r₁ => do
    let (a, ⟨r₂, h₂⟩) ← conditionExpr 0 r₁
    match r₂, h₂ with
    | .symbol .rightParen :: r₃, h₂ => return (a, ⟨r₃, by simp at h₂ ⊢; omega⟩)
    | t :: _, _ => throw (.unclosed t)
    | [], _ => throw (.unclosed .eof)
  | t :: _ => .error (.unexpected t)
termination_by ts => 2 * ts.length
decreasing_by all_goals simp only [List.length_cons]; omega

end

def conditionToken : Token → Token
  | .ident _ => .int 0
  | t => t

/-- The value of a condition. -/
def evaluate (place : Place) (m : Macros) (cs : List Char) : Except ConditionFault Int64 := do
  let expanded := expand place m (← answerDefined m cs)
  match tokenize (String.ofList expanded) with
  | .error f => throw (.lexical f.cause)
  | .ok ls =>
    let (v, ⟨rest, _⟩) ← conditionExpr 0 (ls.dropLast.map fun l => conditionToken l.token)
    match rest with
    | [] => return v
    | t :: _ => throw (.unexpected t)

end Shading.Source
