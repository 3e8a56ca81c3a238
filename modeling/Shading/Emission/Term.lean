import Shading.Bytecode.Instruction
import Shading.Emission.Phrase

/-! Expressions of the text as trees. A tree says what is read from variables and which functions of the
program are called, in the order of evaluation: operands from left to right. -/
namespace Shading.Emission
open Bytecode

inductive Term where
  | literal (c : Const)
  /-- A place, or a value that has a name. -/
  | name (text : String)
  /-- What a place holds when the text is reached; the id is that of the instruction that reads it. -/
  | load (id : Id) (place : Term)
  | unary (op : UnaryOp) (operand : Term)
  | binary (op : BinaryOp) (lhs rhs : Term)
  | ternary (cond yes no : Term)
  /-- A constructor, or a function of the language. -/
  | apply (function : String) (args : List Term)
  /-- A call of a function of the program; the id is that of the instruction that calls it. -/
  | call (id : Id) (function : String) (args : List Term)
  | select (base : Term) (suffix : String)
  | element (base index : Term)
  deriving Repr

mutual

/-- Reading a place is written like the place. -/
def Term.phrase : Term → Phrase
  | .literal c => .literal c
  | .name text => .primary text
  | .load _ place => place.phrase
  | .unary op t => .unary op t.phrase
  | .binary op l r => .binary op l.phrase r.phrase
  | .ternary c a b => .ternary c.phrase a.phrase b.phrase
  | .apply f args | .call _ f args => .call f (phrases args)
  | .select base suffix => base.phrase.select suffix
  | .element base index => base.phrase.select ("[" ++ index.phrase.text ++ "]")

def phrases : List Term → List Phrase
  | [] => []
  | t :: ts => t.phrase :: phrases ts

end

def Term.text (t : Term) : String := t.phrase.text

end Shading.Emission
