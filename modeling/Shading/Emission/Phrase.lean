import Shading.Const

/-! Text of expressions. A phrase knows how tightly its outermost operator binds, so that brackets
stand exactly where a reader of the text needs them. -/
namespace Shading.Emission

/-- How tightly a phrase holds together; less is tighter. The operators with two operands lie
between `unary` and `ternary`. -/
abbrev Strength := Nat

namespace Strength

def primary : Strength := 0

def postfixed : Strength := 1

def unary : Strength := 2

def ternary : Strength := 15

def assignment : Strength := 16

end Strength

structure Phrase where
  text : String
  strength : Strength
  deriving DecidableEq, Repr

namespace Phrase

def primary (text : String) : Phrase := ⟨text, Strength.primary⟩

def bracketed (s : String) : String := "(" ++ s ++ ")"

def within (limit : Strength) (p : Phrase) : String :=
  if limit < p.strength then bracketed p.text else p.text

def inside (limit : Strength) (p : Phrase) : String :=
  if limit ≤ p.strength then bracketed p.text else p.text

def literal (c : Const) : Phrase :=
  let text := c.text
  ⟨text, if ['-'].isPrefixOf text.toList then Strength.unary else Strength.primary⟩

def binary (op : BinaryOp) (l r : Phrase) : Phrase :=
  ⟨l.within op.precedence ++ " " ++ op.symbol ++ " " ++ r.inside op.precedence, op.precedence⟩

/-- Equal signs in a row are kept apart by brackets. -/
def unary (op : UnaryOp) (p : Phrase) : Phrase :=
  let inner := p.within Strength.unary
  let inner := if op.symbol.toList.isPrefixOf inner.toList then bracketed inner else inner
  ⟨op.symbol ++ inner, Strength.unary⟩

def call (name : String) (args : List Phrase) : Phrase :=
  primary (name ++ bracketed (", ".intercalate (args.map Phrase.text)))

def select (base : Phrase) (suffix : String) : Phrase :=
  ⟨base.within Strength.postfixed ++ suffix, Strength.postfixed⟩

def ternary (cond yes no : Phrase) : Phrase :=
  ⟨cond.inside Strength.ternary ++ " ? " ++ yes.within Strength.ternary ++ " : " ++
    no.within Strength.ternary, Strength.ternary⟩

def componentLetter? (n : Nat) : Option Char := ['x', 'y', 'z', 'w'][n]?

def swizzle? (components : List Nat) : Option String :=
  (components.mapM componentLetter?).map fun cs => String.ofList ('.' :: cs)

end Phrase

end Shading.Emission
