import Shading.Surface.Fault
import Shading.Text.Blank

/-! From characters to tokens. Of all rules the one that reaches furthest takes the next characters,
and its lexeme stands for a token unless it is a number too large or with a wrong digit. -/
namespace Shading.Surface
open Text

def isSeparator (c : Char) : Bool := c == ' ' || c == '\t' || c == '\n' || c == '\r' || c == '\x0c'

def byteLength (cs : List Char) : Nat := cs.foldl (fun n c => n + c.utf8Size) 0

def isHexDigit (c : Char) : Bool :=
  c.isDigit || ('a' ≤ c && c ≤ 'f') || ('A' ≤ c && c ≤ 'F')

def digitValue (c : Char) : Nat :=
  if c.isDigit then c.toNat - '0'.toNat
  else if 'a' ≤ c then c.toNat - 'a'.toNat + 10
  else c.toNat - 'A'.toNat + 10

def numberOf (base : Nat) (digits : List Char) : Nat :=
  digits.foldl (fun n c => base * n + digitValue c) 0

def run (p : Char → Bool) (cs : List Char) : Nat := (cs.takeWhile p).length

def startsWith (p : Char → Bool) (cs : List Char) : Bool := cs.head?.any p

def isExponentMark (c : Char) : Bool := c == 'e' || c == 'E'

def isSign (c : Char) : Bool := c == '+' || c == '-'

def isFloatMark (c : Char) : Bool := c == 'f' || c == 'F'

def isUnsignedMark (c : Char) : Bool := c == 'u' || c == 'U'

/-- The length of an exponent, zero if there is none. -/
def exponentLength : List Char → Nat
  | c :: cs =>
    let sign := if startsWith isSign cs then 1 else 0
    let digits := run Char.isDigit (cs.drop sign)
    if isExponentMark c ∧ digits ≠ 0 then 1 + sign + digits else 0
  | [] => 0

/-- What a lexeme can be. -/
inductive Rule where
  | word
  | float
  | decimal
  | hexadecimal
  | symbol
  deriving DecidableEq, Repr

namespace Rule

def all : List Rule := [.word, .float, .decimal, .hexadecimal, .symbol]

def withMark (mark : Char → Bool) (cs : List Char) (n : Nat) : Nat :=
  if startsWith mark (cs.drop n) then n + 1 else n

def floatLength (cs : List Char) : Nat :=
  let whole := run Char.isDigit cs
  match cs.drop whole with
  | '.' :: after =>
    let fraction := run Char.isDigit after
    if whole + fraction = 0 then 0
    else
      let mantissa := whole + 1 + fraction
      withMark isFloatMark cs (mantissa + exponentLength (cs.drop mantissa))
  | after =>
    let exponent := exponentLength after
    if whole = 0 ∨ exponent = 0 then 0 else withMark isFloatMark cs (whole + exponent)

def hexadecimalLength : List Char → Nat
  | '0' :: x :: cs =>
    let digits := run isHexDigit cs
    if (x == 'x' || x == 'X') ∧ digits ≠ 0 then withMark isUnsignedMark ('0' :: x :: cs) (2 + digits)
    else 0
  | _ => 0

def symbolAt? (cs : List Char) : Option Symbol :=
  Symbol.all.find? fun s => s.text.toList.isPrefixOf cs

/-- How far a rule reaches, zero if it does not apply. -/
def length (cs : List Char) : Rule → Nat
  | .word => if startsWith isWordStart cs then run isWordChar cs else 0
  | .float => floatLength cs
  | .decimal =>
    let digits := run Char.isDigit cs
    if digits = 0 then 0 else withMark isUnsignedMark cs digits
  | .hexadecimal => hexadecimalLength cs
  | .symbol =>
    match symbolAt? cs with
    | some s => s.text.length
    | none => 0

end Rule

def wordToken (text : List Char) : Token :=
  match String.ofList text with
  | "true" => .bool true
  | "false" => .bool false
  | s =>
    match Keyword.ofText? s with
    | some k => .keyword k
    | none => .ident s

def floatToken (text : List Char) : Token :=
  let whole := text.takeWhile Char.isDigit
  let rest := text.dropWhile Char.isDigit
  let (fraction, rest) := match rest with
    | '.' :: r => (r.takeWhile Char.isDigit, r.dropWhile Char.isDigit)
    | r => ([], r)
  let exponent : Int := match rest with
    | c :: r =>
      if isExponentMark c then
        let magnitude := numberOf 10 ((r.dropWhile isSign).takeWhile Char.isDigit)
        if startsWith (· == '-') r then -magnitude else magnitude
      else 0
    | [] => 0
  .float (.ofDecimal (numberOf 10 (whole ++ fraction)) (exponent - fraction.length))

/-- The value of an integer's digits, if it fits 64 bits; a leading zero makes it octal. -/
def decimalValue? (digits : List Char) : Option Nat :=
  let octal := 1 < digits.length && startsWith (· == '0') digits
  let value := numberOf (if octal then 8 else 10) digits
  if (octal → digits.all (· < '8')) ∧ value < UInt64.size then some value else none

def hexadecimalValue? (digits : List Char) : Option Nat :=
  let value := numberOf 16 digits
  if value < UInt64.size then some value else none

def integerToken (text : List Char) (value : Nat) : Token :=
  if text.any isUnsignedMark then .uint value else .int value

/-- The token of a lexeme. -/
def Rule.token? (text : List Char) : Rule → Option Token
  | .word => some (wordToken text)
  | .float => some (floatToken text)
  | .decimal => (decimalValue? (text.takeWhile Char.isDigit)).map (integerToken text)
  | .hexadecimal => (hexadecimalValue? ((text.drop 2).takeWhile isHexDigit)).map (integerToken text)
  | .symbol => (symbolAt? text).map .symbol

def furthest (cs : List Char) : Rule :=
  Rule.all.foldl (fun best r => if best.length cs < r.length cs then r else best) .word

/-- The tokens read from a text, and what ended the reading before its end. -/
structure Scan where
  lexemes : List Lexeme
  fault : Option Fault

/-- Reads on from a place in a text. -/
def scanFrom (offset : Nat) (cs : List Char) : Scan :=
  match cs with
  | [] => ⟨[⟨.eof, ⟨offset, offset⟩⟩], none⟩
  | c :: rest =>
    if isSeparator c then scanFrom (offset + 1) rest
    else
      let rule := furthest (c :: rest)
      match rule.length (c :: rest) with
      | 0 => ⟨[], some ⟨.strayCharacter, ⟨offset, offset + c.utf8Size⟩⟩⟩
      | n + 1 =>
        let text := c :: rest.take n
        let span : Span := ⟨offset, offset + byteLength text⟩
        match rule.token? text with
        | none => ⟨[], some ⟨.invalidNumber (String.ofList text), span⟩⟩
        | some token =>
          let more := scanFrom span.stop (rest.drop n)
          ⟨⟨token, span⟩ :: more.lexemes, more.fault⟩
termination_by cs.length
decreasing_by
  · simp
  · simp only [List.length_drop, List.length_cons]
    omega

def scan (source : String) : Scan := scanFrom 0 source.toList

def tokenize (source : String) : Except Fault (List Lexeme) :=
  let s := scan source
  match s.fault with
  | some f => .error f
  | none => .ok s.lexemes

end Shading.Surface
