import Shading.Number.Shortest

/-! The words and signs of the shading language, and places in a text. -/
namespace Shading

/-- A range of bytes in a text. -/
structure Span where
  start : Nat
  stop : Nat
  deriving DecidableEq, Repr, Inhabited

def Span.merge (a b : Span) : Span := ⟨min a.start b.start, max a.stop b.stop⟩

inductive Keyword where
  | const
  | uniform
  | in_
  | out
  | inout
  | attribute
  | varying
  | layout
  | precision
  | highp
  | mediump
  | lowp
  | flat
  | smooth
  | noperspective
  | centroid
  | invariant
  | if_
  | else_
  | for_
  | while_
  | do_
  | break_
  | continue_
  | return_
  | discard
  | struct
  deriving DecidableEq, Repr

namespace Keyword

def all : List Keyword :=
  [.const, .uniform, .in_, .out, .inout, .attribute, .varying, .layout, .precision, .highp, .mediump,
    .lowp, .flat, .smooth, .noperspective, .centroid, .invariant, .if_, .else_, .for_, .while_, .do_,
    .break_, .continue_, .return_, .discard, .struct]

def text : Keyword → String
  | .const => "const"
  | .uniform => "uniform"
  | .in_ => "in"
  | .out => "out"
  | .inout => "inout"
  | .attribute => "attribute"
  | .varying => "varying"
  | .layout => "layout"
  | .precision => "precision"
  | .highp => "highp"
  | .mediump => "mediump"
  | .lowp => "lowp"
  | .flat => "flat"
  | .smooth => "smooth"
  | .noperspective => "noperspective"
  | .centroid => "centroid"
  | .invariant => "invariant"
  | .if_ => "if"
  | .else_ => "else"
  | .for_ => "for"
  | .while_ => "while"
  | .do_ => "do"
  | .break_ => "break"
  | .continue_ => "continue"
  | .return_ => "return"
  | .discard => "discard"
  | .struct => "struct"

def ofText? (s : String) : Option Keyword := all.find? fun k => k.text == s

end Keyword

inductive Symbol where
  | leftParen
  | rightParen
  | leftBracket
  | rightBracket
  | leftBrace
  | rightBrace
  | dot
  | comma
  | colon
  | semicolon
  | question
  | plus
  | minus
  | star
  | slash
  | percent
  | assign
  | plusAssign
  | minusAssign
  | starAssign
  | slashAssign
  | percentAssign
  | ampAssign
  | pipeAssign
  | caretAssign
  | shlAssign
  | shrAssign
  | inc
  | dec
  | eqEq
  | notEq
  | lt
  | gt
  | le
  | ge
  | andAnd
  | orOr
  | xorXor
  | bang
  | tilde
  | amp
  | pipe
  | caret
  | shl
  | shr
  deriving DecidableEq, Repr

namespace Symbol

/-- The longer ones first, so that the first one that fits is the longest. -/
def all : List Symbol :=
  [.shlAssign, .shrAssign, .plusAssign, .minusAssign, .starAssign, .slashAssign, .percentAssign,
    .ampAssign, .pipeAssign, .caretAssign, .inc, .dec, .le, .ge, .eqEq, .notEq, .andAnd, .orOr,
    .xorXor, .shl, .shr, .leftParen, .rightParen, .leftBracket, .rightBracket, .leftBrace,
    .rightBrace, .dot, .comma, .colon, .semicolon, .question, .plus, .minus, .star, .slash, .percent,
    .assign, .lt, .gt, .bang, .tilde, .amp, .pipe, .caret]

def text : Symbol → String
  | .leftParen => "("
  | .rightParen => ")"
  | .leftBracket => "["
  | .rightBracket => "]"
  | .leftBrace => "\x7b"
  | .rightBrace => "\x7d"
  | .dot => "."
  | .comma => ","
  | .colon => ":"
  | .semicolon => ";"
  | .question => "?"
  | .plus => "+"
  | .minus => "-"
  | .star => "*"
  | .slash => "/"
  | .percent => "%"
  | .assign => "="
  | .plusAssign => "+="
  | .minusAssign => "-="
  | .starAssign => "*="
  | .slashAssign => "/="
  | .percentAssign => "%="
  | .ampAssign => "&="
  | .pipeAssign => "|="
  | .caretAssign => "^="
  | .shlAssign => "<<="
  | .shrAssign => ">>="
  | .inc => "++"
  | .dec => "--"
  | .eqEq => "=="
  | .notEq => "!="
  | .lt => "<"
  | .gt => ">"
  | .le => "<="
  | .ge => ">="
  | .andAnd => "&&"
  | .orOr => "||"
  | .xorXor => "^^"
  | .bang => "!"
  | .tilde => "~"
  | .amp => "&"
  | .pipe => "|"
  | .caret => "^"
  | .shl => "<<"
  | .shr => ">>"

end Symbol

inductive Token where
  /-- Names of types are identifiers too. -/
  | ident (name : String)
  | int (n : Nat)
  | uint (n : Nat)
  | float (x : Number.Binary64)
  | bool (b : Bool)
  | keyword (k : Keyword)
  | symbol (s : Symbol)
  | eof
  deriving DecidableEq, Repr

namespace Token

def floatLayout : Number.Layout := ⟨none, false⟩

def text : Token → String
  | .ident s => s
  | .int n => toString n
  | .uint n => toString n ++ "u"
  | .float x => floatLayout.write Number.binary64 x.datum
  | .bool b => if b then "true" else "false"
  | .keyword k => k.text
  | .symbol s => s.text
  | .eof => "end of file"

def isPrecision : Token → Bool
  | .keyword .highp | .keyword .mediump | .keyword .lowp => true
  | _ => false

def isInterpolation : Token → Bool
  | .keyword .flat | .keyword .smooth | .keyword .noperspective | .keyword .centroid
  | .keyword .invariant => true
  | _ => false

def startsDeclaration : Token → Bool
  | .keyword .const | .keyword .uniform | .keyword .in_ | .keyword .out | .keyword .inout
  | .keyword .attribute | .keyword .varying | .keyword .layout => true
  | t => t.isPrecision || t.isInterpolation

end Token

/-- A token and where it stands. -/
structure Lexeme where
  token : Token
  span : Span
  deriving DecidableEq, Repr

end Shading
