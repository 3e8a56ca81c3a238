import Shading.Surface.Fault

/-! A place between two tokens, from which reading goes on. Whatever is read leaves a smaller
cursor. -/
namespace Shading.Surface

structure Cursor where
  /-- The token before the cursor. -/
  previous : Span
  /-- The tokens after it, without the end of the text. -/
  rest : List Lexeme
  /-- Where the text ends. -/
  stop : Span

namespace Cursor

def size (s : Cursor) : Nat := s.rest.length

def ofLexemes (ls : List Lexeme) : Cursor :=
  let stop := (ls.getLast?.map Lexeme.span).getD ⟨0, 0⟩
  ⟨(ls.head?.map Lexeme.span).getD stop, ls.dropLast, stop⟩

abbrev After (s : Cursor) := { t : Cursor // t.size < s.size }

abbrev Onward (s : Cursor) := { t : Cursor // t.size ≤ s.size }

theorem size_lt_trans {r s t : Cursor} (first : s.size < r.size) (second : t.size < s.size) :
    t.size < r.size :=
  Nat.lt_trans second first

theorem size_lt_of_lt_of_le {r s t : Cursor} (first : s.size < r.size) (second : t.size ≤ s.size) :
    t.size < r.size :=
  Nat.lt_of_le_of_lt second first

theorem size_lt_of_le_of_lt {r s t : Cursor} (first : s.size ≤ r.size) (second : t.size < s.size) :
    t.size < r.size :=
  Nat.lt_of_lt_of_le second first

theorem size_le_of_lt {s t : Cursor} (shorter : t.size < s.size) : t.size ≤ s.size := Nat.le_of_lt shorter

def Onward.refl (s : Cursor) : Onward s := ⟨s, Nat.le_refl s.size⟩

def peek (s : Cursor) : Token := (s.rest.head?.map Lexeme.token).getD .eof

def second (s : Cursor) : Token := (s.rest[1]?.map Lexeme.token).getD .eof

def here (s : Cursor) : Span := (s.rest.head?.map Lexeme.span).getD s.stop

def next? (s : Cursor) : Option (Lexeme × After s) :=
  match h : s.rest with
  | [] => none
  | l :: rest => some (l, ⟨⟨l.span, rest, s.stop⟩, by simp [size, h]⟩)

def accept? {α : Type} (f : Token → Option α) (s : Cursor) : Option (α × After s) := do
  let (l, t) ← s.next?
  let a ← f l.token
  return (a, t)

def eat? (token : Token) (s : Cursor) : Option (After s) := do
  let (l, t) ← s.next?
  if l.token = token then some t else none

def fault (s : Cursor) (expected : Expected) : Fault :=
  match s.peek with
  | .eof => ⟨.endOfInput expected, s.here⟩
  | found => ⟨.unexpected expected found, s.here⟩

def expect (token : Token) (s : Cursor) : Except Fault (After s) :=
  match s.eat? token with
  | some t => .ok t
  | none => .error (s.fault (.token token))

def name? : Token → Option String
  | .ident name => some name
  | _ => none

def identifier (expected : Expected) (s : Cursor) : Except Fault (String × After s) :=
  match s.accept? name? with
  | some r => .ok r
  | none => .error (s.fault expected)

end Cursor

end Shading.Surface
