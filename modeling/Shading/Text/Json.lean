import Shading.Bytes

/-! JSON values, and their two written forms: compact, and indented by two blanks. -/
namespace Shading.Text

inductive Json where
  | null
  | bool (b : Bool)
  | natural (n : Nat)
  /-- Any other numeral. -/
  | numeral
  /-- A string; one whose escapes are no text has none. -/
  | string (text : Option String)
  | array (items : List Json)
  /-- Members in their order, repeated names included. -/
  | object (members : List (Option String × Json))

namespace Json

def text (s : String) : Json := .string (some s)

def escaped (c : Char) : List Char :=
  match c with
  | '"' => ['\\', '"']
  | '\\' => ['\\', '\\']
  | '\n' => ['\\', 'n']
  | '\r' => ['\\', 'r']
  | '\t' => ['\\', 't']
  | '\x08' => ['\\', 'b']
  | '\x0c' => ['\\', 'f']
  | c => if c.toNat < 32 then '\\' :: 'u' :: (Bytes.hex 4 c.toNat).toList else [c]

def quoted (s : String) : String := "\"" ++ String.ofList (s.toList.flatMap escaped) ++ "\""

/-- Where line breaks stand: none in the compact form. -/
structure Style where
  indented : Bool

namespace Style

def newline (style : Style) (depth : Nat) : String :=
  if style.indented then "\n" ++ String.ofList (List.replicate (2 * depth) ' ') else ""

def colon (style : Style) : String := if style.indented then ": " else ":"

/-- Items between brackets, each on a line of its own. -/
def enclose (style : Style) (depth : Nat) (left right : String) (items : List String) : String :=
  if items.isEmpty then left ++ right
  else
    left ++ ",".intercalate (items.map fun s => style.newline (depth + 1) ++ s) ++
      style.newline depth ++ right

end Style

def write (style : Style) (depth : Nat) : Json → String
  | .null => "null"
  | .bool b => if b then "true" else "false"
  | .natural n => toString n
  | .numeral => "0"
  | .string s => quoted (s.getD "")
  | .array items =>
    style.enclose depth "[" "]" (items.attach.map fun ⟨v, _⟩ => write style (depth + 1) v)
  | .object members =>
    style.enclose depth "\x7b" "\x7d" (members.attach.map fun ⟨(k, v), _⟩ =>
      quoted (k.getD "") ++ style.colon ++ write style (depth + 1) v)
termination_by j => j
decreasing_by
  all_goals simp_wf
  · have := List.sizeOf_lt_of_mem ‹_ ∈ items›
    omega
  · have := List.sizeOf_lt_of_mem ‹_ ∈ members›
    simp at this
    omega

def compact (j : Json) : String := j.write ⟨false⟩ 0

def pretty (j : Json) : String := j.write ⟨true⟩ 0

end Json

end Shading.Text
