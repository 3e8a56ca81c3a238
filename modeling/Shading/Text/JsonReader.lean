import Shading.Text.Json

/-! Reading JSON. Every reader gives back a rest that is shorter than what it was given. -/
namespace Shading.Text.Json

abbrev Rest (cs : List Char) := { r : List Char // r.length < cs.length }

def isSpace (c : Char) : Bool := c == ' ' || c == '\n' || c == '\t' || c == '\r'

def skipSpace (cs : List Char) : List Char := cs.dropWhile isSpace

theorem length_skipSpace_le (cs : List Char) : (skipSpace cs).length ≤ cs.length :=
  (List.dropWhile_suffix _).length_le

/-- A piece of a string: a character, or a code unit that an escape gives. -/
inductive Piece where
  | char (c : Char)
  | unit (n : Nat)

/-- Joins surrogate pairs; half a pair is no text. -/
def joinPieces : List Piece → Option (List Char)
  | [] => some []
  | .char c :: ps => (joinPieces ps).map (c :: ·)
  | .unit n :: .unit m :: ps =>
    if 0xd800 ≤ n ∧ n < 0xdc00 ∧ 0xdc00 ≤ m ∧ m < 0xe000 then
      (joinPieces ps).map (Char.ofNat (0x10000 + (n - 0xd800) * 0x400 + (m - 0xdc00)) :: ·)
    else if 0xd800 ≤ n ∧ n < 0xe000 then none
    else (joinPieces (.unit m :: ps)).map (Char.ofNat n :: ·)
  | .unit n :: ps =>
    if 0xd800 ≤ n ∧ n < 0xe000 then none else (joinPieces ps).map (Char.ofNat n :: ·)

def hexDigit? (c : Char) : Option Nat :=
  if c.isDigit then some (c.toNat - '0'.toNat)
  else if 'a' ≤ c ∧ c ≤ 'f' then some (c.toNat - 'a'.toNat + 10)
  else if 'A' ≤ c ∧ c ≤ 'F' then some (c.toNat - 'A'.toNat + 10)
  else none

def escape? : Char → Option Char
  | '"' => some '"'
  | '\\' => some '\\'
  | '/' => some '/'
  | 'b' => some '\x08'
  | 'f' => some '\x0c'
  | 'n' => some '\n'
  | 'r' => some '\r'
  | 't' => some '\t'
  | _ => none

/-- The rest of a string after its opening quote. -/
def pieces : (cs : List Char) → Option (List Piece × Rest cs)
  | [] => none
  | '"' :: r => some ([], ⟨r, by simp⟩)
  | '\\' :: 'u' :: a :: b :: c :: d :: r => do
    let n ← [a, b, c, d].foldlM (fun n c => (hexDigit? c).map (16 * n + ·)) 0
    let (ps, ⟨r', h⟩) ← pieces r
    return (.unit n :: ps, ⟨r', by simp; omega⟩)
  | '\\' :: e :: r => do
    let c ← escape? e
    let (ps, ⟨r', h⟩) ← pieces r
    return (.char c :: ps, ⟨r', by simp; omega⟩)
  | c :: r => do
    if c.toNat < 32 then none
    let (ps, ⟨r', h⟩) ← pieces r
    return (.char c :: ps, ⟨r', by simp; omega⟩)

def readString (cs : List Char) : Option (Option String × Rest cs) := do
  let (ps, r) ← pieces cs
  return ((joinPieces ps).map String.ofList, r)

/-- The longest numeral that starts here: a sign, digits without a leading zero, a fraction and an
exponent, the last two and the sign optional. -/
def numeralRest? (cs : List Char) : Option (List Char) := do
  let digits (cs : List Char) : Option (List Char) :=
    if (cs.takeWhile Char.isDigit).isEmpty then none else some (cs.dropWhile Char.isDigit)
  let unsigned := match cs with
    | '-' :: r => r
    | r => r
  let whole ← match unsigned with
    | '0' :: d :: r => if d.isDigit then none else some (d :: r)
    | r => digits r
  let fractional ← match whole with
    | '.' :: r => digits r
    | r => some r
  match fractional with
  | 'e' :: r | 'E' :: r =>
    digits (match r with
      | '+' :: r | '-' :: r => r
      | r => r)
  | r => some r

def readNumeral (cs : List Char) : Option (Json × Rest cs) := do
  let r ← numeralRest? cs
  if h : r.length < cs.length then
    let lexeme := cs.take (cs.length - r.length)
    let value := if lexeme.all Char.isDigit then
        .natural (lexeme.foldl (fun n c => 10 * n + (c.toNat - '0'.toNat)) 0)
      else Json.numeral
    some (value, ⟨r, h⟩)
  else none

mutual

def readValue (cs : List Char) : Option (Json × Rest cs) :=
  have bound := length_skipSpace_le cs
  match h : skipSpace cs with
  | 'n' :: 'u' :: 'l' :: 'l' :: r => some (.null, ⟨r, by simp [h] at bound; omega⟩)
  | 't' :: 'r' :: 'u' :: 'e' :: r => some (.bool true, ⟨r, by simp [h] at bound; omega⟩)
  | 'f' :: 'a' :: 'l' :: 's' :: 'e' :: r => some (.bool false, ⟨r, by simp [h] at bound; omega⟩)
  | '"' :: r => do
    let (s, ⟨r', h'⟩) ← readString r
    return (.string s, ⟨r', by simp [h] at bound; omega⟩)
  | '[' :: r =>
    have inner : r.length < cs.length := by simp [h] at bound; omega
    have bound' := length_skipSpace_le r
    match h' : skipSpace r with
    | ']' :: r' => some (.array [], ⟨r', by simp [h'] at bound'; omega⟩)
    | _ => do
      let (items, ⟨r', h''⟩) ← readElements r
      return (.array items, ⟨r', by omega⟩)
  | '\x7b' :: r =>
    have inner : r.length < cs.length := by simp [h] at bound; omega
    have bound' := length_skipSpace_le r
    match h' : skipSpace r with
    | '\x7d' :: r' => some (.object [], ⟨r', by simp [h'] at bound'; omega⟩)
    | _ => do
      let (members, ⟨r', h''⟩) ← readMembers r
      return (.object members, ⟨r', by omega⟩)
  | r => do
    let (n, ⟨r', h'⟩) ← readNumeral r
    return (n, ⟨r', by simp [h] at bound; omega⟩)
termination_by 2 * cs.length
decreasing_by all_goals omega

/-- Values with commas between them, up to the closing bracket. -/
def readElements (cs : List Char) : Option (List Json × Rest cs) := do
  let (v, ⟨r, hr⟩) ← readValue cs
  have bound := length_skipSpace_le r
  match h : skipSpace r with
  | ']' :: r' => some ([v], ⟨r', by simp [h] at bound; omega⟩)
  | ',' :: r' =>
    have inner : r'.length < cs.length := by simp [h] at bound; omega
    let (vs, ⟨r'', h'⟩) ← readElements r'
    return (v :: vs, ⟨r'', by omega⟩)
  | _ => none
termination_by 2 * cs.length + 1
decreasing_by all_goals omega

/-- Named values with commas between them, up to the closing brace. -/
def readMembers (cs : List Char) : Option (List (Option String × Json) × Rest cs) :=
  have bound := length_skipSpace_le cs
  match h : skipSpace cs with
  | '"' :: r => do
    let (name, ⟨r₁, h₁⟩) ← readString r
    have bound₁ := length_skipSpace_le r₁
    match h₁' : skipSpace r₁ with
    | ':' :: r₂ =>
      have inner : r₂.length < cs.length := by simp [h, h₁'] at bound bound₁; omega
      let (v, ⟨r₃, h₃⟩) ← readValue r₂
      have bound₃ := length_skipSpace_le r₃
      match h₃' : skipSpace r₃ with
      | '\x7d' :: r₄ => some ([(name, v)], ⟨r₄, by simp [h₃'] at bound₃; omega⟩)
      | ',' :: r₄ =>
        have inner' : r₄.length < cs.length := by simp [h₃'] at bound₃; omega
        let (ms, ⟨r₅, h₅⟩) ← readMembers r₄
        return ((name, v) :: ms, ⟨r₅, by omega⟩)
      | _ => none
    | _ => none
  | _ => none
termination_by 2 * cs.length + 1
decreasing_by all_goals omega

end

def read? (s : String) : Option Json := do
  let (v, r) ← readValue s.toList
  if (skipSpace r.1).isEmpty then some v else none

end Shading.Text.Json
