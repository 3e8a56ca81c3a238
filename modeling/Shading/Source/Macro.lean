import Shading.Text.Blank

/-! Macros without parameters, and their expansion. While a macro's body is expanded, the macro
itself is out of the table, so that expansion ends. -/
namespace Shading.Source
open Text

abbrev Macros := List (String × List Char)

namespace Macros

def erase (m : Macros) (name : String) : Macros := m.filter fun d => d.1 != name

def insert (m : Macros) (name : String) (body : List Char) : Macros := (name, body) :: m.erase name

def isDefined (m : Macros) (name : String) : Bool := (m.lookup name).isSome

theorem length_erase_lt {m : Macros} {name : String} {body : List Char}
    (h : m.lookup name = some body) : (m.erase name).length < m.length := by
  induction m with
  | nil => simp at h
  | cons d m ih =>
    obtain ⟨key,value⟩ := d
    by_cases hk : key = name
    · subst hk
      simp only [erase,List.filter_cons,bne_self_eq_false,Bool.false_eq_true,↓reduceIte,
        List.length_cons]
      exact Nat.lt_succ_of_le (List.length_filter_le _ _)
    · have hne : (name == key) = false := by simpa using fun e => hk e.symm
      simp only [List.lookup_cons,hne] at h
      simpa [erase,List.filter_cons,hk] using ih h

end Macros

/-- What a line is made of, as far as macros are concerned. -/
inductive Piece where
  | word (name : List Char)
  /-- A number with all that sticks to it. -/
  | number (text : List Char)
  | other (c : Char)
  deriving DecidableEq, Repr

/-- How far a number reaches behind the character `last`. A sign belongs to it after an exponent
mark. -/
def numberLength (last : Char) : List Char → Nat
  | [] => 0
  | c :: rest =>
    let sign := (c == '+' || c == '-') && (last == 'e' || last == 'E')
    if isWordChar c || c == '.' || sign then numberLength c rest + 1 else 0

def startsNumber (c : Char) (rest : List Char) : Bool :=
  c.isDigit || (c == '.' && rest.head?.any Char.isDigit)

def pieces : List Char → List Piece
  | [] => []
  | c :: rest =>
    if isWordStart c then
      .word (c :: rest.takeWhile isWordChar) :: pieces (rest.dropWhile isWordChar)
    else if startsNumber c rest then
      let n := numberLength c rest
      .number (c :: rest.take n) :: pieces (rest.drop n)
    else .other c :: pieces rest
termination_by cs => cs.length
decreasing_by
  · exact Nat.lt_succ_of_le (List.dropWhile_suffix _).length_le
  · simp only [List.length_drop, List.length_cons]
    omega
  · simp

/-- What the names that are always there stand for. -/
structure Place where
  line : Nat
  version : Nat

def Place.predefined? (place : Place) (name : String) : Option (List Char) :=
  if name = "__LINE__" then some (toString place.line).toList
  else if name = "__VERSION__" then some (toString place.version).toList
  else none

def expand (place : Place) (m : Macros) (text : List Char) : List Char :=
  (pieces text).flatMap fun
    | .other c => [c]
    | .number cs => cs
    | .word cs =>
      let name := String.ofList cs
      match place.predefined? name with
      | some value => value
      | none =>
        match h : m.lookup name with
        | some body =>
          have := Macros.length_erase_lt h
          expand place (m.erase name) body
        | none => cs
termination_by m.length

end Shading.Source
