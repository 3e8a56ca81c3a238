/-! Where the lines of an expanded text come from. -/
namespace Shading.Source

/-- For every line, the offset at which it starts, the index of its file and its number there. -/
structure LineMap where
  files : List String := []
  starts : Array Nat := #[]
  origins : Array (Nat × Nat) := #[]
  deriving DecidableEq, Repr

namespace LineMap

def indexOf (m : LineMap) (file : String) : Nat := (m.files.idxOf? file).getD m.files.length

def withFile (m : LineMap) (file : String) : LineMap :=
  if file ∈ m.files then m else { m with files := m.files ++ [file] }

def push (m : LineMap) (start file line : Nat) : LineMap :=
  { m with starts := m.starts.push start, origins := m.origins.push (file, line) }

/-- How many lines start at an offset or before it, if `low` lines do for sure and all from `high` on
do not. -/
def rank (starts : Array Nat) (offset low high : Nat) : Nat :=
  if low < high then
    let middle := (low + high) / 2
    if starts[middle]?.any (· ≤ offset) then rank starts offset (middle + 1) high
    else rank starts offset low middle
  else low
termination_by high - low

def locate (m : LineMap) (offset : Nat) : String × Nat :=
  match rank m.starts offset 0 m.starts.size with
  | 0 => (m.files.head?.getD "", 0)
  | n + 1 =>
    let origin := m.origins[n]?.getD (0, 0)
    (m.files[origin.1]?.getD "", origin.2)

end LineMap

def textLines (cs : List Char) : List (List Char) := go [] cs
where
  go (line : List Char) : List Char → List (List Char)
    | [] => []
    | '\n' :: rest => line :: go [] rest
    | c :: rest => go (line ++ [c]) rest

end Shading.Source
