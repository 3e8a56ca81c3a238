/-! White space in source text: the code points with the Unicode property `White_Space`, and the
trimming and word splitting that rest on it. -/
namespace Shading.Text

/-- The 25 code points with the property `White_Space`. -/
def isBlank (c : Char) : Bool :=
  let n := c.toNat
  (0x09 ≤ n && n ≤ 0x0D) || n == 0x20 || n == 0x85 || n == 0xA0 || n == 0x1680 ||
    (0x2000 ≤ n && n ≤ 0x200A) || n == 0x2028 || n == 0x2029 || n == 0x202F || n == 0x205F ||
    n == 0x3000

def trimStart (cs : List Char) : List Char := cs.dropWhile isBlank

def trimEnd (cs : List Char) : List Char := (cs.reverse.dropWhile isBlank).reverse

def trim (cs : List Char) : List Char := trimEnd (trimStart cs)

def words (cs : List Char) : List (List Char) :=
  (cs.splitBy fun a b => isBlank a == isBlank b).filter fun run => !run.any isBlank

def firstWord (cs : List Char) : List Char := (words cs).headD []

def isWordChar (c : Char) : Bool := c.isAlphanum || c == '_'

def isWordStart (c : Char) : Bool := c.isAlpha || c == '_'

def splitFirst? (p : Char → Bool) (cs : List Char) : Option (List Char × List Char) :=
  match cs.dropWhile (!p ·) with
  | [] => none
  | _ :: rest => some (cs.takeWhile (!p ·), rest)

def lineCount (cs : List Char) : Nat :=
  cs.count '\n' + (if cs.getLast?.all (· == '\n') then 0 else 1)

def dropFront? : List Char → List Char → Option (List Char)
  | [], cs => some cs
  | _ :: _, [] => none
  | f :: front, c :: cs => if f = c then dropFront? front cs else none

end Shading.Text
