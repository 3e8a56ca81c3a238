/-! Source text as logical lines: comments are taken out, and a backslash before a line break joins
two lines. -/
namespace Shading.Source

structure LogicalLine where
  /-- The line of the source on which it starts. -/
  number : Nat
  text : List Char
  deriving DecidableEq, Repr

/-- What the characters that come next belong to. -/
inductive Mode where
  | code
  | lineComment
  | blockComment
  deriving DecidableEq, Repr

/-- The lines from here on. The current one starts on line `start` and holds `done` so far; `line`
is the line of the next character. A block comment leaves a blank behind, and its line breaks end
lines all the same. -/
def linesFrom : Mode → (start line : Nat) → (done : List Char) → List Char → List LogicalLine
  | _, start, _, done, [] => if done.isEmpty then [] else [⟨start, done⟩]
  | .blockComment, start, line, done, '\n' :: rest =>
    ⟨start, done⟩ :: linesFrom .blockComment (line + 1) (line + 1) [] rest
  | .blockComment, start, line, done, '*' :: '/' :: rest =>
    linesFrom .code start line (done ++ [' ']) rest
  | .blockComment, start, line, done, _ :: rest => linesFrom .blockComment start line done rest
  | _, start, line, done, '\n' :: rest =>
    ⟨start, done⟩ :: linesFrom .code (line + 1) (line + 1) [] rest
  | .lineComment, start, line, done, _ :: rest => linesFrom .lineComment start line done rest
  | .code, start, line, done, '\\' :: '\r' :: '\n' :: rest =>
    linesFrom .code start (line + 1) done rest
  | .code, start, line, done, '\\' :: '\r' :: rest => linesFrom .code start (line + 1) done rest
  | .code, start, line, done, '\\' :: '\n' :: rest => linesFrom .code start (line + 1) done rest
  | .code, start, line, done, '/' :: '/' :: rest => linesFrom .lineComment start line done rest
  | .code, start, line, done, '/' :: '*' :: rest => linesFrom .blockComment start line done rest
  | .code, start, line, done, '\r' :: rest => linesFrom .code start line done rest
  | .code, start, line, done, c :: rest => linesFrom .code start line (done ++ [c]) rest

def logicalLines (text : List Char) : List LogicalLine := linesFrom .code 1 1 [] text

end Shading.Source
