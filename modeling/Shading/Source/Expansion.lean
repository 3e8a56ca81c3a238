import Shading.Source.Fault
import Shading.Source.Header
import Shading.Source.LineMap
import Shading.Source.LogicalLine

/-! Expanding a source: directives are carried out, macros replaced and headers put in, and a map
keeps the file and line that every line of the result came from. -/
namespace Shading.Source
open Text

structure Extension where
  name : String
  behavior : String
  deriving DecidableEq, Repr

/-- A conditional that is open. -/
structure Conditional where
  active : Bool
  /-- One of its branches was chosen. -/
  taken : Bool
  /-- What is around it is active. -/
  parentActive : Bool
  seenElse : Bool
  deriving DecidableEq, Repr

def preambleName : String := "<preamble>"

def maxIncludeDepth : Nat := 32

structure State where
  macros : Macros := [("GL_ES", ['1'])]
  /-- The innermost conditional first. -/
  conditionals : List Conditional := []
  /-- Files that ask to be included once. -/
  once : List String := []
  /-- The result so far. -/
  text : List Char := []
  map : LineMap := {}
  version : Nat := 100
  es : Bool := true
  extensions : List Extension := []
  versionSeen : Bool := false
  codeSeen : Bool := false
  log : Log := []

def State.isActive (s : State) : Bool := s.conditionals.head?.all Conditional.active

abbrev Expanding := ExceptT Fault (StateM State)

/-- Where a directive stands. -/
structure Site where
  file : String
  line : Nat
  /-- The path of an included file. -/
  path : Option String
  deriving Repr

def Site.fail {α : Type} (site : Site) (cause : Cause) : Expanding α :=
  throw (.at site.file site.line cause)

def State.place (s : State) (site : Site) : Place := ⟨site.line, s.version⟩

def evaluateHere (site : Site) (text : List Char) : Expanding Bool := do
  let s ← get
  match evaluate (s.place site) s.macros text with
  | .ok v => return v != 0
  | .error f => site.fail (.condition f)

def openConditional (value : Bool) : Expanding Unit :=
  modify fun s => { s with conditionals := ⟨s.isActive && value, value, s.isActive, false⟩ :: s.conditionals }

/-- Directives that count in skipped text too. -/
inductive Conditioning where
  | ifdef
  | ifndef
  | if_
  | elif
  | else_
  | endif

def Conditioning.ofName? : String → Option Conditioning
  | "ifdef" => some .ifdef
  | "ifndef" => some .ifndef
  | "if" => some .if_
  | "elif" => some .elif
  | "else" => some .else_
  | "endif" => some .endif
  | _ => none

def defines (site : Site) (directive : String) (text : List Char) : Expanding Bool := do
  let name := String.ofList (firstWord text)
  if name.isEmpty then site.fail (.noMacroName directive)
  return (← get).macros.isDefined name

def Conditioning.run (site : Site) (text : List Char) : Conditioning → Expanding Unit
  | .ifdef => do openConditional (← defines site "ifdef" text)
  | .ifndef => do openConditional !(← defines site "ifndef" text)
  | .if_ => do
    if (← get).isActive then openConditional (← evaluateHere site text)
    else openConditional false
  | .elif => do
    match (← get).conditionals with
    | [] => site.fail .elifWithoutIf
    | c :: outer =>
      if c.seenElse then site.fail .elifAfterElse
      let mut value := false
      if c.parentActive && !c.taken then
        value ← evaluateHere site text
      modify fun s => { s with conditionals := { c with active := value, taken := c.taken || value } :: outer }
  | .else_ => do
    match (← get).conditionals with
    | [] => site.fail .elseWithoutIf
    | c :: outer =>
      if c.seenElse then site.fail .elseAfterElse
      modify fun s => { s with conditionals := ⟨c.parentActive && !c.taken, true, c.parentActive, true⟩ :: outer }
  | .endif => do
    match (← get).conditionals with
    | [] => site.fail .endifWithoutIf
    | _ :: outer => modify fun s => { s with conditionals := outer }

/-- A number with an optional plus sign that fits 32 bits. -/
def readNumber? (word : List Char) : Option Nat :=
  let digits := match word with
    | '+' :: rest => rest
    | rest => rest
  let n := Surface.numberOf 10 digits
  if !digits.isEmpty && digits.all Char.isDigit && n < UInt32.size then some n else none

def embeddedVersions : List Nat := [100, 300, 310, 320]

def desktopVersions : List Nat := [110, 120, 130, 140, 150, 330, 400, 410, 420, 430, 440, 450, 460]

def isEmbedded (version : Nat) (profile : Option String) : Except Cause Bool :=
  match profile with
  | some "es" =>
    if version ∈ embeddedVersions then .ok true else .error (.noEmbeddedVersion version)
  | some "core" | some "compatibility" | none =>
    if version = 100 then .ok true
    else if version ∈ desktopVersions then .ok false
    else if version ∈ embeddedVersions then .error (.versionNeedsProfile version)
    else .error (.noVersion version)
  | some other => .error (.badProfile other)

def setVersion (site : Site) (text : List Char) : Expanding Unit := do
  let s ← get
  if s.versionSeen ∨ s.codeSeen ∨ site.file = preambleName ∨ site.path.isSome then
    site.fail .versionNotFirst
  let ws := words text
  let some version := ws.head?.bind readNumber? | site.fail .badVersionNumber
  match isEmbedded version (ws[1]?.map String.ofList) with
  | .error cause => site.fail cause
  | .ok es =>
    let macros := if es then s.macros.insert "GL_ES" ['1'] else s.macros.erase "GL_ES"
    set { s with versionSeen := true, version := version, es := es, macros := macros }

def knownExtensions : List String :=
  ["GL_GOOGLE_include_directive", "GL_GOOGLE_cpp_style_line_directive",
    "GL_OES_standard_derivatives", "GL_EXT_shader_texture_lod", "GL_EXT_shadow_samplers",
    "GL_ARB_shader_texture_lod", "GL_EXT_texture_array"]

def behaviors : List String := ["require", "enable", "warn", "disable"]

def addExtension (site : Site) (text : List Char) : Expanding Unit := do
  let some (before, after) := splitFirst? (· == ':') text | site.fail .extensionWithoutColon
  let name := String.ofList (trim before)
  let behavior := String.ofList (trim after)
  if behavior ∉ behaviors then site.fail (.unknownBehavior behavior)
  if name ∉ knownExtensions then
    let cause := Cause.unsupportedExtension name
    if behavior = "require" then site.fail cause
    modify fun s => { s with log := s.log ++ [.warning site.file site.line cause.message] }
  modify fun s => { s with extensions := s.extensions ++ [⟨name, behavior⟩] }

def isPredefined (name : List Char) : Bool :=
  ['G', 'L', '_'].isPrefixOf name || ['_', '_'].isPrefixOf name

def define (site : Site) (text : List Char) : Expanding Unit := do
  let name := text.takeWhile isWordChar
  let body := text.dropWhile isWordChar
  let spelling := String.ofList name
  if name.isEmpty || name.head?.any Char.isDigit then site.fail .badMacroName
  if body.head? = some '(' then site.fail (.functionLikeMacro spelling)
  if isPredefined name then site.fail (.definesPredefined spelling)
  let body := trim body
  let s ← get
  match s.macros.lookup spelling with
  | some known => if known ≠ body then site.fail (.macroRedefined spelling)
  | none => set { s with macros := s.macros.insert spelling body }

def undefine (site : Site) (text : List Char) : Expanding Unit := do
  let name := firstWord text
  let spelling := String.ofList name
  if isPredefined name then site.fail (.undefinesPredefined spelling)
  modify fun s => { s with macros := s.macros.erase spelling }

/-- The header that an `#include` names, and whether it stands in quotes. -/
def headerName (text : List Char) : Except Cause (String × Bool) :=
  match text with
  | '"' :: inner =>
    match splitFirst? (· == '"') inner with
    | some (name, _) => .ok (String.ofList name, true)
    | none => .error .unclosedQuote
  | '<' :: inner =>
    match splitFirst? (· == '>') inner with
    | some (name, _) => .ok (String.ofList name, false)
    | none => .error .unclosedAngle
  | _ => .error .noHeaderName

abbrev Nested := Option (Header → Expanding Unit)

def includeHeader (lib : Library) (nested : Nested) (site : Site) (text : List Char) :
    Expanding Unit := do
  match headerName text with
  | .error cause => site.fail cause
  | .ok (name, quoted) =>
    let some enter := nested | site.fail (.nestedTooDeep maxIncludeDepth)
    let answer := lib.find quoted name site.file
    modify fun s => { s with log := s.log ++ answer.log }
    let some header := answer.found | throw (.headerNotFound name site.file site.line)
    if !(← get).once.any (Path.same header.path) then enter header

/-- A directive without its sign. -/
def directive (lib : Library) (nested : Nested) (site : Site) (text : List Char) :
    Expanding Unit := do
  let name := String.ofList (text.takeWhile isWordChar)
  let rest := trim (text.dropWhile isWordChar)
  match Conditioning.ofName? name with
  | some c => c.run site rest
  | none =>
    if (← get).isActive then
      match name with
      | "" | "line" => return
      | "version" => setVersion site rest
      | "extension" => addExtension site rest
      | "define" => define site rest
      | "undef" => undefine site rest
      | "include" => includeHeader lib nested site rest
      | "pragma" =>
        if firstWord rest = "once".toList then
          if let some path := site.path then
            modify fun s => { s with once := path :: s.once }
      | "error" => site.fail (.userError (String.ofList rest))
      | other => site.fail (.invalidDirective other)

def emitLine (index : Nat) (site : Site) (text : List Char) : Expanding Unit :=
  modify fun s =>
    { s with
      codeSeen := s.codeSeen || site.file != preambleName
      map := s.map.push (Surface.byteLength s.text) index site.line
      text := s.text ++ expand (s.place site) s.macros text ++ ['\n'] }

def processLine (lib : Library) (nested : Nested) (index : Nat) (file : String) (path : Option String)
    (l : LogicalLine) : Expanding Unit := do
  let site : Site := ⟨file, l.number, path⟩
  match trim l.text with
  | '#' :: text => directive lib nested site (trim text)
  | [] => return
  | _ => if (← get).isActive then emitLine index site l.text

def enterFile (file : String) : Expanding Nat :=
  modifyGet fun s => (s.map.indexOf file, { s with map := s.map.withFile file })

/-- A whole file. It closes the conditionals that it opens. -/
def processText (lib : Library) (nested : Nested) (file : String) (path : Option String)
    (text : List Char) : Expanding Unit := do
  let index ← enterFile file
  let depth := (← get).conditionals.length
  (logicalLines text).forM (processLine lib nested index file path)
  if (← get).conditionals.length ≠ depth then
    throw (.at file (lineCount text) .unterminatedConditional)

/-- A file in which includes may nest `levels` deep. -/
def expandFile (lib : Library) : (levels : Nat) → (file : String) → (path : Option String) →
    (text : List Char) → Expanding Unit
  | 0 => processText lib none
  | levels + 1 => processText lib (some fun h => expandFile lib levels h.path (some h.path) h.text)

/-- The compiler's own directives and then the source of `file`. -/
def expandSource (lib : Library) (preamble source : String) (file : String) : Expanding Unit := do
  expandFile lib maxIncludeDepth preambleName none preamble.toList
  modify fun s => { s with codeSeen := false }
  expandFile lib maxIncludeDepth file none source.toList

/-- An expanded source. -/
structure Expansion where
  chars : List Char
  map : LineMap
  version : Nat
  es : Bool
  extensions : List Extension
  deriving Repr

namespace Expansion

def text (e : Expansion) : String := String.ofList e.chars

def lines (e : Expansion) : List (List Char) := textLines e.chars

def startsFrom (offset : Nat) : List (List Char) → List (Nat × List Char)
  | [] => []
  | l :: ls => (offset, l) :: startsFrom (offset + Surface.byteLength l + 1) ls

def locate (e : Expansion) (offset : Nat) : String × Nat := e.map.locate offset

end Expansion

def run (lib : Library) (preamble source : String) (file : String) :
    Except Fault Expansion × Log :=
  let (result, s) := (expandSource lib preamble source file).run.run {}
  (result.map fun _ => ⟨s.text, s.map, s.version, s.es, s.extensions⟩, s.log)

end Shading.Source
