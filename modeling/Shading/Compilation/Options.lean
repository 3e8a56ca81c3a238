import Shading.Emission.Target
import Shading.Text.Blank
import Shading.Text.JsonReader

/-! What a compilation is asked for, and how it is written as JSON. -/
namespace Shading

structure CompileOptions where
  stage : Stage := .vertex
  file : String := "shader.glsl"
  includeDirs : List String := []
  target : Emission.Target := ⟨300, true⟩
  optimize : Bool := true
  /-- Names and values that are defined before the source. -/
  defines : List (String × String) := []
  deriving DecidableEq, Repr

namespace CompileOptions
open Text

inductive Fault where
  | target (f : Emission.Target.Fault)
  | defineName (name : String)
  | stage (letter : Char)

def Fault.message : Fault → String
  | .target f => f.message
  | .defineName name => "invalid define name '" ++ name ++ "'"
  | .stage letter => "Unsupported shader type: " ++ letter.toString

def stageOf (letter : Char) : Except Fault Stage :=
  match Stage.ofLetter? letter with
  | some s => .ok s
  | none => .error (.stage letter)

/-- The target has to be known, and defined names are single words. -/
def check (o : CompileOptions) : Except Fault Unit :=
  match Emission.Target.select o.target.version o.target.es with
  | .error f => .error (.target f)
  | .ok _ =>
    match o.defines.find? fun (name, _) => name.isEmpty || name.toList.any isBlank with
    | some (name, _) => .error (.defineName name)
    | none => .ok ()

/-! JSON. A record is an object, or an array of its fields in their order. -/

def stageName : Stage → String
  | .vertex => "Vertex"
  | .fragment => "Fragment"
  | .compute => "Compute"

def json (o : CompileOptions) : Json :=
  .object [(some "stage", .text (stageName o.stage)), (some "file_path", .text o.file),
    (some "include_dirs", .array (o.includeDirs.map .text)),
    (some "target", .object [(some "version", .natural o.target.version),
      (some "es", .bool o.target.es)]),
    (some "optimize", .bool o.optimize),
    (some "defines", .array (o.defines.map fun (n, v) => .array [.text n, .text v]))]

def readText : Json → Option String
  | .string s => s
  | _ => none

def readBool : Json → Option Bool
  | .bool b => some b
  | _ => none

def readWord : Json → Option Nat
  | .natural n => if n < UInt32.size then some n else none
  | _ => none

def readList {α : Type} (read : Json → Option α) : Json → Option (List α)
  | .array items => items.mapM read
  | _ => none

def readStage (j : Json) : Option Stage :=
  let ofName (name : String) := Stage.all.find? fun s => stageName s == name
  match j with
  | .string (some name) => ofName name
  | .object [(some name, .null)] => ofName name
  | _ => none

def readPair : Json → Option (String × String)
  | .array [a, b] => do return (← readText a, ← readText b)
  | _ => none

/-- The values of a record's fields. A field may be missing, but not stand twice; members of other names
are not looked at. -/
def readFields (names : List String) : Json → Option (List (Option Json))
  | .array items =>
    if items.length ≤ names.length then
      some (items.map some ++ List.replicate (names.length - items.length) none)
    else none
  | .object members => do
    let known ← members.mapM fun (name, v) => name.map fun n => (n, v)
    names.mapM fun n =>
      match known.filter fun (m, _) => m == n with
      | [] => some none
      | [(_, v)] => some (some v)
      | _ => none
  | _ => none

def readTarget (j : Json) : Option Emission.Target := do
  match ← readFields ["version", "es"] j with
  | [some v, some e] => return ⟨← readWord v, ← readBool e⟩
  | _ => none

def readOr {α : Type} (read : Json → Option α) (default : α) : Option Json → Option α
  | some j => read j
  | none => some default

def ofJson? (j : Json) : Option CompileOptions := do
  match ← readFields ["stage", "file_path", "include_dirs", "target", "optimize", "defines"] j with
  | [stage, file, dirs, target, optimize, defines] =>
    let o : CompileOptions := {}
    return {
      stage := ← readOr readStage o.stage stage
      file := ← readOr readText o.file file
      includeDirs := ← readOr (readList readText) o.includeDirs dirs
      target := ← readOr readTarget o.target target
      optimize := ← readOr readBool o.optimize optimize
      defines := ← readOr (readList readPair) o.defines defines }
  | _ => none

def read? (text : String) : Option CompileOptions := (Json.read? text).bind ofJson?

end CompileOptions

end Shading
