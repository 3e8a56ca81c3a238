import Shading.Token

/-! Why a text is not a program of the shading language. -/
namespace Shading.Surface

/-- What would have fitted. -/
inductive Expected where
  | token (t : Token)
  | expression
  | identifier
  | typeName
  | precisionQualifier
  | layoutIdentifier
  | fieldSelection
  deriving DecidableEq, Repr

def Expected.text : Expected → String
  | .token t => "'" ++ t.text ++ "'"
  | .expression => "expression"
  | .identifier => "identifier"
  | .typeName => "type name"
  | .precisionQualifier => "precision qualifier"
  | .layoutIdentifier => "layout identifier"
  | .fieldSelection => "field selection"

/-- What the language has and this library does not read. -/
inductive Construct where
  | struct
  | implicitlySizedArray
  | qualifiedReturnType
  deriving DecidableEq, Repr

def Construct.text : Construct → String
  | .struct => "struct"
  | .implicitlySizedArray => "implicitly sized array"
  | .qualifiedReturnType => "qualified function return type"

inductive Cause where
  | unexpected (expected : Expected) (found : Token)
  | endOfInput (expected : Expected)
  | unclosedBlock
  | invalidNumber (text : String)
  | integerTooBig
  | strayCharacter
  | unsupported (construct : Construct)
  deriving DecidableEq, Repr

def Cause.message : Cause → String
  | .unexpected expected found =>
    "syntax error, expected " ++ expected.text ++ ", found '" ++ found.text ++ "'"
  | .endOfInput expected => "unexpected end of input: expected " ++ expected.text
  | .unclosedBlock => "unexpected end of input: missing '\x7d'"
  | .invalidNumber text => "invalid literal: '" ++ text ++ "' is not a valid number"
  | .integerTooBig => "invalid literal: integer literal too big"
  | .strayCharacter => "unexpected character"
  | .unsupported construct => "'" ++ construct.text ++ "' is not supported"

/-- A cause and the place it concerns. -/
structure Fault where
  cause : Cause
  span : Span
  deriving DecidableEq, Repr

def Fault.message (f : Fault) : String := f.cause.message

end Shading.Surface
