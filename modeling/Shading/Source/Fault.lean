import Shading.Source.Condition

/-! Why a source text cannot be expanded. -/
namespace Shading.Source

inductive Cause where
  | noMacroName (directive : String)
  | condition (fault : ConditionFault)
  | elifAfterElse
  | elifWithoutIf
  | elseAfterElse
  | elseWithoutIf
  | endifWithoutIf
  | extensionWithoutColon
  | unknownBehavior (behavior : String)
  | unsupportedExtension (name : String)
  | undefinesPredefined (name : String)
  | userError (text : String)
  | invalidDirective (name : String)
  | versionNotFirst
  | badVersionNumber
  | noEmbeddedVersion (version : Nat)
  | versionNeedsProfile (version : Nat)
  | noVersion (version : Nat)
  | badProfile (name : String)
  | badMacroName
  | functionLikeMacro (name : String)
  | definesPredefined (name : String)
  | macroRedefined (name : String)
  | unclosedQuote
  | unclosedAngle
  | noHeaderName
  | nestedTooDeep (levels : Nat)
  | unterminatedConditional
  deriving DecidableEq, Repr

def Cause.message : Cause → String
  | .noMacroName directive => "#" ++ directive ++ " : missing macro name"
  | .condition fault => fault.message
  | .elifAfterElse => "#elif after #else"
  | .elifWithoutIf => "#elif without #if"
  | .elseAfterElse => "#else after #else"
  | .elseWithoutIf => "#else without #if"
  | .endifWithoutIf => "#endif without #if"
  | .extensionWithoutColon => "#extension : expected ':'"
  | .unknownBehavior behavior =>
    "#extension : unknown extension behavior '" ++ behavior ++ "'"
  | .unsupportedExtension name => "'" ++ name ++ "' : extension not supported"
  | .undefinesPredefined name => "'" ++ name ++ "' : predefined names can't be undefined"
  | .userError text => "#error " ++ text
  | .invalidDirective name => "'#" ++ name ++ "' : invalid directive"
  | .versionNotFirst => "#version must occur first in the shader"
  | .badVersionNumber => "#version : bad version number"
  | .noEmbeddedVersion version => toString version ++ " es : version not supported"
  | .versionNeedsProfile version =>
    toString version ++ " : versions 300, 310, and 320 require 'es'"
  | .noVersion version => toString version ++ " : version number not supported"
  | .badProfile name => "'" ++ name ++ "' : bad profile name"
  | .badMacroName => "#define : bad macro name"
  | .functionLikeMacro name => "'" ++ name ++ "' : function-like macros are not supported"
  | .definesPredefined name => "'" ++ name ++ "' : predefined names can't be (re)defined"
  | .macroRedefined name => "'" ++ name ++ "' : macro redefined with a different substitution"
  | .unclosedQuote => "#include : missing '\"'"
  | .unclosedAngle => "#include : missing '>'"
  | .noHeaderName => "#include : expected header name"
  | .nestedTooDeep levels =>
    "#include : nesting deeper than " ++ toString levels ++ " levels"
  | .unterminatedConditional => "unterminated conditional directive"

/-- What ends an expansion. -/
inductive Fault where
  | at (file : String) (line : Nat) (cause : Cause)
  | headerNotFound (name asking : String) (line : Nat)
  deriving DecidableEq, Repr

end Shading.Source
