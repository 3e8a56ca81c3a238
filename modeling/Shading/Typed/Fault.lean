import Shading.Surface.Tree
import Shading.Typed.Scope

/-! Everything that can be wrong with a program that was read, and what is said of it. -/
namespace Shading.Typed

inductive Cause where
  | noSuchType (name : String)
  /-- A name, or `void` itself, stands where a value is meant. -/
  | illegalVoid (what : String)
  | badArraySize
  | noLayoutInteger (entry : String)
  | reservedName (name : String)
  | redefinition (name : String)
  | computeInterface (name : String)
  | attributeStage
  | varyingStage
  | globalInout
  | samplerNotUniform (ty : String)
  | boolInterface (name : String)
  | integerNotFlat (name : String)
  | arrayInput (name : String)
  | misplacedInterpolation
  | misplacedInvariant
  | misplacedLocation
  | misplacedBinding
  | misplacedLocalSize (entry : String)
  | unknownLayout (entry : String)
  | cannotInitialize (name : String)
  | constUninitialized (name : String)
  | constNotConstant (ty : Ty)
  | localSizeStage
  | localSizeZero (entry : String)
  | localSizeChanged
  | localSizeTooLarge (size limit : WorkGroup)
  | returnsSampler (name : String)
  | samplerOutput
  | redefinesBuiltin (name : String)
  | illegalFunctionName (name : String)
  | entryParams
  | entryReturns
  | overloadReturn (name : String)
  | overloadPassing (name : String)
  | secondBody (name : String)
  | breakOutside
  | continueOutside
  | discardStage (stage : Stage)
  | notBoolean (construct : String) (found : Ty)
  | returnMissing
  | returnExtra
  | outsideFunction
  | localStorage (q : Surface.StorageQualifier)
  | localLayout
  | unaryOperand (op : UnaryOp) (found : Ty)
  | binaryOperands (op : BinaryOp) (lhs rhs : Ty)
  | cannotConvert (operation : String) (found wanted : Ty)
  | stepOperand (symbol : String) (found : Ty)
  | ternaryOperands (yes no : Ty)
  | indexNotInteger
  | notIndexable (found : Ty)
  | indexOutOfRange (value : Int)
  | undeclared (name : String)
  | fragmentOnly (name : String)
  | noFunction (name : String)
  /-- No overload fits; the text is that of the function's own rule. -/
  | noBuiltinOverload (text : String)
  | noOverload (name : String) (args : List Ty)
  | ambiguousCall (name : String)
  | notWritable (operation name : String) (access : Access)
  | repeatedComponent (operation : String)
  | notWritableValue (operation : String)
  | notConstructible (ty : Ty)
  | noArguments (ty : Ty)
  | opaqueArgument (ty found : Ty)
  | tooManyArguments (ty : Ty)
  | matrixOfMatrices (ty : Ty)
  | notEnoughData (ty : Ty)
  | fieldOfNoVector (field : String)
  | illegalField (field : String)
  | fieldOutOfRange (field : String)
  deriving Repr

namespace Cause

def about (subject rest : String) : String := "'" ++ subject ++ "' : " ++ rest

def quoted (t : Ty) : String := "'" ++ t.text ++ "'"

def noOperation (symbol : String) : String := "no operation '" ++ symbol ++ "' exists that takes "

def message : Cause → String
  | .noSuchType name => about name "no such type"
  | .illegalVoid what => about what "illegal use of type 'void'"
  | .badArraySize => about "array size" "must be a positive integer constant expression"
  | .noLayoutInteger entry => about entry "needs a literal integer"
  | .reservedName name => about name "identifiers starting with \"gl_\" are reserved"
  | .redefinition name => about name "redefinition"
  | .computeInterface name =>
    about name "global in/out variables are not allowed in compute shaders"
  | .attributeStage => about "attribute" "supported in vertex shaders only"
  | .varyingStage => about "varying" "not supported in compute shaders"
  | .globalInout => about "inout" "not allowed on global variables"
  | .samplerNotUniform ty => about ty "sampler types must be uniform"
  | .boolInterface name => about name "bool types are not allowed on shader inputs/outputs"
  | .integerNotFlat name => about name "integer fragment inputs must be qualified as 'flat'"
  | .arrayInput name => about name "vertex inputs cannot be arrays"
  | .misplacedInterpolation =>
    about "interpolation" "can only be applied to shader inputs and outputs"
  | .misplacedInvariant => about "invariant" "can only be applied to outputs"
  | .misplacedLocation => about "location" "requires an input, output or uniform"
  | .misplacedBinding => about "binding" "requires a uniform"
  | .misplacedLocalSize entry => about entry "can only be used on a standalone 'in' declaration"
  | .unknownLayout entry => about entry "unrecognized layout identifier"
  | .cannotInitialize name => about name "cannot initialize this type of qualifier"
  | .constUninitialized name => about name "variables with qualifier 'const' must be initialized"
  | .constNotConstant ty => about "=" ("assigning non-constant to 'const " ++ ty.text ++ "'")
  | .localSizeStage => about "local_size" "only valid in compute shaders"
  | .localSizeZero entry => about entry "must be at least 1"
  | .localSizeChanged => about "local_size" "cannot change previously set size"
  | .localSizeTooLarge size limit =>
    about "local_size" ("too large (" ++ size.text ++ ", max " ++ limit.text ++ ")")
  | .returnsSampler name => about name "functions cannot return samplers"
  | .samplerOutput => about "sampler" "samplers cannot be output parameters"
  | .redefinesBuiltin name => about name "cannot redefine a built-in function"
  | .illegalFunctionName name => about name "illegal function name"
  | .entryParams => about entryName "function cannot take any parameter(s)"
  | .entryReturns => about entryName "main function cannot return a value"
  | .overloadReturn name => about name "overloaded functions must have the same return type"
  | .overloadPassing name => about name "overloaded functions must have the same parameter qualifiers"
  | .secondBody name => about name "function already has a body"
  | .breakOutside => about "break" "break statement only allowed in loops"
  | .continueOutside => about "continue" "continue statement only allowed in loops"
  | .discardStage stage => about "discard" ("not supported in this stage: " ++ stage.name)
  | .notBoolean construct found =>
    about construct ("boolean expression expected, found " ++ quoted found)
  | .returnMissing => about "return" "non-void function must return a value"
  | .returnExtra => about "return" "void function cannot return a value"
  | .outsideFunction => about "return" "not inside a function"
  | .localStorage q => about q.text "qualifier not allowed on local variables"
  | .localLayout => about "layout" "qualifiers not allowed on local variables"
  | .unaryOperand op found =>
    about op.symbol ("wrong operand type: " ++ noOperation op.symbol ++ "an operand of type " ++
      quoted found)
  | .binaryOperands op lhs rhs =>
    about op.symbol ("wrong operand types: " ++ noOperation op.symbol ++
      "a left-hand operand of type " ++ quoted lhs ++ " and a right operand of type " ++ quoted rhs ++
      " (or there is no acceptable conversion)")
  | .cannotConvert operation found wanted =>
    about operation ("cannot convert from " ++ quoted found ++ " to " ++ quoted wanted)
  | .stepOperand symbol found => about symbol ("wrong operand type " ++ quoted found)
  | .ternaryOperands yes no =>
    about "?:" ("wrong operand types: " ++ quoted yes ++ " and " ++ quoted no)
  | .indexNotInteger => about "[" "integer expression required for indexing"
  | .notIndexable found =>
    about "[" ("left of '[' is not of type array, matrix, or vector: " ++ quoted found)
  | .indexOutOfRange value => about "[" ("index out of range '" ++ toString value ++ "'")
  | .undeclared name => about name "undeclared identifier"
  | .fragmentOnly name => about name "only supported in fragment shaders"
  | .noFunction name => about name "no matching overloaded function found"
  | .noBuiltinOverload text => text
  | .noOverload name args =>
    about name ("no matching overloaded function found for (" ++
      ", ".intercalate (args.map Ty.text) ++ ")")
  | .ambiguousCall name => about name "ambiguous function call"
  | .notWritable operation name access =>
    about operation ("l-value required \"" ++ name ++ "\" (" ++ access.refusal ++ ")")
  | .repeatedComponent operation =>
    about operation "vector swizzle selectors not unique for l-value"
  | .notWritableValue operation => about operation "l-value required"
  | .notConstructible ty => about ty.text "cannot construct this type"
  | .noArguments ty => about ty.text "constructor does not have any arguments"
  | .opaqueArgument ty found =>
    about ty.text ("cannot convert a " ++ quoted found ++ " in a constructor")
  | .tooManyArguments ty => about ty.text "too many arguments"
  | .matrixOfMatrices ty =>
    about ty.text "matrix constructed from matrix can only have one argument"
  | .notEnoughData ty => about ty.text "not enough data provided for construction"
  | .fieldOfNoVector field =>
    about field "field selection requires structure or vector on left hand side"
  | .illegalField field => about field "illegal vector field selection"
  | .fieldOutOfRange field => about field "vector field selection out of range"

end Cause

/-- A cause and the text that shows it. -/
structure Fault where
  span : Span
  cause : Cause
  deriving Repr

/-- What is said of a qualifier that has a newer spelling. -/
inductive Deprecation where
  | attribute
  | varying

def Deprecation.message : Deprecation → String
  | .attribute => "'attribute' : deprecated, use 'in'"
  | .varying => "'varying' : deprecated, use 'in'/'out'"

end Shading.Typed
