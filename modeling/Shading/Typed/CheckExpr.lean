import Shading.Typed.Checking

/-! Checking of expressions. -/
namespace Shading.Typed

/-- A name: a constant, a variable, or a variable of the stage, which becomes a global of the program
when it is first used. -/
def checkName (u : WrittenUnit) (name : String) (span : Span) : Checking Expr := do
  match (← get).scopes.lookup? name with
  | some (.constant c) => return .const c
  | some (.variable v t) => return .var v t
  | none =>
    match Builtin.Var.lookup? name u.stage with
    | none => fail span (.undeclared name)
    | some v =>
      if ((← get).program.global? name).isNone then
        addGlobal (.ofBuiltin v (u.locate span).2)
      return .var (.global name) v.ty

def hasShape (dim : Dim) : List Expr → Bool
  | e :: _ =>
    match e.ty with
    | .sampler s => s.dim == dim && s.kind == .float
    | _ => false
  | [] => false

/-- A call of a function of the language; if no signature fits, one is sought for floats. -/
def makeBuiltin (stage : Stage) (name : String) (f : Builtin.Func) (dim : Option Dim)
    (args : List Expr) : Except Cause Expr := do
  if f.fragmentOnly && stage != .fragment then throw (.fragmentOnly name)
  if let some d := dim then
    if !hasShape d args then throw (.noFunction name)
  match f.result? (args.map Expr.ty) with
  | some t => return .builtin f args t
  | none =>
    let refusal := Cause.noBuiltinOverload (f.noOverload (args.map Expr.ty))
    if !args.any fun e => e.ty.isInteger then throw refusal
    let converted := args.map Expr.toFloat
    match f.result? (converted.map Expr.ty) with
    | some t => return .builtin f converted t
    | none => throw refusal

/-- Whether arguments fit parameters, with or without conversion. -/
def fits (converting : Bool) : List (Ty × Passing) → List Expr → Bool
  | [], [] => true
  | (t, q) :: ps, e :: es =>
    (t == e.ty || converting && q == .in_ && converts e.ty t) && fits converting ps es
  | _, _ => false

def chooseOverload (overloads : List Overload) (name : String) (args : List Expr) :
    Except Cause Overload :=
  match overloads.filter fun o => o.name == name with
  | [] => .error (.noFunction name)
  | candidates =>
    match candidates.find? fun o => fits false o.params args with
    | some o => .ok o
    | none =>
      match candidates.filter fun o => fits true o.params args with
      | [o] => .ok o
      | [] => .error (.noOverload name (args.map Expr.ty))
      | _ => .error (.ambiguousCall name)

/-- Arguments as their parameters want them: converted, or writable. -/
def passArgs (span : Span) (name : String) : List (Ty × Passing) → List Expr → Checking (List Expr)
  | (t, q) :: ps, e :: es => do
    let e ← if q == .in_ then coerce span name t e else do
      checkWritable span q.text e
      pure e
    return e :: (← passArgs span name ps es)
  | _, _ => return []

def checkCall (u : WrittenUnit) (name : String) (args : List Expr) (span : Span) :
    Checking Expr :=
  match Ty.ofName? name with
  | some t => placed span (makeConstruct t args)
  | none =>
    match Builtin.Func.lookup? name with
    | some (f, dim) => placed span (makeBuiltin u.stage name f dim args)
    | none => do
      let o ← placed span (chooseOverload (← get).overloads name args)
      return .call o.signature (← passArgs span name o.params args) o.returnTy

def requireBool (construct : String) (span : Span) (e : Expr) : Checking Expr :=
  if e.ty = .bool then pure e else fail span (.notBoolean construct e.ty)

mutual

/-- Operands are checked from left to right; the target of an assignment has to be writable before its
value is looked at. -/
def checkExpr (u : WrittenUnit) : Surface.Expr → Checking Expr
  | .int n _ => return .const (.int n.toInt32)
  | .uint n _ => return .const (.uint n)
  | .float x _ => return .const (.float x)
  | .bool b _ => return .const (.bool b)
  | .ident name span => checkName u name span
  | .binary op l r span => do
    let l ← checkExpr u l
    let r ← checkExpr u r
    placed span (makeBinary op l r)
  | .unary op e span => do
    let e ← checkExpr u e
    placed span (makeUnary op e)
  | .assign op t v span => do
    let t ← checkExpr u t
    checkWritable span "assign" t
    let v ← checkExpr u v
    return .assign op t (← placed span (assigned op t v))
  | .step up before e span => do
    let e ← checkExpr u e
    let symbol := if up then "++" else "--"
    checkWritable span symbol e
    if !e.ty.isNumeric then fail span (.stepOperand symbol e.ty)
    return .step up before e
  | .ternary c a b span => do
    let cond ← requireBool "?:" c.span (← checkExpr u c)
    let yes ← checkExpr u a
    let no ← checkExpr u b
    placed span (makeSelect cond yes no)
  | .call name args span => do
    checkCall u name (← checkExprs u args) span
  | .field e name span => do
    let e ← checkExpr u e
    placed span (makeSwizzle e name)
  | .index e i span => do
    let e ← checkExpr u e
    let i ← checkExpr u i
    placed span (makeIndex e i)

def checkExprs (u : WrittenUnit) : List Surface.Expr → Checking (List Expr)
  | [] => return []
  | e :: es => do
    let e ← checkExpr u e
    return e :: (← checkExprs u es)

end

def checkCondition (u : WrittenUnit) (construct : String) (e : Surface.Expr) : Checking Expr := do
  requireBool construct e.span (← checkExpr u e)

/-- A type with the array sizes that follow a name, of which the last one is the innermost. -/
def checkTy (u : WrittenUnit) (t : Surface.TypeName) (sizes : List Surface.Expr) :
    Checking Ty := do
  match Ty.ofName? t.name with
  | none => fail t.span (.noSuchType t.name)
  | some base =>
    sizes.reverse.foldlM (fun ty size => do
      if ty.isVoid then fail t.span (.illegalVoid "void")
      match (← checkExpr u size).sizeValue? with
      | some n => return .array ty n
      | none => fail size.span .badArraySize) base

end Shading.Typed
