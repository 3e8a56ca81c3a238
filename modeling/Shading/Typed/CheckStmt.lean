import Shading.Typed.CheckExpr

/-! Checking of statements and local declarations. -/
namespace Shading.Typed

/-- Names of the stage's own variables are not free, nor is a name that the newest scope has. -/
def requireFreshName (name : String) (span : Span) : Checking Unit := do
  if name.startsWith "gl_" then fail span (.reservedName name)
  if (← get).scopes.inInnermost name then fail span (.redefinition name)

def checkConstInit (u : WrittenUnit) (ty : Ty) (d : Surface.Declarator) : Checking Expr := do
  match d.init with
  | none => fail d.span (.constUninitialized d.name)
  | some init =>
    let value ← coerce init.span "=" ty (← checkExpr u init)
    if !value.isConstant then fail init.span (.constNotConstant ty)
    return value

def checkInit (u : WrittenUnit) (ty : Ty) : Option Surface.Expr → Checking (Option Expr)
  | none => return none
  | some init => return some (← coerce init.span "=" ty (← checkExpr u init))

def addLocal (span : Span) (l : Local) (init : Option Expr) : Checking (Option Stmt) := do
  match (← get).frame with
  | none => fail span .outsideFunction
  | some frame =>
    let i := frame.locals.length
    modifyFrame fun f => { f with locals := f.locals ++ [l] }
    let _ ← declare l.name (.variable (.local_ i) l.ty)
    return some (.declare i init)

/-- A local variable; a scalar constant leaves only its value. -/
def checkLocal (u : WrittenUnit) (type : Surface.TypeName) (isConst : Bool)
    (d : Surface.Declarator) : Checking (Option Stmt) := do
  let ty ← checkTy u type d.sizes
  if ty.isVoid then fail d.span (.illegalVoid d.name)
  if ty.base.isSampler then fail d.span (.samplerNotUniform ty.baseName)
  requireFreshName d.name d.span
  if isConst then
    let value ← checkConstInit u ty d
    match value.eval? with
    | some c =>
      let _ ← declare d.name (.constant c)
      return none
    | none => addLocal d.span ⟨d.name, ty, true⟩ (some value)
  else
    let init ← checkInit u ty d.init
    addLocal d.span ⟨d.name, ty, false⟩ init

def checkLocals (u : WrittenUnit) (type : Surface.TypeName) (isConst : Bool) :
    List Surface.Declarator → Checks (List Stmt)
  | [] => return []
  | d :: ds => do
    let s ← recover u none (checkLocal u type isConst d)
    return s.toList ++ (← checkLocals u type isConst ds)

def checkLocalDeclaration (u : WrittenUnit) (d : Surface.Declaration) :
    Checking (List Stmt) := do
  let isConst ← match d.qualifiers.storage with
    | none => pure false
    | some .const => pure true
    | some q => fail d.span (.localStorage q)
  let q := d.qualifiers
  if !q.layout.isEmpty || q.interpolation.isSome || q.invariant then fail d.span .localLayout
  checkLocals u d.type isConst d.declarators

def checkReturn (u : WrittenUnit) (value : Option Surface.Expr) (span : Span) :
    Checking Stmt := do
  match (← get).frame with
  | none => fail span .outsideFunction
  | some frame =>
    match value with
    | none => if frame.returnTy.isVoid then return .return_ none else fail span .returnMissing
    | some e =>
      if frame.returnTy.isVoid then fail span .returnExtra
      return .return_ (some (← coerce e.span "return" frame.returnTy (← checkExpr u e)))

def unwrap : List Stmt → List Stmt
  | [.block body] => body
  | ss => ss

def Checking.inScope {α : Type} (work : Checking α) : Checking α :=
  ExceptT.mk (Typed.inScope work.run)

def checkBranch (u : WrittenUnit) (work : Checking (List Stmt)) : Checks (List Stmt) :=
  recover u [] (Checking.inScope (unwrap <$> work))

def checkLoopBody (u : WrittenUnit) (work : Checking (List Stmt)) : Checks (List Stmt) :=
  inLoop (checkBranch u work)

def loopAfter (init : List Stmt) (loop : Stmt) : List Stmt :=
  if init.isEmpty then [loop] else [.block (init ++ [loop])]

mutual

def checkStmt (u : WrittenUnit) : Surface.Stmt → Checking (List Stmt)
  | .empty _ => return []
  | .declare d _ => checkLocalDeclaration u d
  | .expr e _ => return [.expr (← checkExpr u e)]
  | .block body _ => do
    let body ← ExceptT.lift (inScope (checkStmts u body))
    return [.block body]
  | .if_ c yes none _ => do
    let cond ← checkCondition u "if" c
    let yes ← ExceptT.lift (checkBranch u (checkStmt u yes))
    return [.if_ cond yes []]
  | .if_ c yes (some no) _ => do
    let cond ← checkCondition u "if" c
    let yes ← ExceptT.lift (checkBranch u (checkStmt u yes))
    let no ← ExceptT.lift (checkBranch u (checkStmt u no))
    return [.if_ cond yes no]
  | .for_ none c s body _ => Checking.inScope do
    let cond ← c.mapM (checkCondition u "for")
    let step ← s.mapM (checkExpr u)
    let body ← ExceptT.lift (checkLoopBody u (checkStmt u body))
    return [.loop true cond step body]
  | .for_ (some init) c s body _ => Checking.inScope do
    let init ← checkStmt u init
    let cond ← c.mapM (checkCondition u "for")
    let step ← s.mapM (checkExpr u)
    let body ← ExceptT.lift (checkLoopBody u (checkStmt u body))
    return loopAfter init (.loop true cond step body)
  | .while_ c body _ => do
    let cond ← checkCondition u "while" c
    let body ← ExceptT.lift (checkLoopBody u (checkStmt u body))
    return [.loop true (some cond) none body]
  | .do_ body c _ => do
    let body ← ExceptT.lift (checkLoopBody u (checkStmt u body))
    let cond ← checkCondition u "do-while" c
    return [.loop false (some cond) none body]
  | .return_ value span => return [← checkReturn u value span]
  | .break_ span => do
    if !(← insideLoop) then fail span .breakOutside
    return [.break_]
  | .continue_ span => do
    if !(← insideLoop) then fail span .continueOutside
    return [.continue_]
  | .discard span => do
    if u.stage != .fragment then fail span (.discardStage u.stage)
    return [.discard]

def checkStmts (u : WrittenUnit) : List Surface.Stmt → Checks (List Stmt)
  | [] => return []
  | s :: ss => do
    let head ← recover u [] (checkStmt u s)
    return head ++ (← checkStmts u ss)

end

end Shading.Typed
