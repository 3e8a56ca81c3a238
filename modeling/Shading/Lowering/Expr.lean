import Shading.Lowering.Builder

/-! Instructions for expressions. Operands are evaluated from left to right; where only one of two parts
may be evaluated and the other has effects, the choice becomes control flow. -/
namespace Shading.Lowering
open Bytecode Typed

/-- Where a value can be stored. -/
inductive Place where
  | pointer (ptr : Id) (ty : Ty) (storage : StorageClass)
  /-- Components of the vector that the pointer denotes. -/
  | components (ptr : Id) (base : Ty) (storage : StorageClass) (selected : List Nat)
  deriving Repr

def variableId (v : VarRef) : Lower (Id × StorageClass) := do
  let s ← get
  match v with
  | .global name =>
    match s.globals.lookup name with
    | some r => return r
    | none => throw (.unknownGlobal name)
  | .local_ i =>
    match s.frame.locals.lookup i with
    | some id => return (id, .function)
    | none => throw (.undeclaredLocal i)
  | .param i =>
    match s.frame.params[i]? with
    | some id => return (id, .function)
    | none => throw (.unknownParam i)

def functionId (signature : String) : Lower Id := do
  match (← get).functions.lookup signature with
  | some id => return id
  | none => throw (.noDefinition signature)

def accessChain (storage : StorageClass) (ty : Ty) (base index : Id) : Lower Id := do
  let p ← pointerId storage (← tyId ty)
  let id ← fresh
  emit .accessChain [p, id, base, index]
  return id

def componentKind (base : Ty) : Lower Scalar :=
  match base.kind? with
  | some k => pure k
  | none => throw (.noSwizzle base)

def load : Place → Lower Id
  | .pointer ptr ty _ => value .load ty [ptr]
  | .components ptr base _ selected => do
    let kind ← componentKind base
    let whole ← value .load base [ptr]
    value .swizzle (Ty.ofSize kind selected.length) (whole :: selected.map UInt32.ofNat)

def storeComponents (ptr : Id) (storage : StorageClass) (scalar : Ty) (whole : Bool) (stored : Id) :
    Nat → List Nat → Lower Unit
  | _, [] => pure ()
  | i, component :: rest => do
    let element ← if whole then pure stored else do
      let index ← constantId (.int (.ofNat i))
      value .extract scalar [stored, index]
    let index ← constantId (.int (.ofNat component))
    let target ← accessChain storage scalar ptr index
    emit .store [target, element]
    storeComponents ptr storage scalar whole stored (i + 1) rest

def store (p : Place) (stored : Id) : Lower Unit :=
  match p with
  | .pointer ptr _ _ => emit .store [ptr, stored]
  | .components ptr base storage selected => do
    let kind ← componentKind base
    storeComponents ptr storage (.scalar kind) (selected.length == 1) stored 0 selected

def keepsPointer : Typed.Expr → Bool
  | .var _ _ => true
  | .index base _ _ => keepsPointer base
  | _ => false

def indexPlace (base : Place) (position : Typed.Expr) (index : Lower Id) (ty : Ty) : Lower Place :=
  match base with
  | .pointer ptr _ storage => do
    let i ← index
    return .pointer (← accessChain storage ty ptr i) ty storage
  | .components ptr _ storage selected => do
    let found := (position.const?.bind Const.integer?).bind fun n =>
      if 0 ≤ n then selected[n.toNat]? else none
    match found with
    | none => throw .dynamicIndex
    | some component =>
      let i ← constantId (.int (.ofNat component))
      return .pointer (← accessChain storage ty ptr i) ty storage

def selectPlace (base : Place) (components : List Nat) : Lower Place :=
  match base with
  | .pointer ptr ty storage => return .components ptr ty storage components
  | .components ptr ty storage outer =>
    match components.mapM fun c => outer[c]? with
    | some selected => return .components ptr ty storage selected
    | none => throw .componentOutOfRange

/-- `&&` and `||` whose right side may not be evaluated. -/
def lowerShortCircuit (isAnd : Bool) (lhs rhs : Lower Id) : Lower Id := do
  let tmp ← localVariable .bool
  let l ← lhs
  emit .store [tmp, l]
  let cond ← if isAnd then pure l else value .unary .bool [.ofNat UnaryOp.not.code, l]
  emit .ifThen [cond]
  let r ← rhs
  emit .store [tmp, r]
  emit .endIf []
  value .load .bool [tmp]

/-- A choice of which only one branch may be evaluated. -/
def lowerChoice (ty : Ty) (cond yes no : Lower Id) : Lower Id := do
  let tmp ← localVariable ty
  let c ← cond
  emit .ifThen [c]
  let a ← yes
  emit .store [tmp, a]
  emit .orElse []
  let b ← no
  emit .store [tmp, b]
  emit .endIf []
  value .load ty [tmp]

/-- Adds or subtracts one. -/
def lowerStep (up before : Bool) (ty : Ty) (kind : Scalar) (p : Place) : Lower Id := do
  let old ← load p
  let one ← constantId ((Const.int 1).cast kind)
  let op : BinaryOp := if up then .add else .sub
  let new ← value .binary ty [.ofNat op.code, old, one]
  store p new
  return if before then new else old

/-- Components that a call has written to a variable of its own, to be stored where they belong. -/
structure WriteBack where
  place : Place
  tmp : Id
  ty : Ty

/-- What a call gets for a parameter that it may write. Components have no pointer, so they go through
a variable. -/
def passPlace (passing : Passing) (ty : Ty) (p : Place) : Lower (Id × List WriteBack) :=
  match p with
  | .pointer ptr _ _ => return (ptr, [])
  | .components .. => do
    let tmp ← localVariable ty
    if passing == .inout then
      let current ← load p
      emit .store [tmp, current]
    return (tmp, [⟨p, tmp, ty⟩])

def writeBack (w : WriteBack) : Lower Unit := do
  let v ← value .load w.ty [w.tmp]
  store w.place v

mutual

def lowerExpr (p : Program) : Typed.Expr → Lower Id
  | .const c => constantId c
  | .var v ty => do
    let (ptr, storage) ← variableId v
    load (.pointer ptr ty storage)
  | .binary op l r ty =>
    if (op == .logicalAnd || op == .logicalOr) && r.hasEffect then
      lowerShortCircuit (op == .logicalAnd) (lowerExpr p l) (lowerExpr p r)
    else do
      let l ← lowerExpr p l
      let r ← lowerExpr p r
      value .binary ty [.ofNat op.code, l, r]
  | .unary op e => do
    let x ← lowerExpr p e
    value .unary e.ty [.ofNat op.code, x]
  | .assign op t v => do
    let place ← lowerPlace p t
    let v ← lowerExpr p v
    let v ← match op with
      | none => pure v
      | some op => do
        let current ← load place
        value .binary t.ty [.ofNat op.code, current, v]
    store place v
    return v
  | .step up before t =>
    match t.ty.kind? with
    | none => throw (.noStep t.ty)
    | some kind => do lowerStep up before t.ty kind (← lowerPlace p t)
  | .select c a b =>
    if a.hasEffect || b.hasEffect then
      lowerChoice a.ty (lowerExpr p c) (lowerExpr p a) (lowerExpr p b)
    else do
      let c ← lowerExpr p c
      let x ← lowerExpr p a
      let y ← lowerExpr p b
      value .select a.ty [c, x, y]
  | .construct args ty => do value .construct ty (← lowerExprs p args)
  | .call signature args ty =>
    match p.function? signature with
    | none => throw (.undeclaredFunction signature)
    | some callee => do
      let f ← functionId signature
      let (operands, writes) ← lowerArgs p callee.params args
      let result ← value .call ty (f :: operands)
      writes.forM writeBack
      return result
  | .builtin f args ty => do value .builtin ty (.ofNat f.code :: (← lowerExprs p args))
  | .swizzle e components ty => do
    let x ← lowerExpr p e
    value .swizzle ty (x :: components.map UInt32.ofNat)
  | .index e i ty =>
    if keepsPointer e then do
      let base ← lowerPlace p e
      load (← indexPlace base i (lowerExpr p i) ty)
    else do
      let x ← lowerExpr p e
      let n ← lowerExpr p i
      value .extract ty [x, n]

def lowerPlace (p : Program) : Typed.Expr → Lower Place
  | .var v ty => do
    let (ptr, storage) ← variableId v
    return .pointer ptr ty storage
  | .index e i ty => do
    let base ← lowerPlace p e
    indexPlace base i (lowerExpr p i) ty
  | .swizzle e components _ => do selectPlace (← lowerPlace p e) components
  | e => throw (.notWritable e.ty)

def lowerExprs (p : Program) : List Typed.Expr → Lower (List Id)
  | [] => return []
  | e :: es => do
    let x ← lowerExpr p e
    return x :: (← lowerExprs p es)

/-- Arguments by value or by pointer, and what is to be written back. -/
def lowerArgs (p : Program) : List Param → List Typed.Expr → Lower (List Id × List WriteBack)
  | q :: qs, e :: es => do
    let (x, ws) ← if q.passing == .in_ then do pure (← lowerExpr p e, [])
      else do passPlace q.passing e.ty (← lowerPlace p e)
    let (xs, ws') ← lowerArgs p qs es
    return (x :: xs, ws ++ ws')
  | _, _ => return ([], [])

end

end Shading.Lowering
