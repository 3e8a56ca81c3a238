import Shading.Typed.Evaluation
import Shading.Typed.Fault

/-! The rules that make one typed expression out of others: conversion to float, operators,
constructors and swizzles. -/
namespace Shading.Typed

def converts (found wanted : Ty) : Bool :=
  found.isInteger && wanted.isOf .float && found.vectorSize? == wanted.vectorSize?

namespace Expr

/-- An integer as a float, a literal as a literal; other values stay. -/
def toFloat (e : Expr) : Expr :=
  if e.ty.isInteger then
    match e.const? with
    | some c => .const (c.cast .float)
    | none =>
      match e.ty.withKind? .float with
      | some t => .construct [e] t
      | none => e
  else e

def coerce? (e : Expr) (wanted : Ty) : Option Expr :=
  if e.ty = wanted then some e else if converts e.ty wanted then some e.toFloat else none

end Expr

/-- Two operands, the integer one converted if the other is of floats. -/
def unify (l r : Expr) : Expr × Expr :=
  let floats (e : Expr) := e.ty.kind? == some .float
  if floats l && r.ty.isInteger then (l, r.toFloat)
  else if l.ty.isInteger && floats r then (l.toFloat, r)
  else (l, r)

/-- Operators on integers and booleans convert nothing. -/
def makeBinary (op : BinaryOp) (l r : Expr) : Except Cause Expr :=
  let (l, r) := if op.isIntegerOnly || op.isLogical then (l, r) else unify l r
  match op.resultTy? l.ty r.ty with
  | some t => .ok (.binary op l r t)
  | none => .error (.binaryOperands op l.ty r.ty)

def unaryAccepts (op : UnaryOp) (t : Ty) : Bool :=
  match op with
  | .neg => t.isNumeric
  | .not => t == .bool
  | .bitNot => t.isInteger

def makeUnary (op : UnaryOp) (e : Expr) : Except Cause Expr :=
  if unaryAccepts op e.ty then .ok (.unary op e) else .error (.unaryOperand op e.ty)

/-- Both branches have one type, which has values. -/
def makeSelect (cond yes no : Expr) : Except Cause Expr :=
  let (yes, no) := unify yes no
  if yes.ty = no.ty ∧ !yes.ty.isVoid then .ok (.select cond yes no)
  else .error (.ternaryOperands yes.ty no.ty)

/-- The value that an assignment stores. -/
def assigned (op : Option BinaryOp) (target value : Expr) : Except Cause Expr :=
  match op with
  | none =>
    match value.coerce? target.ty with
    | some v => .ok v
    | none => .error (.cannotConvert "assign" value.ty target.ty)
  | some op =>
    let v := if target.ty.kind? = some .float then value.toFloat else value
    if op.resultTy? target.ty v.ty = some target.ty then .ok v
    else .error (.cannotConvert (op.symbol ++ "=") v.ty target.ty)

/-- Whether the components of the arguments fill the needed number; every argument starts below it. -/
def checkFit (ty : Ty) (needed : Nat) (exact_ : Bool) : Nat → List Expr → Except Cause Unit
  | total, [] =>
    if total < needed then .error (.notEnoughData ty)
    else if exact_ ∧ needed < total then .error (.tooManyArguments ty)
    else .ok ()
  | total, e :: es =>
    if needed ≤ total then .error (.tooManyArguments ty)
    else checkFit ty needed exact_ (total + e.ty.components) es

/-- A value of a type from its components, or from one value that is converted or repeated. -/
def makeConstruct (ty : Ty) (args : List Expr) : Except Cause Expr := do
  if ty.isVoid || ty.isSampler then throw (.notConstructible ty)
  if args.isEmpty then throw (.noArguments ty)
  if let some bad := args.find? fun e => e.ty.components == 0 then
    throw (.opaqueArgument ty bad.ty)
  match ty, args with
  | .scalar _, [_] => pure ()
  | .scalar _, _ => throw (.tooManyArguments ty)
  | .vector _ n, _ =>
    match args with
    | [e] => if !e.ty.isScalar then checkFit ty n false 0 args
    | _ => checkFit ty n false 0 args
  | .matrix c r, _ =>
    match args with
    | [e] => if !(e.ty.isScalar || e.ty.isMatrix) then checkFit ty (c * r) true 0 args
    | _ =>
      if args.any fun e => e.ty.isMatrix then throw (.matrixOfMatrices ty)
      checkFit ty (c * r) true 0 args
  | _, _ => throw (.notConstructible ty)
  return .construct args ty

def componentNames : List (List Char) := ["xyzw".toList, "rgba".toList, "stpq".toList]

/-- The components that a field names, all of one family. -/
def selectors (field : String) (size : Nat) (family : List Char) :
    List Char → Except Cause (List Nat)
  | [] => .ok []
  | c :: cs =>
    match family.idxOf? c with
    | none => .error (.illegalField field)
    | some i =>
      if size ≤ i then .error (.fieldOutOfRange field)
      else (selectors field size family cs).map (i :: ·)

def makeSwizzle (base : Expr) (field : String) : Except Cause Expr :=
  match base.ty with
  | .vector kind size =>
    match field.toList.head?.bind fun c => componentNames.find? fun family => family.contains c with
    | none => .error (.illegalField field)
    | some family =>
      if 4 < field.utf8ByteSize then .error (.illegalField field)
      else (selectors field size family field.toList).map fun cs =>
        .swizzle base cs (Ty.ofSize kind cs.length)
  | _ => .error (.fieldOfNoVector field)

def makeIndex (base position : Expr) : Except Cause Expr :=
  if position.ty = .int ∨ position.ty = .uint then
    match base.ty.element?, base.ty.indexBound? with
    | some t, some bound =>
      match position.eval?.bind Const.integer? with
      | some n => if n < 0 ∨ (bound : Int) ≤ n then .error (.indexOutOfRange n)
        else .ok (.index base position t)
      | none => .ok (.index base position t)
    | _, _ => .error (.notIndexable base.ty)
  else .error .indexNotInteger

end Shading.Typed
