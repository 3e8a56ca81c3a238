import Shading.Bytecode.Validity
import Shading.Diagnostic
import Shading.Linked.CallGraph
import Shading.Lowering.Expr

/-! Instructions for statements, functions and whole programs. -/
namespace Shading.Lowering
open Bytecode Typed

def lowerDeclare (p : Program) (index : Nat) (init : Option Typed.Expr) : Lower Unit := do
  match (← get).frame.declared[index]? with
  | none => throw (.unknownLocal index)
  | some l =>
    let id ← localVariable l.ty
    addName id l.name
    modify fun s => { s with frame := { s.frame with locals := (index, id) :: s.frame.locals } }
    if let some e := init then
      let v ← lowerExpr p e
      emit .store [id, v]

mutual

def lowerStmt (p : Program) : Stmt → Lower Unit
  | .expr e => do let _ ← lowerExpr p e
  | .declare i init => lowerDeclare p i init
  | .if_ c yes no => do
    let c ← lowerExpr p c
    emit .ifThen [c]
    lowerStmts p yes
    if !no.isEmpty then
      emit .orElse []
      lowerStmts p no
    emit .endIf []
  | .loop true cond step body => do
    emit .loop [0]
    if let some c := cond then
      let c ← lowerExpr p c
      emit .loopCondition [c]
    lowerStmts p body
    emit .loopContinue []
    if let some e := step then
      let _ ← lowerExpr p e
    emit .endLoop []
  | .loop false none _ _ => throw .tailWithoutCondition
  | .loop false (some c) _ body => do
    emit .loop [1]
    lowerStmts p body
    emit .loopContinue []
    let c ← lowerExpr p c
    emit .loopCondition [c]
    emit .endLoop []
  | .break_ => emit .breakLoop []
  | .continue_ => emit .continueLoop []
  | .return_ none => emit .ret []
  | .return_ (some e) => do
    let v ← lowerExpr p e
    emit .retValue [v]
  | .discard => emit .kill []
  | .block body => lowerStmts p body

def lowerStmts (p : Program) : List Stmt → Lower Unit
  | [] => return
  | s :: ss => do
    lowerStmt p s
    lowerStmts p ss

end

def storageClass : Storage → StorageClass
  | .uniform => .uniform
  | .input => .input
  | .output => .output
  | .priv => .priv

def globalDecorations (g : Global) : List (Decoration × Nat) :=
  (g.location.map fun n => (.location, n)).toList ++ (g.binding.map fun n => (.binding, n)).toList ++
    (g.builtin.map fun v => (.builtin, v.code)).toList ++
    (g.interpolation.map fun i => (.interpolation, i.code)).toList ++
    if g.invariant then [(.invariant, 1)] else []

def lowerGlobal (g : Global) : Lower Unit := do
  let storage := storageClass g.storage
  let ptr ← pointerId storage (← tyId g.ty)
  let id ← fresh
  declare .var [ptr, id, .ofNat storage.code]
  addName id g.name
  (globalDecorations g).forM fun (d, n) => decorate id d n
  modify fun s => { s with globals := (g.name, id, storage) :: s.globals }

/-- Stores the initial values of globals. -/
def lowerInits (p : Program) : List Global → Lower Unit
  | [] => return
  | g :: gs => do
    if g.builtin.isNone then
      if let some e := g.init then
        let (ptr, _) ← variableId (.global g.name)
        let v ← lowerExpr p e
        emit .store [ptr, v]
    lowerInits p gs

def paramMode (q : Param) : ParamMode :=
  match q.passing with
  | .in_ => if q.readOnly then .constIn else .in_
  | .out => .out
  | .inout => .inout

def lowerParams : List Param → List Id → Lower (List Id)
  | q :: qs, ptr :: ptrs => do
    let id ← fresh
    emit .functionParameter [ptr, id, .ofNat (paramMode q).code]
    addName id q.name
    return id :: (← lowerParams qs ptrs)
  | _, _ => return []

/-- The entry point begins with the initial values of all globals. A function that falls off its end
returns. -/
def lowerBody (p : Program) (f : Typed.Function) (body : List Stmt) : Lower Unit := do
  if f.isEntry then lowerInits p p.globals
  lowerStmts p body
  let ended := (← get).code.back?.any fun i => i.op.isTerminator
  if !ended && f.returnTy.isVoid then emit .ret []

def lowerFunction (p : Program) (f : Typed.Function) : Lower Unit := do
  match f.body with
  | none => return
  | some body =>
    let id ← functionId f.signature
    let returnTy ← tyId f.returnTy
    let paramTys ← f.params.mapM fun q => do pointerId .function (← tyId q.ty)
    let ty ← functionTyId (returnTy :: paramTys)
    emit .function [returnTy, id, ty]
    let params ← lowerParams f.params paramTys
    modify fun s => { s with frame := { declared := f.locals, params } }
    lowerBody p f body
    emit .functionEnd []
    modify fun s => { s with frame := {} }

def nameFunction (f : Typed.Function) : Lower Unit := do
  let id ← fresh
  modify fun s => { s with functions := (f.signature, id) :: s.functions }
  addName id f.name

/-- The lines about a program that its module begins with. -/
def aboutProgram (p : Program) (entry : Id) : List Instruction :=
  [⟨.source, [.ofNat p.version, if p.es then 1 else 0]⟩, ⟨.entryPoint, [entry]⟩] ++
    (p.localSize.map fun g =>
      (⟨.localSize, [.ofNat g.x, .ofNat g.y, .ofNat g.z]⟩ : Instruction)).toList

def lowerProgram (p : Program) : Lower Module := do
  match p.entry? with
  | none => throw .noEntry
  | some entry =>
    let order := Linked.calleesFirst p
    order.forM nameFunction
    p.globals.forM lowerGlobal
    order.forM (lowerFunction p)
    let id ← functionId entry.signature
    let s ← get
    let code := aboutProgram p id ++ s.names.toList ++ s.decorations.toList ++
      s.decls.toList ++ s.code.toList
    match Module.assemble (.new p.stage s.nextId) code with
    | .ok m => return m
    | .error f => throw (.encoding f)

/-- A module of which nothing bad can be said. -/
def lower (p : Program) : Reporting Fault Module := do
  match (lowerProgram p).run' {} with
  | .error f => throw f
  | .ok m =>
    match m.findings.head? with
    | some f => throw (.invalid f.text)
    | none =>
      Reporting.note .debug ("lowered " ++ p.file ++ " (" ++ p.stage.name ++ ") to " ++
        toString m.words.length ++ " words")
      return m

end Shading.Lowering
