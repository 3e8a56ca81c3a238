import Shading.Proofs.Lowering.ExprWrites

/-! The code of well-typed statements writes only memory that may be written. Locals are declared on the
way, and their ids stay those of their declarations. -/
namespace Shading.Lowering
open List Bytecode Typed

def Directory.declare (d : Directory) (index : Nat) (id : Id) : Directory :=
  { d with frame := { d.frame with locals := (index, id) :: d.frame.locals } }

def declareLocal (index : Nat) (l : Local) : Lower Id := do
  let id ← localVariable l.ty
  addName id l.name
  modify fun s => { s with frame := { s.frame with locals := (index, id) :: s.frame.locals } }
  return id

section Bodies

variable {full : List Instruction} {I : Directory → Prop} {Γ : Env} {p : Program}
  {F : Id → List Param → Prop} {G : Prop}

theorem declareLocal_adds (i : Nat) (l : Local) : Adds (declareLocal i l) :=
  .bind (.localVariable _) fun _ => .bind (.addName _ _) fun _ =>
    .bind (.of_table fun _ => ⟨rfl,rfl,rfl,rfl,rfl,rfl,rfl,rfl⟩) fun _ => .of_pure

theorem declareLocal_keeps (opens : ∀ {d i x}, I d → Writable full x → I (d.declare i x)) (i : Nat)
    (l : Local) : Keeps full I F G (declareLocal i l) (Writable full) where
  adds := declareLocal_adds i l
  made {s a s'} ran documented known inside := by
    have more := declareLocal_adds i l s a s' ran
    obtain ⟨x,s₁,ranVariable,ran⟩ := Lower.run_bind_eq_ok.mp ran
    obtain ⟨_,s₂,ranName,ran⟩ := Lower.run_bind_eq_ok.mp ran
    obtain ⟨_,s₃,ranFrame,given⟩ := Lower.run_bind_eq_ok.mp ran
    cases given
    cases ranFrame
    have declared : Keeps full I F True (localVariable l.ty) (Writable full) := .localVariable l.ty
    have named := Adds.addName a l.name s₁ _ s₂ ranName
    obtain ⟨documented₁,known₁,b,code,kept⟩ := declared.made ranVariable documented known
      (Subset.trans named.written inside)
    obtain ⟨documented₂,known₂,b',code',rfl⟩ :=
      (addName_produces a l.name).made ranName documented₁ known₁ inside
    refine ⟨⟨more.described documented.toDescribed,documented₂.constants⟩,opens known₂ (kept trivial).2,b,?_,
      fun _ => kept trivial⟩
    simp [code',code,Block.code]

theorem lowerDeclare_eq (p : Program) (i : Nat) (init : Option Expr) : lowerDeclare p i init = (do
    match (← get).frame.declared[i]? with
    | none => throw (.unknownLocal i)
    | some l =>
      let id ← declareLocal i l
      match init with
      | none => pure ()
      | some e =>
        let v ← lowerExpr p e
        emit .store [id, v]) := by
  unfold lowerDeclare declareLocal
  refine bind_congr fun s => ?_
  cases s.frame.declared[i]? <;> cases init <;> simp [bind_assoc]

theorem Keeps.of_get {α : Type} {next : State → Lower α} {A : α → Prop}
    (kept : ∀ s, Keeps full I F G (next s) A) : Keeps full I F G (get >>= next) A :=
  Produces.of_get (fun s => (kept s).adds) fun s _ => kept s

/-- What is known where statements are written: locals may be declared on the way. -/
structure BodySetting (full : List Instruction) (I : Directory → Prop) (Γ : Env) (p : Program)
    (F : Id → List Param → Prop) : Prop extends Setting full I Γ p F where
  opens : ∀ {d i x}, I d → Writable full x → I (d.declare i x)
  initials : ∀ {d g r}, I d → g ∈ p.globals → g.init.isSome = true →
    d.globals.lookup g.name = some r → Writable full r.1

theorem lowerDeclare_keeps (setting : BodySetting full I Γ p F) (i : Nat) (init : Option Expr)
    (typed : G → ∀ x ∈ Stmt.optionParts init, x.WellTyped Γ) : Keeps full I F G (lowerDeclare p i init) := by
  rw [lowerDeclare_eq]
  refine .of_get fun s => ?_
  split
  · exact .of_throw
  · refine .bind (declareLocal_keeps setting.opens i _) fun id => ?_
    cases init with
    | none => exact .of_pure fun _ => trivial
    | some e =>
      exact .bind (lowerExpr_keeps setting.toSetting e fun given => typed given.1) fun _ =>
        .emit fun given => given.1.2

theorem lowerOption_keeps (setting : BodySetting full I Γ p F) (e : Option Expr)
    (typed : G → ∀ x ∈ Stmt.optionParts e, x.WellTyped Γ) : Keeps full I F G (match e with
      | some e => do let _ ← lowerExpr p e
      | none => pure ()) := by
  cases e with
  | none => exact .of_pure fun _ => trivial
  | some e => exact .bind (lowerExpr_keeps setting.toSetting e typed) fun _ => .of_pure fun _ => trivial

theorem Keeps.turns {tail : Bool} {body continuing : Lower Unit} (first : Keeps full I F G body)
    (second : Keeps full I F G continuing) : Keeps full I F G (turns tail body continuing) :=
  .bind (.steer (by simp) (by simp)) fun _ => .bind (first.weaken And.left) fun _ =>
    .bind (.steer (by simp) (by simp)) fun _ => .bind (second.weaken fun given => given.1.1.1) fun _ =>
      .steer (by simp) (by simp)

mutual

/-- The code of a statement of well-typed parts writes only what may be written. -/
theorem lowerStmt_keeps (setting : BodySetting full I Γ p F) : ∀ (s : Stmt),
    (G → ∀ x ∈ s.parts, x.WellTyped Γ) → Keeps full I F G (lowerStmt p s)
  | .expr e, typed => by
    rw [lowerStmt]
    exact .bind (lowerExpr_keeps setting.toSetting e typed) fun _ => .of_pure fun _ => trivial
  | .declare i init, typed => by
    rw [lowerStmt]
    exact lowerDeclare_keeps setting i init typed
  | .if_ c yes no, typed => by
    simp only [Stmt.parts,forall_mem_append,imp_and] at typed
    have first := lowerStmts_keep setting yes typed.1.2
    have second := lowerStmts_keep setting no typed.2
    rw [lowerStmt_if]
    refine .bind (lowerExpr_keeps setting.toSetting c typed.1.1) fun _ => ?_
    split
    · exact .branch (first.weaken And.left)
    · exact .choice (first.weaken And.left) (second.weaken And.left)
  | .loop false none _ _, _ => by
    rw [lowerStmt]
    exact .of_throw
  | .loop false (some c) step body, typed => by
    simp only [Stmt.parts,forall_mem_append,imp_and] at typed
    rw [lowerStmt_loopTail]
    exact .turns (lowerStmts_keep setting body typed.2)
      (.bind (lowerExpr_keeps setting.toSetting c typed.1.1) fun _ => .bind (.steer (by simp) (by simp)) fun _ =>
        .of_pure fun _ => trivial)
  | .loop true cond step body, typed => by
    simp only [Stmt.parts,forall_mem_append,imp_and] at typed
    have kept := lowerStmts_keep setting body typed.2
    rw [lowerStmt_loopHead]
    refine .turns ?_ (lowerOption_keeps setting step typed.1.2)
    cases cond with
    | none => exact kept
    | some c =>
      exact .bind (lowerExpr_keeps setting.toSetting c typed.1.1) fun _ =>
        .bind (.steer (by simp) (by simp)) fun _ => kept.weaken fun given => given.1.1
  | .break_, _ | .continue_, _ | .discard, _ | .return_ none, _ => by
    rw [lowerStmt]
    exact .steer (by simp) (by simp)
  | .return_ (some e), typed => by
    rw [lowerStmt]
    exact .bind (lowerExpr_keeps setting.toSetting e typed) fun _ => .steer (by simp) (by simp)
  | .block body, typed => by
    rw [lowerStmt]
    exact lowerStmts_keep setting body typed

theorem lowerStmts_keep (setting : BodySetting full I Γ p F) : ∀ (ss : List Stmt),
    (G → ∀ x ∈ Stmt.partsIn ss, x.WellTyped Γ) → Keeps full I F G (lowerStmts p ss)
  | [], _ => by
    rw [lowerStmts]
    exact .of_pure fun _ => trivial
  | s :: ss, typed => by
    simp only [Stmt.partsIn,forall_mem_append,imp_and] at typed
    rw [lowerStmts]
    exact .bind (lowerStmt_keeps setting s typed.1) fun _ =>
      (lowerStmts_keep setting ss typed.2).weaken And.left

end

theorem lowerInits_keep (setting : BodySetting full I Γ p F) (typed : G → ∀ x ∈ p.initParts, x.WellTyped Γ) :
    ∀ {gs : List Global}, gs ⊆ p.globals → Keeps full I F G (lowerInits p gs)
  | [], _ => by
    rw [lowerInits]
    exact .of_pure fun _ => trivial
  | g :: gs, among => by
    rw [cons_subset] at among
    have rest := lowerInits_keep setting typed among.2
    rw [lowerInits]
    split
    · split
      · rename_i e init
        refine .bind (.of_done (variableId_produces _) fun _ => id) fun r =>
          .bind (lowerExpr_keeps setting.toSetting e fun given x part => typed given.1 x ?_) fun v =>
            .bind (.emit fun given => ?_) fun _ => rest.weaken fun given => given.1.1.1
        · exact mem_flatMap.mpr ⟨g,among.1,Stmt.mem_optionParts.mpr ⟨e,init,part⟩⟩
        · obtain ⟨⟨-,d,known,found⟩,-⟩ := given
          exact setting.initials known among.1 (by simp [init]) found
      · exact rest
    · exact rest

theorem lowerBody_keeps (setting : BodySetting full I Γ p F) (f : Typed.Function) (body : List Stmt)
    (typed : G → ∀ x ∈ Stmt.partsIn body, x.WellTyped Γ) (typed' : G → ∀ x ∈ p.initParts, x.WellTyped Γ) :
    Keeps full I F G (lowerBody p f body) := by
  have main : Keeps full I F G (do
      lowerStmts p body
      let ended := (← get).code.back?.any fun i => i.op.isTerminator
      if !ended && f.returnTy.isVoid then emit .ret []) := by
    refine .bind (lowerStmts_keep setting body typed) fun _ => .of_get fun s => ?_
    dsimp only
    split
    · exact .steer (by simp) (by simp)
    · exact .of_pure fun _ => trivial
  unfold lowerBody
  split
  · exact .bind (lowerInits_keep setting typed' (Subset.refl _)) fun _ => main.weaken And.left
  · exact main

end Bodies

theorem nowhere (p : Program) : BodySetting [] (fun _ => False) ⟨fun _ => none, fun _ => none⟩ p fun _ _ => False where
  vars known := known.elim
  functions known := known.elim
  signatures known := nomatch known
  opens known := known.elim
  initials known := known.elim

namespace Adds

theorem lowerExpr (p : Program) (e : Expr) : Adds (lowerExpr p e) :=
  (lowerExpr_keeps (G := False) (nowhere p).toSetting e False.elim).adds

theorem lowerStmts (p : Program) (ss : List Stmt) : Adds (lowerStmts p ss) :=
  (lowerStmts_keep (G := False) (nowhere p) ss False.elim).adds

theorem lowerBody (p : Program) (f : Typed.Function) (body : List Stmt) : Adds (lowerBody p f body) :=
  (lowerBody_keeps (G := False) (nowhere p) f body False.elim False.elim).adds

end Adds

end Shading.Lowering
