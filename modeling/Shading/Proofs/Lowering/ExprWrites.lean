import Shading.Proofs.Lowering.Production

/-! The code of a well-typed expression writes only memory that may be written. -/
namespace Shading.Bytecode

/-- The id leads to memory that may be written: to a variable or a parameter that is not read-only, or to a
part of one. -/
inductive Writable (code : List Instruction) : Id → Prop where
  | var {p x w : Id} {storage : StorageClass} : ⟨.var, [p, x, w]⟩ ∈ code →
      StorageClass.ofCode? w.toNat = some storage → storage ≠ .uniform → storage ≠ .input → Writable code x
  | param {p x w : Id} {mode : ParamMode} : ⟨.functionParameter, [p, x, w]⟩ ∈ code →
      ParamMode.ofCode? w.toNat = some mode → mode ≠ .constIn → Writable code x
  | part {p x base : Id} {indices : List Id} : ⟨.accessChain, p :: x :: base :: indices⟩ ∈ code →
      Writable code base → Writable code x

/-- What a call gets for parameters may be written where the call writes. -/
def Accepts (code : List Instruction) (params : List Typed.Param) (args : List Id) : Prop :=
  List.Forall₂ (fun q x => q.passing ≠ .in_ → Writable code x) params args

/-- The instruction writes only what may be written, where `params` tells the parameters of functions. -/
def Instruction.Respects (code : List Instruction) (params : Id → List Typed.Param → Prop)
    (i : Instruction) : Prop :=
  match i.op, i.operands with
  | .store, [ptr, _] => Writable code ptr
  | .store, _ => False
  | .call, _ :: _ :: f :: args => ∃ qs, params f qs ∧ Accepts code qs args
  | .call, _ => False
  | _, _ => True

theorem Instruction.respects {code : List Instruction} {params : Id → List Typed.Param → Prop}
    {i : Instruction} (store : i.op ≠ .store) (call : i.op ≠ .call) : i.Respects code params := by
  unfold Respects
  split <;> simp_all

end Shading.Bytecode

namespace Shading.Lowering
open List Bytecode Typed

variable {P : Instruction → Prop}

theorem forall_mem_one {i : Instruction} : (∀ j ∈ (Block.one i).code, P j) ↔ P i := by
  simp [Block.one,Block.code]

theorem forall_mem_code_append {a b : Block} :
    (∀ i ∈ (a ++ b).code, P i) ↔ (∀ i ∈ a.code, P i) ∧ ∀ i ∈ b.code, P i := by
  rw [Block.code_append,forall_mem_append]

/-- If `G` holds, the work writes only what may be written, and `A` holds of what it gives. -/
def Keeps {α : Type} (full : List Instruction) (I : Directory → Prop) (F : Id → List Param → Prop)
    (G : Prop) (work : Lower α) (A : α → Prop := fun _ => True) : Prop :=
  Produces full I work fun b a => G → (∀ i ∈ b.code, i.Respects full F) ∧ A a

section Work

variable {α β : Type} {full : List Instruction} {I : Directory → Prop} {F : Id → List Param → Prop}
  {G : Prop} {work : Lower α} {A : α → Prop}

namespace Keeps

variable {c : Id} {op : Opcode} {operands : List UInt32} {ty : Ty} {yes : Lower Unit}

theorem of_pure {a : α} (given : G → A a) : Keeps full I F G (pure a) A :=
  Produces.of_pure fun known => ⟨by simp [Block.code],given known⟩

theorem of_throw {e : Fault} : Keeps full I F G (throw e) A := Produces.of_throw

theorem bind {next : α → Lower β} {B : β → Prop} (first : Keeps full I F G work A)
    (second : ∀ a, Keeps full I F (G ∧ A a) (next a) B) : Keeps full I F G (work >>= next) B := by
  refine Produces.bind first fun a => (second a).imp ?_
  intro b' c rest b start known
  obtain ⟨code,given⟩ := start known
  obtain ⟨code',given'⟩ := rest ⟨known,given⟩
  exact ⟨forall_mem_code_append.mpr ⟨code,code'⟩,given'⟩

theorem of_done {S : α → Prop} (made : Produces full I work fun b a => b = .done ∧ S a)
    (given : ∀ a, S a → A a) : Keeps full I F G work A := by
  refine made.imp ?_
  rintro b a ⟨rfl,holds⟩ -
  exact ⟨by simp [Block.code],given a holds⟩

theorem emit (respects : G → (⟨op, operands⟩ : Instruction).Respects full F) :
    Keeps full I F G (emit op operands) := by
  refine (emit_produces op operands).imp ?_
  rintro _ - ⟨rfl,-⟩ known
  exact ⟨forall_mem_one.mpr (respects known),trivial⟩

theorem steer (store : op ≠ .store) (call : op ≠ .call) :
    Keeps full I F G (Lowering.emit op operands) :=
  .emit fun _ => Instruction.respects store call

theorem value (respects : G → ∀ t x, (⟨op, t :: x :: operands⟩ : Instruction).Respects full F) :
    Keeps full I F G (value op ty operands) := by
  refine (value_produces op ty operands).imp ?_
  rintro _ x ⟨t,-,-,rfl⟩ known
  exact ⟨forall_mem_one.mpr (respects known t x),trivial⟩

theorem compute (store : op ≠ .store) (call : op ≠ .call) :
    Keeps full I F G (Lowering.value op ty operands) :=
  .value fun _ _ _ => Instruction.respects store call

theorem constantId (c : Const) : Keeps full I F G (constantId c) :=
  .of_done (constantId_produces c) fun _ _ => trivial

theorem localVariable (ty : Ty) : Keeps full I F G (localVariable ty) (Writable full) := by
  refine (localVariable_produces ty).imp ?_
  rintro _ x ⟨ptr,-,here,rfl⟩ -
  exact ⟨forall_mem_one.mpr (Instruction.respects (by simp) (by simp)),.var here rfl (by simp) (by simp)⟩

theorem accessChain (storage : StorageClass) (ty : Ty) (base index : Id) :
    Keeps full I F G (accessChain storage ty base index) fun x => Writable full base → Writable full x := by
  refine (accessChain_produces storage ty base index).imp ?_
  rintro _ x ⟨ptr,-,here,rfl⟩ -
  exact ⟨forall_mem_one.mpr (Instruction.respects (by simp) (by simp)),.part here⟩

theorem weaken {G' : Prop} (kept : Keeps full I F G' work A) (known : G → G') : Keeps full I F G work A :=
  kept.imp fun _ _ made given => made (known given)

theorem branch (first : Keeps full I F G yes) : Keeps full I F G (branch c yes) :=
  .bind (.steer (by simp) (by simp)) fun _ => .bind (first.weaken And.left) fun _ => .steer (by simp) (by simp)

theorem choice {no : Lower Unit} (first : Keeps full I F G yes) (second : Keeps full I F G no) :
    Keeps full I F G (choice c yes no) :=
  .bind (.steer (by simp) (by simp)) fun _ => .bind (first.weaken And.left) fun _ =>
    .bind (.steer (by simp) (by simp)) fun _ => .bind (second.weaken fun given => given.1.1.1) fun _ =>
      .steer (by simp) (by simp)

end Keeps

end Work

/-- What is known where an expression is written: what the ids of variables and functions lead to. -/
structure Setting (full : List Instruction) (I : Directory → Prop) (Γ : Env) (p : Program)
    (F : Id → List Param → Prop) : Prop where
  vars : ∀ {d v ptr storage t}, I d → d.var? v = some (ptr, storage) → Γ.var? v = some (t, .plain) →
    Writable full ptr
  functions : ∀ {d signature f callee}, I d → d.functions.lookup signature = some f →
    p.function? signature = some callee → F f callee.params
  signatures : ∀ {signature params t callee args}, Γ.function? signature = some (params, t) →
    p.function? signature = some callee → Expr.Passes Γ params args →
      Forall₂ (fun q e => q.passing ≠ .in_ → e.Writable Γ) callee.params args

section Expressions

variable {full : List Instruction} {I : Directory → Prop} {Γ : Env} {p : Program}
  {F : Id → List Param → Prop} {G : Prop}

/-- What is written may be written. -/
def writes (setting : Setting full I Γ p F) : Calculus p Γ where
  World := Unit
  Holds G work Q := Keeps full I F (G ()) work (Q · ())
  Checked := True
  Total := False
  checked := False.elim
  functions := False.elim
  passes _ := setting.signatures
  Mentions _ _ := True
  Reads _ _ := True
  Writes x _ := Writable full x
  mentions _ := trivial
  reads _ := trivial
  Has _ _ := True
  Calls callee f _ := F f callee.params
  of_pure given := .of_pure (given ())
  of_throw _ := .of_throw
  of_bind := .bind
  imp h le weaker := Produces.imp h fun _ _ made given =>
    ⟨(made (le () given)).1, weaker _ () given (made (le () given)).2⟩
  of_constant := .constantId
  of_compute computes _ := .compute (by cases computes <;> simp) (by cases computes <;> simp)
  of_load _ := .compute (by simp) (by simp)
  of_store known := .emit fun given => (known () given).1
  of_local := .localVariable
  of_access _ := (Keeps.accessChain _ _ _ _).imp fun _ _ made given => ⟨(made given).1, trivial, (made given).2⟩
  of_branch _ := .branch
  of_choice _ := .choice
  of_variable _ := .of_done (variableId_produces _) fun _ found => by
    obtain ⟨d, inside, found⟩ := found
    exact ⟨trivial, fun writable => (writable trivial).elim fun _ => setting.vars inside found⟩
  of_function _ known := .of_done (functionId_produces _) fun _ found => by
    obtain ⟨d, inside, found⟩ := found
    exact setting.functions inside found known
  of_call known := .value fun given _ _ => ⟨_, (known () given).1, (known () given).2.2 trivial⟩

/-- The code of an expression of well-typed parts writes only what may be written. -/
theorem lowerExpr_keeps (setting : Setting full I Γ p F) (e : Expr)
    (typed : G → ∀ x ∈ e.parts, x.WellTyped Γ) : Keeps full I F G (lowerExpr p e) :=
  Calculus.lowerExpr_holds (L := writes setting) (G := fun _ => G) e fun _ given x part =>
    ⟨fun _ => typed given x part,False.elim,trivial⟩

end Expressions

end Shading.Lowering
