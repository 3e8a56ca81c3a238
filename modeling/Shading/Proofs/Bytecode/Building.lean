import Shading.Proofs.Bytecode.Definitions
import Shading.Proofs.Bytecode.Encoding

/-! What each instruction has to keep to when code is written one instruction after the other: its operands
are there and are of the right kinds, a call names a function that was written before, and jumps stand in
loops. Structured code that keeps to this is valid. -/
namespace Shading.Bytecode
open List Pass Block Instruction

def Defines (code : List Instruction) (test : Opcode → Bool) (id : Id) : Prop :=
  ∃ i ∈ code, i.result? = some id ∧ test i.op = true

namespace Defines

variable {code code' : List Instruction} {test test' : Opcode → Bool} {id : Id}

section

variable (defined : Defines code test id)
include defined

theorem mono (le : code ⊆ code') : Defines code' test id :=
  let ⟨i,mem,result,op⟩ := defined
  ⟨i,le mem,result,op⟩

theorem imp (weaker : ∀ op, test op = true → test' op = true) : Defines code test' id :=
  let ⟨i,mem,result,op⟩ := defined
  ⟨i,mem,result,weaker _ op⟩

theorem mem_results : id ∈ results code :=
  let ⟨i,mem,result,_⟩ := defined
  Bytecode.mem_results.mpr ⟨i,mem,result⟩

end

theorem any_kindOf (unique : (results code).Nodup) (defined : Defines code test id) :
    (kindOf code id).any test = true := by
  obtain ⟨i,mem,result,op⟩ := defined
  rw [kindOf_of_mem unique mem result]
  exact op

theorem kindOf_eq {op : Opcode} (unique : (results code).Nodup) (defined : Defines code (· == op) id) :
    kindOf code id = some op := by
  obtain ⟨i,mem,result,same⟩ := defined
  rw [kindOf_of_mem unique mem result,(beq_iff_eq.mp same)]

end Defines

namespace Instruction

/-- The operands at which something is stored, read or called are of the right kind. -/
def Reaches (code : List Instruction) (inFunction : Bool) (i : Instruction) : Prop :=
  match i.op with
  | .var => ∃ c, i.storage? = some c ∧ (inFunction = true ↔ c = .function)
  | .load | .accessChain => Defines code Opcode.isPointer (i.operand 2)
  | .store => Defines code Opcode.isPointer (i.operand 0)
  | .call => Defines code (· == .function) (i.operand 2)
  | _ => True

/-- All operands are there, and of the right kinds by what the code defines. -/
structure Takes (code : List Instruction) (inFunction : Bool) (i : Instruction) : Prop where
  full : i.Full
  typed : ∀ t ∈ i.resultType?, Defines code Opcode.isType t ∧
    (i.op.isPointer = true → Defines code (· == .typePointer) t)
  reaches : i.Reaches code inFunction

variable {code code' : List Instruction} {inFunction : Bool} {i : Instruction}

theorem Reaches.mono (reaches : i.Reaches code inFunction) (le : code ⊆ code') :
    i.Reaches code' inFunction := by
  revert reaches
  unfold Reaches
  split <;> first | exact id | exact fun defined => defined.mono le

theorem Takes.mono (takes : i.Takes code inFunction) (le : code ⊆ code') : i.Takes code' inFunction where
  full := takes.full
  typed t ofType := ⟨(takes.typed t ofType).1.mono le,fun pointer => ((takes.typed t ofType).2 pointer).mono le⟩
  reaches := takes.reaches.mono le

theorem Takes.fits (unique : (results code).Nodup) (takes : i.Takes code inFunction) :
    i.Fits (kindOf code) inFunction := by
  refine ⟨fun t ofType => ⟨(takes.typed t ofType).1.any_kindOf unique,
    fun pointer => ((takes.typed t ofType).2 pointer).kindOf_eq unique⟩,?_⟩
  have reaches := takes.reaches
  grind [Reaches,Defines.any_kindOf,Defines.kindOf_eq]

theorem takes_of_isType {op : Opcode} {operands : List UInt32} (type : op.isType = true)
    (full : op.minOperands ≤ operands.length) : (⟨op, operands⟩ : Instruction).Takes code inFunction := by
  refine ⟨full,?_,?_⟩
  · cases op <;> first | exact absurd type Bool.false_ne_true | simp [resultType?,Opcode.hasResultType]
  · cases op <;> first | exact absurd type Bool.false_ne_true | trivial

theorem Takes.callee? (takes : i.Takes code inFunction) {f : Id} (calls : i.callee? = some f) :
    Defines code (· == .function) f := by
  unfold Instruction.callee? at calls
  split at calls
  · rename_i call
    have reaches := takes.reaches
    rw [Reaches,call,operand_eq,getD_eq_getElem?_getD,calls] at reaches
    exact reaches
  · cases calls

end Instruction

def Called : List Id → List Instruction → Prop
  | _, [] => True
  | defined, i :: rest =>
    (∀ f ∈ i.callee?, f ∈ defined) ∧ Called (i.result?.toList ++ defined) rest

theorem Called.mono {code : List Instruction} {defined wider : List Id} (called : Called defined code)
    (le : defined ⊆ wider) : Called wider code := by
  induction code generalizing defined wider with
  | nil => trivial
  | cons i code ih =>
    refine ⟨fun f calls => le (called.1 f calls),ih called.2 ?_⟩
    exact append_subset.mpr ⟨subset_append_left _ _,Subset.trans le (subset_append_right _ _)⟩

theorem called_append {a b : List Instruction} {defined : List Id} :
    Called defined (a ++ b) ↔ Called defined a ∧ Called (results a ++ defined) b := by
  induction a generalizing defined with
  | nil => simp [Called,results]
  | cons i a ih =>
    have same : Called (results a ++ (i.result?.toList ++ defined)) b ↔
        Called (results (i :: a) ++ defined) b := by
      rw [results_cons]
      constructor <;> intro called <;> refine called.mono fun x => ?_ <;> grind
    rw [cons_append,Called,ih,same,Called,and_assoc]

theorem Block.Scoped.ordered {b : Block} {visible defined : List Id} (inside : b.Scoped visible)
    (le : visible ⊆ defined) (called : Called defined b.code) : Ordered defined b.code := by
  have silent (i : Instruction) (defined : List Id) (none : i.references = []) :
      i.op.isNote = false → i.references ⊆ defined := by simp [none]
  have condition {c : Id} {defined : List Id} (seen : c ∈ defined) :
      (⟨.ifThen,[c]⟩ : Instruction).references ⊆ defined := by
    simpa [references,refersAt] using seen
  induction b generalizing visible defined with
  | done => trivial
  | plain i b ih =>
    refine ⟨fun _ x refers => ?_,ih inside.2 ?_ called.2⟩
    · rcases mem_references_iff.mp refers with mentioned | calls
      · exact le (inside.1 mentioned)
      · exact called.1 x calls
    · exact append_subset.mpr ⟨subset_append_left _ _,Subset.trans le (subset_append_right _ _)⟩
  | ifThen c yes b ihYes ih =>
    simp only [code,cons_append] at called ⊢
    obtain ⟨-,called⟩ := called
    obtain ⟨calledYes,-,calledRest⟩ := called_append.mp called
    refine ⟨fun _ => condition (le inside.1),ordered_append.mpr ⟨ihYes inside.2.1 le calledYes,
      silent _ _ rfl,ih inside.2.2 ?_ calledRest⟩⟩
    exact Subset.trans le (subset_append_right _ _)
  | ifElse c yes no b ihYes ihNo ih =>
    simp only [code,cons_append,List.append_assoc] at called ⊢
    obtain ⟨-,called⟩ := called
    obtain ⟨calledYes,-,called⟩ := called_append.mp called
    obtain ⟨calledNo,-,calledRest⟩ := called_append.mp called
    have wider := Subset.trans le (subset_append_right (results yes.code) defined)
    refine ⟨fun _ => condition (le inside.1),ordered_append.mpr ⟨ihYes inside.2.1 le calledYes,
      silent _ _ rfl,ordered_append.mpr ⟨ihNo inside.2.2.1 wider calledNo,
        silent _ _ rfl,ih inside.2.2.2 ?_ calledRest⟩⟩⟩
    exact Subset.trans wider (subset_append_right _ _)
  | loop t body continuing b ihBody ihContinuing ih =>
    simp only [code,cons_append,List.append_assoc] at called ⊢
    obtain ⟨-,called⟩ := called
    obtain ⟨calledBody,-,called⟩ := called_append.mp called
    obtain ⟨calledContinuing,-,calledRest⟩ := called_append.mp called
    have wider := Subset.trans le (subset_append_right (results body.code) defined)
    refine ⟨silent _ _ rfl,ordered_append.mpr ⟨ihBody inside.1 le calledBody,
      silent _ _ rfl,ordered_append.mpr ⟨ihContinuing inside.2.1 wider calledContinuing,
        silent _ _ rfl,ih inside.2.2 ?_ calledRest⟩⟩⟩
    exact Subset.trans wider (subset_append_right _ _)

/-- How many loops are open after some code, if jumps stand in loops. -/
def loopsAfter : Nat → List Instruction → Option Nat
  | open_, [] => some open_
  | open_, i :: rest =>
    match i.op, open_ with
    | .loop, _ => loopsAfter (open_ + 1) rest
    | .endLoop, open_ + 1 => loopsAfter open_ rest
    | .endLoop, 0 | .breakLoop, 0 | .continueLoop, 0 => none
    | _, _ => loopsAfter open_ rest

theorem loopsAfter_append (a b : List Instruction) (open_ : Nat) :
    loopsAfter open_ (a ++ b) = (loopsAfter open_ a).bind fun n => loopsAfter n b := by
  fun_induction loopsAfter open_ a <;> simp_all [loopsAfter]

theorem loopsAfter_plain {i : Instruction} (plain : i.op.isPlain = true) (rest : List Instruction)
    (open_ n : Nat) : loopsAfter open_ (i :: rest) = some n ↔
      (i.op = .breakLoop ∨ i.op = .continueLoop → 0 < open_) ∧ loopsAfter open_ rest = some n := by
  obtain ⟨op,operands⟩ := i
  cases op <;> simp only [Opcode.isPlain,Bool.false_eq_true] at plain
  all_goals cases open_ <;> simp [loopsAfter]

theorem loopsAfter_block {b : Block} {tests : Bool} (proper : b.Proper tests)
    {rest : List Instruction} {open_ n : Nat} : loopsAfter open_ (b.code ++ rest) = some n ↔
      b.Jumps (decide (0 < open_)) ∧ loopsAfter open_ rest = some n := by
  induction b generalizing tests rest open_ with
  | done => simp [code,Jumps]
  | plain i b ih =>
    rw [code,cons_append,loopsAfter_plain proper.1,ih proper.2.2,Jumps]
    simp [and_assoc]
  | ifThen c yes b ihYes ih =>
    simp only [code,cons_append,List.append_assoc,loopsAfter,ihYes proper.1,
      ih proper.2,Jumps,and_assoc]
  | ifElse c yes no b ihYes ihNo ih =>
    simp only [code,cons_append,List.append_assoc,loopsAfter,ihYes proper.1,
      ihNo proper.2.1,ih proper.2.2,Jumps,and_assoc]
  | loop t body continuing b ihBody ihContinuing ih =>
    simp only [code,cons_append,List.append_assoc,loopsAfter,ihBody proper.1,
      ihContinuing proper.2.1,ih proper.2.2,Jumps,and_assoc,Nat.zero_lt_succ,decide_true]

theorem ordered_routines {known : List Id} : ∀ {rs : List Routine} {defined : List Id},
    (∀ r ∈ rs, ∀ i ∈ r.head :: r.params, i.references ⊆ known) →
      (∀ r ∈ rs, r.body.Scoped (results r.params ++ known)) → known ⊆ defined →
        Called defined (rs.flatMap Routine.code) → Ordered defined (rs.flatMap Routine.code)
  | [], _, _, _, _, _ => trivial
  | r :: rs, defined, heads, inside, le, called => by
    rw [forall_mem_cons] at heads inside
    obtain ⟨first,heads⟩ := heads
    rw [flatMap_cons,called_append] at called
    rw [flatMap_cons,ordered_append]
    have wider : known ⊆ results r.code ++ defined :=
      Subset.trans le (subset_append_right _ _)
    refine ⟨?_,ordered_routines heads inside.2 wider called.2⟩
    have opened : Ordered defined (r.head :: r.params) :=
      .of_closed fun i mem _ => Subset.trans (first i mem) le
    have split : r.code = (r.head :: r.params) ++ (r.body.code ++ [⟨.functionEnd,[]⟩]) := by
      simp [Routine.code]
    rw [split] at called ⊢
    obtain ⟨-,calledBody⟩ := called_append.mp called.1
    refine ordered_append.mpr ⟨opened,ordered_append.mpr ⟨?_,.of_closed (by simp [references])⟩⟩
    grind [Scoped.ordered,called_append,append_subset,results_cons]

theorem loopsAfter_params {params rest : List Instruction} {open_ : Nat}
    (shaped : ∀ i ∈ params, i.op = .functionParameter) :
    loopsAfter open_ (params ++ rest) = loopsAfter open_ rest := by
  induction params with
  | nil => rfl
  | cons i params ih =>
    rw [forall_mem_cons] at shaped
    obtain ⟨op,operands⟩ := i
    obtain rfl : op = .functionParameter := shaped.1
    exact ih shaped.2

theorem jumps_routines : ∀ {rs : List Routine}, (∀ r ∈ rs, r.Shaped) →
    loopsAfter 0 (rs.flatMap Routine.code) = some 0 → ∀ r ∈ rs, r.body.Jumps false
  | [], _, _ => by simp
  | r :: rs, shaped, looped => by
    rw [forall_mem_cons] at shaped ⊢
    have split : (r :: rs).flatMap Routine.code =
        r.head :: (r.params ++ (r.body.code ++ ⟨.functionEnd,[]⟩ :: rs.flatMap Routine.code)) := by
      simp [Routine.code]
    obtain ⟨⟨op,operands⟩,params,body⟩ := r
    obtain rfl : op = .function := shaped.1.head
    rw [split] at looped
    have looped : loopsAfter 0 (params ++ (body.code ++ ⟨.functionEnd,[]⟩ :: rs.flatMap Routine.code)) =
        some 0 := looped
    rw [loopsAfter_params shaped.1.params,loopsAfter_block shaped.1.body] at looped
    exact ⟨looped.1,jumps_routines shaped.2 looped.2⟩

end Shading.Bytecode
