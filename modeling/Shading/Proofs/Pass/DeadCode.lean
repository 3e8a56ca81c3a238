import Mathlib.Data.List.Flatten
import Shading.Proofs.Bytecode.Deletion

/-! What is deleted as dead is mentioned by nothing that is left: results that nothing uses, and local
variables together with the stores to them. -/
namespace Shading.Bytecode
open List Pass Instruction

variable {x : Id} {r : Routine} {code : List Instruction}

namespace Pass

def usesOf (i : Instruction) : List Id := if i.op = .debugName then [] else i.references

def targetOf (i : Instruction) : List Id := if i.op = .store then [i.operand 0] else []

theorem uses_cons (i : Instruction) (code : List Instruction) :
    uses (i :: code) = usesOf i ++ uses code := by
  by_cases op : i.op = .debugName <;> simp [uses,usesOf,op]

theorem storeTargets_cons (i : Instruction) (code : List Instruction) :
    storeTargets (i :: code) = targetOf i ++ storeTargets code := by
  by_cases op : i.op = .store <;> simp [storeTargets,targetOf,op]

theorem mem_uses : x ∈ uses code ↔ ∃ i ∈ code, i.op ≠ .debugName ∧ x ∈ i.references := by
  simp [uses,and_assoc]

/-- Every store says where it stores. -/
abbrev Targeted (code : List Instruction) : Prop :=
  ∀ i ∈ code, i.op = .store → i.operands ≠ []

theorem count_targetOf_le {i : Instruction} (full : i.op = .store → i.operands ≠ []) (x : Id) :
    (targetOf i).count x ≤ (usesOf i).count x := by
  unfold targetOf usesOf
  split
  · rename_i op
    obtain ⟨_,operands⟩ := i
    cases op
    cases operands with
    | nil => exact absurd rfl (full rfl)
    | cons target rest =>
      rw [references,zipIdx_cons]
      grind [refersAt,operand_eq]
  · simp

theorem count_usesOf_eq : Targeted code →
      (storeTargets code).count x ≤ (uses code).count x ∧
        ((uses code).count x = (storeTargets code).count x ↔
          ∀ i ∈ code, (usesOf i).count x = (targetOf i).count x) := by
  induction code with
  | nil => simp [uses,storeTargets]
  | cons i code ih =>
    grind [count_targetOf_le,uses_cons,storeTargets_cons]

def deadIn (code : List Instruction) : List Id := deadLocals (uses code) (storeTargets code) code

def keeps (code : List Instruction) (i : Instruction) : Bool := needed (uses code) (deadIn code) i

theorem sweep_eq (code : List Instruction) : sweep code = code.filter (keeps code) := rfl

section Keeping

variable {code : List Instruction} {i : Instruction}

theorem keeps_of_result?_eq_none (result : i.result? = none) (noStore : i.op ≠ .store) :
    keeps code i = true := by
  simp [keeps,needed,noStore,result]

theorem keeps_of_isPure_false (effect : i.op.isPure = false) (global : isLocal i = false)
    (noStore : i.op ≠ .store) : keeps code i = true := by
  unfold keeps needed
  rw [if_neg noStore]
  split
  · rfl
  · simp [effect,global]

theorem mem_deadIn : x ∈ deadIn code ↔ (∃ d ∈ code, isLocal d = true ∧ d.result? = some x) ∧
      (uses code).count x = (storeTargets code).count x := by
  simp [deadIn,deadLocals,results,and_assoc]

theorem store_of_mem_deadIn (full : Targeted code) (dead : x ∈ deadIn code) (mem : i ∈ code)
    (op : i.op ≠ .debugName) (mentioned : x ∈ i.references) : i.op = .store ∧ i.operand 0 = x := by
  have same := (count_usesOf_eq full).2.mp (mem_deadIn.mp dead).2 i mem
  grind [usesOf,targetOf]

theorem op_ne_store_of_result? (result : i.result? = some x) : i.op ≠ .store := by
  intro store
  simp [result?,resultPosition?,store,Opcode.hasResultType,Opcode.isType] at result

theorem keeps_of_mentioned (full : Targeted code) (mem : i ∈ code) (kept : keeps code i = true)
    (op : i.op ≠ .debugName) {d : Instruction} (mentioned : x ∈ i.references)
    (result : d.result? = some x) : keeps code d = true := by
  have used : (uses code).count x ≠ 0 := by
    rw [Ne,count_eq_zero]
    exact fun unused => unused (mem_uses.mpr ⟨i,mem,op,mentioned⟩)
  unfold keeps needed
  rw [if_neg (op_ne_store_of_result? result),result]
  dsimp only
  split
  · rw [Bool.not_eq_true',contains_eq_mem,decide_eq_false_iff_not]
    intro dead
    obtain ⟨store,rfl⟩ := store_of_mem_deadIn full dead mem op mentioned
    simp [keeps,needed,store,dead] at kept
  · simp [used]

end Keeping

end Pass

theorem keeps_of_isPlain_false (i : Instruction) (noPlain : i.op.isPlain = false) :
    keeps code i = true := by
  obtain ⟨op,operands⟩ := i
  cases op <;> first
    | exact absurd noPlain.symm Bool.false_ne_true
    | exact keeps_of_isPure_false rfl rfl (by simp)

theorem Routine.Shaped.keeps_outer (shaped : r.Shaped) :
    ∀ i ∈ r.head :: r.params, keeps code i = true := by
  refine forall_mem_cons.mpr ⟨?_,fun i mem => ?_⟩
  · exact keeps_of_isPlain_false _ (by simp [shaped.head,Opcode.isPlain])
  · exact keeps_of_isPlain_false _ (by simp [shaped.params i mem,Opcode.isPlain])

theorem Routine.Shaped.code_filter_keeps (shaped : r.Shaped) (code : List Instruction) :
    (r.filter (keeps code)).code = r.code.filter (keeps code) :=
  Routine.code_filter (fun i plain _ => keeps_of_isPlain_false i plain) shaped.keeps_outer

theorem Opcode.isPure_of_isOutside {op : Opcode} (outside : op.isOutside = true) :
    op.isPure = false ∧ op ≠ .store := by
  cases op <;> revert outside <;> decide

namespace Outline

variable {t t' : Outline}

def sweep (t : Outline) : Outline :=
  { t with routines := t.routines.map (Routine.filter (keeps t.code)) }

theorem Valid.isLocal_outside (valid : t.Valid) : ∀ i ∈ t.outside, isLocal i = false := by
  intro i mem
  rw [← Bool.not_eq_true]
  intro local_
  simp only [isLocal,Bool.and_eq_true,beq_iff_eq] at local_
  obtain ⟨op,storage⟩ := local_
  have fits := (valid.outside i mem).2
  rw [op] at fits
  obtain ⟨c,found,inFunction⟩ := fits
  rw [storage?,storage] at found
  have : c = .function := (Option.some.inj found).symm
  exact absurd (inFunction.mpr this) (by simp)

theorem Shaped.sweep_code (shaped : t.Shaped) (globals : ∀ i ∈ t.outside, isLocal i = false) :
    Pass.sweep t.code = t.sweep.code := by
  have outside : t.outside.filter (keeps t.code) = t.outside := by
    grind [filter_eq_self,Opcode.isPure_of_isOutside,Shaped.outside,keeps_of_isPure_false]
  have inside := Routine.flatMap_code_filter (p := keeps t.code)
    (fun i plain _ => keeps_of_isPlain_false i plain) fun r mem => (shaped.routines r mem).keeps_outer
  have split : t.code.filter (keeps t.code) = t.outside.filter (keeps t.code) ++
      (t.routines.flatMap Routine.code).filter (keeps t.code) := filter_append ..
  rw [sweep_eq,split,outside,inside]
  rfl

theorem Trims.store_operands (trims : t'.Trims t) (valid : t.Valid) : Targeted t'.code := by
  intro i mem op empty
  rcases mem_code.mp mem with outside | ⟨r',routine',here'⟩
  · have := trims.shaped.outside i outside
    rw [op] at this
    cases this
  · obtain ⟨r,routine,here⟩ := trims.inside r' routine' i here'
    have fits := (valid.routines r routine i here).2
    grind [operand_eq,kindOf_of_not_mem,Valid.nonzero]

/-- A sweep deletes what is not mentioned by what is left. -/
theorem Trims.sweep (trims : t'.Trims t) (valid : t.Valid) : t'.sweep.Trims t := by
  have globals : ∀ i ∈ t'.outside, isLocal i = false := trims.outside ▸ valid.isLocal_outside
  have filtered : t'.sweep.code = t'.code.filter (keeps t'.code) :=
    (trims.shaped.sweep_code globals).symm
  have full := trims.store_operands valid
  have members : ∀ {r}, r ∈ t'.sweep.routines →
      ∃ r' ∈ t'.routines, r'.filter (keeps t'.code) = r := fun mem => mem_map.mp mem
  have stays : ∀ {i x}, i ∈ t'.code → keeps t'.code i = true → i.op ≠ .debugName →
      x ∈ i.references → x ∈ results t'.code → x ∈ results t'.sweep.code := by
    grind [mem_results,keeps_of_mentioned]
  refine ⟨trims.outside,⟨trims.shaped.outside,fun r mem => ?_⟩,?_,fun r mem i here => ?_,
    fun r mem => ?_,fun r mem i here x mentioned => ?_,fun i mem op => ?_⟩
  · obtain ⟨r,routine,rfl⟩ := members mem
    exact (trims.shaped.routines r routine).filter _
  · rw [filtered]
    exact filter_sublist.trans trims.sub
  · obtain ⟨r,routine,rfl⟩ := members mem
    rw [(trims.shaped.routines r routine).code_filter_keeps] at here
    exact trims.inside r routine i (mem_filter.mp here).1
  · obtain ⟨r,routine,rfl⟩ := members mem
    exact (trims.jumps r routine).filter
  · obtain ⟨r,routine,rfl⟩ := members mem
    have shaped := trims.shaped.routines r routine
    rw [shaped.code_filter_keeps] at here
    obtain ⟨here,kept⟩ := mem_filter.mp here
    have noName : i.op ≠ .debugName := by
      intro op
      have := shaped.states i here
      rw [op] at this
      cases this
    exact stays (mem_code.mpr (.inr ⟨r,routine,here⟩)) kept noName mentioned
      (trims.closed r routine i here mentioned)
  · have defined := trims.entry i mem op
    rw [← trims.outside] at mem
    refine stays (mem_code.mpr (.inl mem)) (keeps_of_result?_eq_none ?_ ?_) ?_ ?_ defined
    · simp [result?,resultPosition?,op,Opcode.hasResultType,Opcode.isType]
    · simp [op]
    · simp [op]
    · refine (operand_mem_references (by simp [refersAt,op])).resolve_right ?_
      intro zero
      rw [zero] at defined
      exact valid.nonzero ((Sublist.filterMap _ trims.sub).subset defined)

/-- What some sweeps leave of a module. -/
inductive Swept (t : Outline) : Outline → Prop
  | none : Swept t t
  | again {t' : Outline} (swept : Swept t t') : Swept t t'.sweep

theorem Swept.trims (swept : t.Swept t') (valid : t.Valid) (shaped : t.Shaped) : t'.Trims t := by
  induction swept with
  | none => exact valid.trims_self shaped
  | again _ ih => exact ih.sweep valid

theorem Swept.sweepAll_code (swept : t.Swept t') (valid : t.Valid) (shaped : t.Shaped) :
    ∃ last, t.Swept last ∧ Pass.sweepAll t'.code = last.code := by
  generalize whole : t'.code = code
  fun_induction Pass.sweepAll code generalizing t' with
  | case1 code _ ih =>
    subst whole
    have trims := swept.trims valid shaped
    exact ih swept.again (trims.shaped.sweep_code (trims.outside ▸ valid.isLocal_outside)).symm
  | case2 code _ => exact ⟨t',swept,whole.symm⟩

theorem Valid.dropDeadCode_code (valid : t.Valid) (shaped : t.Shaped) :
    ∃ last, t.Swept last ∧ (dropDeadCode t.code).map Outcome.code = .ok last.prune.code := by
  obtain ⟨last,swept,whole⟩ := Swept.none.sweepAll_code valid shaped
  have trims := swept.trims valid shaped
  refine ⟨last,swept,?_⟩
  rw [dropDeadCode,whole]
  split
  · rename_i length
    have all : last.code = t.code := trims.sub.eq_of_length length
    have pruned := trims.shaped.dropStaleAnnotations_code
    rw [all,shaped.dropStaleAnnotations_code,valid.prune_eq] at pruned
    rw [← pruned]
    rfl
  · rw [trims.shaped.dropStaleAnnotations_code]
    rfl

end Outline

end Shading.Bytecode
