import Shading.Proofs.Bytecode.Deletion

/-! Seeing the ids of a module as others. A renaming that keeps defined ids apart, and different from
zero, keeps a module valid, and keeps its decorations by the names of their targets. -/
namespace Shading.Bytecode
open List Pass Instruction

variable {b : Block} {r : Routine}

theorem Ordered.rename {f : Id → Id} {code : List Instruction} : ∀ {defined : List Id},
    Ordered defined code → Ordered (defined.map f) (code.map (renameIds f)) := by
  induction code with
  | nil => exact fun _ => trivial
  | cons i code ih =>
    intro defined ordered
    refine ⟨fun states x mentioned => ?_,?_⟩
    · obtain ⟨y,before,rfl⟩ := mem_references_renameIds.mp mentioned
      exact mem_map_of_mem (ordered.1 states before)
    · have rest := ih ordered.2
      rw [map_append] at rest
      rw [result?_renameIds]
      cases result : i.result? <;> simpa [result] using rest

theorem results_map_renameIds (f : Id → Id) (code : List Instruction) :
    results (code.map (renameIds f)) = (results code).map f := by
  simp only [results,filterMap_map,map_filterMap,Function.comp_def,result?_renameIds]

theorem renameIds_congr {f g : Id → Id} {i : Instruction} (mentioned : ∀ x ∈ i.references, f x = g x)
    (result : ∀ r, i.result? = some r → f r = g r) : renameIds f i = renameIds g i := by
  have operands : (renameIds f i).operands = (renameIds g i).operands := by
    refine ext_getElem? fun p => ?_
    rw [getElem?_renameIds,getElem?_renameIds]
    grind [mem_references,result?]
  exact congrArg (mk i.op) operands

section Code

variable {f : Id → Id} {code : List Instruction}
  (apart : ∀ x ∈ results code, ∀ y ∈ results code, f x = f y → x = y) (unique : (results code).Nodup)

theorem references_subset (unique : (results code).Nodup)
    (flawless : ∀ i ∈ code, if i.op.isNote then annotationFlaws code i = [] else typeFlaws code i = [])
    (ordered : Ordered [] code) : ∀ i ∈ code, i.references ⊆ results code := by
  intro i mem
  cases annotates : i.op.isNote with
  | false =>
    rw [← append_nil code] at ordered
    simpa using ordered.outside i mem annotates
  | true =>
    have known := flawless i mem
    rw [if_pos annotates,annotationFlaws_eq_nil_iff annotates] at known
    refine Subset.trans (Instruction.references_of_isNote annotates) ?_
    rw [cons_subset]
    refine ⟨(kindOf_isSome unique).mp ?_,nil_subset _⟩
    unfold Instruction.Annotates at known
    obtain ⟨op,operands⟩ := i
    cases op <;> cases annotates
    · exact known.1
    · rw [known]; rfl
    · rw [known.1]; rfl

theorem placed_rename {kinds : List Instruction} (zero : kindOf kinds 0 = none)
    {kinds' : List Instruction} (rest : List Instruction)
    (same : ∀ i ∈ rest, ∀ x ∈ i.references, kindOf kinds' (f x) = kindOf kinds x) {n : Nesting}
    (flawless : ∀ i ∈ rest, if i.op.isNote then annotationFlaws kinds i = [] else typeFlaws kinds i = [])
    (placed : Placed kinds n rest) : (∀ i ∈ rest.map (renameIds f),
        if i.op.isNote then annotationFlaws kinds' i = [] else typeFlaws kinds' i = []) ∧
      Placed kinds' n (rest.map (renameIds f)) := by
  induction rest generalizing n with
  | nil => exact ⟨by simp,placed⟩
  | cons i rest ih =>
    rw [forall_mem_cons] at same flawless
    rw [Placed] at placed
    rw [map_cons,forall_mem_cons,Placed,renameIds_op]
    cases annotates : i.op.isNote with
    | true =>
      rw [if_pos annotates] at placed flawless
      rw [if_pos rfl,if_pos rfl,annotationFlaws_eq_nil_iff (by exact annotates)]
      obtain ⟨others,last⟩ := ih same.2 flawless.2 placed
      have renamed := ((annotationFlaws_eq_nil_iff annotates).mp flawless.1).rename zero same.1
      exact ⟨⟨renamed,others⟩,last⟩
    | false =>
      rw [if_neg (by simp [annotates])] at placed flawless
      rw [if_neg (by simp),if_neg (by simp)]
      obtain ⟨operands,step,placed⟩ := placed
      obtain ⟨others,last⟩ := ih same.2 flawless.2 placed
      have fits : (renameIds f i).Fits (kindOf kinds') n.inFunction :=
        (flaws_eq_nil_iff.mp ⟨flawless.1,operands⟩).rename zero
          fun x mentioned _ _ known => (same.1 x mentioned).trans known
      obtain ⟨typed,operands⟩ := flaws_eq_nil_iff.mpr fits
      exact ⟨⟨typed,others⟩,operands,step,last⟩

include apart unique

theorem nodup_map_renameIds : (results (code.map (renameIds f))).Nodup := by
  rw [results_map_renameIds]
  refine pairwise_map.mpr (List.Pairwise.imp_of_mem ?_ unique)
  exact fun here here' other same => other (apart _ here _ here' same)

theorem kindOf_map_renameIds {x : Id} (defined : x ∈ results code) :
    kindOf (code.map (renameIds f)) (f x) = kindOf code x := by
  obtain ⟨d,here,result⟩ := mem_results.mp defined
  rw [kindOf_of_mem unique here result,
    kindOf_of_mem (nodup_map_renameIds apart unique) (mem_map_of_mem here) (by simp [result])]
  rfl

theorem Flawless.rename (flawless : Flawless code) (nonzero : 0 ∉ results code) :
    Flawless (code.map (renameIds f)) := by
  obtain ⟨each,ordered,placed⟩ := flawless
  obtain ⟨each',placed'⟩ := placed_rename (kindOf_of_not_mem nonzero) code (fun i mem x mentioned =>
    kindOf_map_renameIds apart unique (references_subset unique each ordered i mem mentioned)) each placed
  exact ⟨each',ordered.rename,placed'⟩

end Code

namespace Block

variable (f : Id → Id)

def rename : Block → Block
  | .done => .done
  | .plain i rest => .plain (renameIds f i) rest.rename
  | .ifThen c yes rest => .ifThen (f c) yes.rename rest.rename
  | .ifElse c yes no rest => .ifElse (f c) yes.rename no.rename rest.rename
  | .loop t body continuing rest => .loop t body.rename continuing.rename rest.rename

theorem code_rename (b : Block) : (b.rename f).code = b.code.map (renameIds f) := by
  have condition : ∀ c, renameIds f ⟨.ifThen,[c]⟩ = ⟨.ifThen,[f c]⟩ := fun _ => rfl
  have turns : ∀ w, renameIds f ⟨.loop,[w]⟩ = ⟨.loop,[w]⟩ := fun _ => rfl
  have single : ∀ op, renameIds f ⟨op,[]⟩ = ⟨op,[]⟩ := fun _ => rfl
  induction b with
  | done => rfl
  | plain i rest ih => simp [rename,code,ih]
  | ifThen c yes rest ihYes ih => simp [rename,code,ihYes,ih,condition,single]
  | ifElse c yes no rest ihYes ihNo ih => simp [rename,code,ihYes,ihNo,ih,condition,single]
  | loop t body continuing rest ihBody ihContinuing ih =>
    simp [rename,code,ihBody,ihContinuing,ih,turns,single]

variable {f}

theorem Proper.rename : ∀ {tests : Bool}, b.Proper tests → (b.rename f).Proper tests := by
  induction b with
  | done => exact fun _ => trivial
  | plain i rest ih => exact fun proper => ⟨proper.1,proper.2.1,ih proper.2.2⟩
  | ifThen c yes rest ihYes ih => exact fun proper => ⟨ihYes proper.1,ih proper.2⟩
  | ifElse c yes no rest ihYes ihNo ih =>
    exact fun proper => ⟨ihYes proper.1,ihNo proper.2.1,ih proper.2.2⟩
  | loop t body continuing rest ihBody ihContinuing ih =>
    exact fun proper => ⟨ihBody proper.1,ihContinuing proper.2.1,ih proper.2.2⟩

theorem Jumps.rename : ∀ {inLoop : Bool}, b.Jumps inLoop → (b.rename f).Jumps inLoop := by
  induction b with
  | done => exact fun _ => trivial
  | plain i rest ih => exact fun jumps => ⟨jumps.1,ih jumps.2⟩
  | ifThen c yes rest ihYes ih => exact fun jumps => ⟨ihYes jumps.1,ih jumps.2⟩
  | ifElse c yes no rest ihYes ihNo ih =>
    exact fun jumps => ⟨ihYes jumps.1,ihNo jumps.2.1,ih jumps.2.2⟩
  | loop t body continuing rest ihBody ihContinuing ih =>
    exact fun jumps => ⟨ihBody jumps.1,ihContinuing jumps.2.1,ih jumps.2.2⟩

end Block

theorem Block.rename_id (b : Block) : b.rename id = b := by
  induction b with
  | done => rfl
  | plain i rest ih => rw [Block.rename,renameIds_id,ih]
  | ifThen c yes rest ihYes ih => rw [Block.rename,ihYes,ih,id]
  | ifElse c yes no rest ihYes ihNo ih => rw [Block.rename,ihYes,ihNo,ih,id]
  | loop t body continuing rest ihBody ihContinuing ih => rw [Block.rename,ihBody,ihContinuing,ih]

namespace Routine

variable (f : Id → Id)

def rename (r : Routine) : Routine :=
  ⟨renameIds f r.head, r.params.map (renameIds f), r.body.rename f⟩

theorem code_rename (r : Routine) : (r.rename f).code = r.code.map (renameIds f) := by
  have last : renameIds f ⟨.functionEnd,[]⟩ = ⟨.functionEnd,[]⟩ := rfl
  simp [code,rename,Block.code_rename,last]

theorem id_rename (shaped : r.Shaped) : (r.rename f).id = f r.id := by
  have defines : (renameIds f r.head).result? = some (f r.id) := by
    rw [result?_renameIds,shaped.defines]
    rfl
  simp only [result?,resultPosition?,renameIds_op,shaped.head,
    Opcode.hasResultType,↓reduceIte,Option.bind_some] at defines
  rw [id,rename,operand_eq,getD_eq_getElem?_getD,defines]
  rfl

theorem Shaped.rename (shaped : r.Shaped) : (r.rename f).Shaped := by
  refine ⟨shaped.head,?_,fun i mem => ?_,shaped.body.rename⟩
  · rw [id_rename f shaped]
    simp [Routine.rename,shaped.defines]
  · obtain ⟨j,before,rfl⟩ := mem_map.mp mem
    exact shaped.params j before

end Routine

theorem renameRoutine_id (r : Routine) : r.rename id = r := by
  have params : r.params.map (renameIds id) = r.params := by
    rw [show renameIds id = id from funext fun _ => renameIds_id,map_id]
  rw [Routine.rename,renameIds_id,params,Block.rename_id]

namespace Outline

variable (f : Id → Id) {t : Outline}

def rename (t : Outline) : Outline :=
  ⟨t.outside.map (renameIds f), t.routines.map (Routine.rename f)⟩

theorem code_rename (t : Outline) : (t.rename f).code = t.code.map (renameIds f) := by
  simp [code,rename,flatMap_map,map_flatMap,Routine.code_rename]

theorem Shaped.rename (shaped : t.Shaped) : (t.rename f).Shaped := by
  refine ⟨fun i mem => ?_,fun r mem => ?_⟩
  · obtain ⟨j,before,rfl⟩ := mem_map.mp mem
    exact shaped.outside j before
  · obtain ⟨q,before,rfl⟩ := mem_map.mp mem
    exact (shaped.routines q before).rename f

variable {f}

def Apart (f : Id → Id) (t : Outline) : Prop :=
  ∀ x ∈ results t.code, ∀ y ∈ results t.code, f x = f y → x = y

section

variable (valid : t.Valid)
include valid

theorem Valid.closed (shaped : t.Shaped) : ∀ i ∈ t.code, i.references ⊆ results t.code := by
  have closed := (valid.trims_self shaped).closed_prune valid
  rwa [valid.prune_eq] at closed

theorem Valid.rename (shaped : t.Shaped) (apart : t.Apart f)
    (nonzero : ∀ x ∈ results t.code, f x ≠ 0) : (t.rename f).Valid := by
  obtain ⟨⟨unique,zero⟩,flawless,entry⟩ := shaped.valid_iff.mp valid
  rw [(shaped.rename f).valid_iff,code_rename,countP_map]
  refine ⟨⟨nodup_map_renameIds apart unique,fun mem => ?_⟩,flawless.rename apart unique zero,entry⟩
  rw [results_map_renameIds] at mem
  obtain ⟨x,defined,same⟩ := mem_map.mp mem
  exact nonzero x defined same

theorem Valid.nameOf?_rename (apart : t.Apart f) {x : Id} (defined : x ∈ results t.code) :
    nameOf? (t.rename f).outside (f x) = nameOf? t.outside x := by
  have same : ∀ i ∈ t.outside,
      ((renameIds f i).op == .debugName && (renameIds f i).operands.head? == some (f x)) =
        (i.op == .debugName && i.operands.head? == some x) := by
    intro i mem
    rw [renameIds_op]
    by_cases op : i.op = .debugName
    · have annotates := valid.annotations i mem
      unfold Annotates at annotates
      rw [op] at annotates
      have target := (kindOf_isSome valid.unique).mp annotates.1
      rw [List.head?_eq_getElem?,getElem?_renameIds]
      obtain ⟨_,operands⟩ := i
      cases op
      cases operands with
      | nil => rfl
      | cons y ws =>
        have whole : (f y == f x) = (y == x) := by
          rw [Bool.eq_iff_iff,beq_iff_eq,beq_iff_eq]
          exact ⟨apart y target x defined,congrArg f⟩
        simp [refersAt,whole]
    · rw [beq_false_of_ne op,Bool.false_and,Bool.false_and]
  have filtered : (t.rename f).outside.filter
        (fun i => i.op == .debugName && i.operands.head? == some (f x)) =
      (t.outside.filter fun i => i.op == .debugName && i.operands.head? == some x).map
        (renameIds f) := by
    rw [Outline.rename,filter_map]
    exact congrArg _ (filter_congr same)
  rw [nameOf?,filtered,findSome?_map,nameOf?]
  exact congrArg (List.findSome? · _) (funext fun _ => text?_renameIds)

theorem Valid.decorations_rename (shaped : t.Shaped) (apart : t.Apart f) :
    decorations (t.rename f).code = decorations t.code := by
  have decorated : (t.rename f).outside.filter (fun i => i.op == .decorate) =
      (t.outside.filter fun i => i.op == .decorate).map (renameIds f) := by
    rw [Outline.rename,filter_map]
    rfl
  rw [(shaped.rename f).decorations_code,shaped.decorations_code,decorations,decorated,map_map,
    decorations]
  refine map_congr_left fun i mem => ?_
  obtain ⟨mem,op⟩ := mem_filter.mp mem
  have op : i.op = .decorate := by simpa using op
  have annotates := valid.annotations i mem
  unfold Annotates at annotates
  rw [op] at annotates
  have target : i.operand 0 ∈ results t.code :=
    (kindOf_isSome valid.unique).mp (by rw [annotates.1]; rfl)
  have present : ¬ i.operands.length ≤ 0 := by
    grind [operand_eq,Valid.nonzero]
  have literal : ∀ p, p ≠ 0 → (renameIds f i).operand p = i.operand p := fun p later => by
    rw [operand_eq,operand_eq,List.getD,getElem?_renameIds_of_literal (by simp [refersAt,op,later])
      (by simp [resultPosition?,op,Opcode.hasResultType,Opcode.isType])]
    rfl
  rw [Function.comp_apply,operand_renameIds (by simp [refersAt,op]),if_neg present,
    valid.nameOf?_rename apart target,literal 1 (by decide),literal 2 (by decide)]

end

end Outline

end Shading.Bytecode
