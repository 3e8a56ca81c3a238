import Shading.Proofs.Bytecode.Outline

/-! Which ids code defines, and by what operations. Whether an instruction fits its operands depends on
the operations that define what it mentions only. -/
namespace Shading.Bytecode
open List Pass Instruction Opcode

variable {p : Nat} {code : List Instruction} {d : Instruction} {op : Opcode} {x : Id}

theorem results_append (a b : List Instruction) : results (a ++ b) = results a ++ results b :=
  filterMap_append

theorem results_cons (i : Instruction) (code : List Instruction) :
    results (i :: code) = i.result?.toList ++ results code := by
  cases result : i.result? <;> simp [results,result]

theorem toNat_max (x y : Id) : (max x y).toNat = max x.toNat y.toNat := by
  show (if x ≤ y then y else x).toNat = _
  grind [UInt32.le_iff_toNat_le]

theorem le_maxId (defined : x ∈ results code) : x.toNat ≤ (maxId code).toNat := by
  have above : ∀ (ids : List Id) (m : Id), m.toNat ≤ (ids.foldl max m).toNat ∧
      ∀ x ∈ ids, x.toNat ≤ (ids.foldl max m).toNat := by
    intro ids
    induction ids with
    | nil => simp
    | cons y ids ih =>
      intro m
      obtain ⟨start,rest⟩ := ih (max m y)
      rw [toNat_max] at start
      rw [foldl_cons,forall_mem_cons]
      exact ⟨by omega,by omega,rest⟩
  exact (above _ 0).2 x defined

theorem maxId_lt {bound : Nat} (positive : 0 < bound)
    (below : ∀ x ∈ results code, x.toNat < bound) : (maxId code).toNat < bound := by
  have start : ∀ (ids : List Id) (m : Id), m.toNat < bound → (∀ x ∈ ids, x.toNat < bound) →
      (ids.foldl max m).toNat < bound := by
    intro ids
    induction ids with
    | nil => exact fun _ low _ => low
    | cons y ids ih =>
      intro m low below
      rw [forall_mem_cons] at below
      exact ih (max m y) (by rw [toNat_max]; omega) below.2
  exact start _ 0 positive below

theorem results_filter {p : Instruction → Bool} (keeps : ∀ i : Instruction, p i = false → i.result? = none)
    (code : List Instruction) : results (code.filter p) = results code := by
  induction code with
  | nil => rfl
  | cons i code ih =>
    grind [results]

section Blocks

variable (i : Instruction) (c : Id) (t : Bool) (b yes no body continuing : Block)

theorem Block.results_plain : results (plain i b).code = i.result?.toList ++ results b.code :=
  results_cons i b.code

theorem Block.results_ifThen :
    results (ifThen c yes b).code = results yes.code ++ results b.code := by
  simp [code,results_cons,results_append,result?,resultPosition?,hasResultType,isType]

theorem Block.results_ifElse : results (ifElse c yes no b).code =
      results yes.code ++ (results no.code ++ results b.code) := by
  simp [code,results_cons,results_append,result?,resultPosition?,hasResultType,isType]

theorem Block.results_loop : results (loop t body continuing b).code =
      results body.code ++ (results continuing.code ++ results b.code) := by
  simp [code,results_cons,results_append,result?,resultPosition?,hasResultType,isType]

end Blocks

theorem mem_results {id : Id} : id ∈ results code ↔ ∃ i ∈ code, i.result? = some id := mem_filterMap

def definitionAfter (id : Id) (found : Option Instruction) (code : List Instruction) :
    Option Instruction :=
  code.foldl (fun found i => if i.result? = some id then some i else found) found

theorem definitionAfter_of_not_mem {id : Id} :
    id ∉ results code → ∀ found, definitionAfter id found code = found := by
  induction code with
  | nil => exact fun _ _ => rfl
  | cons i code ih =>
    intro absent found
    have other : i.result? ≠ some id := fun same => absent (mem_results.mpr ⟨i,mem_cons_self,same⟩)
    have rest : id ∉ results code := fun mem => by
      obtain ⟨j,here,same⟩ := mem_results.mp mem
      exact absent (mem_results.mpr ⟨j,.tail _ here,same⟩)
    rw [definitionAfter,foldl_cons,if_neg other]
    exact ih rest found

theorem definitionAfter_of_mem {id : Id} :
    (results code).Nodup → d ∈ code → d.result? = some id →
      ∀ found, definitionAfter id found code = some d := by
  induction code with
  | nil => simp
  | cons i code ih =>
    intro unique mem result found
    rw [definitionAfter,foldl_cons]
    rcases mem_cons.mp mem with rfl | later
    · have absent : id ∉ results code := by
        grind [results]
      rw [if_pos result]
      exact definitionAfter_of_not_mem absent _
    · have unique : (results code).Nodup := by
        refine Sublist.nodup ?_ unique
        exact Sublist.filterMap _ (sublist_cons_self _ _)
      exact ih unique later result _

section Kinds

variable {code : List Instruction} {id : Id}

theorem definition?_of_mem (unique : (results code).Nodup) (mem : d ∈ code)
    (result : d.result? = some id) : definition? code id = some d :=
  definitionAfter_of_mem unique mem result none

theorem eq_of_result (unique : (results code).Nodup) {i : Instruction} (mem : i ∈ code)
    (member' : d ∈ code) (result : i.result? = some id) (result' : d.result? = some id) :
    i = d := by
  have first := definition?_of_mem unique mem result
  rw [definition?_of_mem unique member' result'] at first
  exact (Option.some.inj first).symm

theorem kindOf_of_not_mem (absent : id ∉ results code) : kindOf code id = none := by
  have none : definition? code id = none := definitionAfter_of_not_mem absent none
  rw [kindOf,none]
  rfl

section

variable (unique : (results code).Nodup)
include unique

theorem kindOf_of_mem (mem : d ∈ code) (result : d.result? = some id) :
    kindOf code id = some d.op := by
  rw [kindOf,definition?_of_mem unique mem result]
  rfl

theorem kindOf_eq_some :
    kindOf code id = some op ↔ ∃ d ∈ code, d.result? = some id ∧ d.op = op := by
  grind [mem_results,kindOf_of_mem,kindOf_of_not_mem]

theorem kindOf_isSome : (kindOf code id).isSome = true ↔ id ∈ results code := by
  constructor
  · grind [Option.isSome_iff_exists,kindOf_eq_some,mem_results]
  · intro mem
    obtain ⟨d,here,result⟩ := mem_results.mp mem
    rw [kindOf_of_mem unique here result]
    rfl

end

theorem kindOf_sublist {code' : List Instruction} (sub : code'.Sublist code)
    (unique : (results code).Nodup) (mem : id ∈ results code') :
    kindOf code' id = kindOf code id := by
  obtain ⟨d,here,result⟩ := mem_results.mp mem
  have unique' : (results code').Nodup := (Sublist.filterMap _ sub).nodup unique
  rw [kindOf_of_mem unique' here result,kindOf_of_mem unique (sub.subset here) result]

end Kinds

namespace Instruction

variable {i : Instruction}

theorem operand_mem_references (refers : i.refersAt p = true) :
    i.operand p ∈ i.references ∨ i.operand p = 0 := by
  grind [operand_eq,mem_references]

theorem resultType?_mem_references {t : Id} (typed : i.resultType? = some t) : t ∈ i.references := by
  unfold resultType? at typed
  split at typed
  · rename_i has
    refine mem_references.mpr ⟨0,typed,?_⟩
    obtain ⟨op,operands⟩ := i
    cases op <;> first | rfl | cases has
  · cases typed

end Instruction

def Opcode.isAsked (op : Opcode) : Bool := op.isType || op.isPointer || op == .function

section Instructions

variable {f : Id → Id} {i : Instruction}

@[simp] theorem renameIds_op : (renameIds f i).op = i.op := rfl

@[simp] theorem refersAt_renameIds (p : Nat) : (renameIds f i).refersAt p = i.refersAt p := rfl

@[simp] theorem resultPosition?_renameIds : (renameIds f i).resultPosition? = i.resultPosition? := rfl

@[simp] theorem length_operands_renameIds :
    (renameIds f i).operands.length = i.operands.length := by simp [renameIds]

theorem renameIds_id : renameIds id i = i := by
  have same : i.operands.mapIdx (fun _ w => w) = i.operands := ext_getElem? fun n => by simp
  simp [renameIds,same]

theorem getElem?_renameIds (p : Nat) : (renameIds f i).operands[p]? =
      i.operands[p]?.map fun w => if i.refersAt p ∨ some p = i.resultPosition? then f w else w := by
  simp [renameIds]

@[simp] theorem result?_renameIds : (renameIds f i).result? = i.result?.map f := by
  rw [result?,result?,resultPosition?_renameIds]
  cases position : i.resultPosition? with
  | none => rfl
  | some p => simp [getElem?_renameIds,position]

theorem zipIdx_operands_renameIds :
    (renameIds f i).operands.zipIdx = i.operands.zipIdx.map fun (w, p) =>
      (if i.refersAt p ∨ some p = i.resultPosition? then f w else w, p) := by
  refine ext_getElem? fun n => ?_
  rw [getElem?_zipIdx,getElem?_renameIds,getElem?_map,getElem?_zipIdx]
  cases i.operands[n]? <;> simp

theorem operandsAt_renameIds (q : Nat → Bool) :
    ((renameIds f i).operands.zipIdx.filter fun (_, p) => q p).map Prod.fst =
      (i.operands.zipIdx.filter fun (_, p) => q p).map fun (w, p) =>
        if i.refersAt p ∨ some p = i.resultPosition? then f w else w := by
  rw [zipIdx_operands_renameIds,filter_map,map_map]
  rfl

theorem mentions_renameIds : (renameIds f i).mentions = i.mentions.map f := by
  rw [Instruction.mentions,Instruction.mentions,renameIds_op]
  simp only [refersAt_renameIds]
  rw [operandsAt_renameIds fun p => i.refersAt p && !(i.op == .call && p == 2),map_map]
  simp_all

theorem references_renameIds : (renameIds f i).references = i.references.map f := by
  rw [references,references]
  simp only [refersAt_renameIds]
  rw [operandsAt_renameIds fun p => i.refersAt p,map_map]
  simp_all

theorem callee?_renameIds : (renameIds f i).callee? = i.callee?.map f := by
  grind [callee?,renameIds_op,getElem?_renameIds,refersAt]

theorem mem_references_renameIds :
    x ∈ (renameIds f i).references ↔ ∃ y ∈ i.references, f y = x := by
  rw [references_renameIds,mem_map]

theorem operand_renameIds (refers : i.refersAt p = true) :
    (renameIds f i).operand p = if i.operands.length ≤ p then 0 else f (i.operand p) := by
  grind [operand_eq,getElem?_renameIds]

theorem getElem?_renameIds_of_literal (literal : i.refersAt p = false)
    (noResult : i.resultPosition? ≠ some p) : (renameIds f i).operands[p]? = i.operands[p]? := by
  grind [getElem?_renameIds]

theorem resultType?_renameIds : (renameIds f i).resultType? = i.resultType?.map f := by
  rw [resultType?,resultType?,renameIds_op]
  split
  · rename_i typed
    rw [getElem?_renameIds]
    have refers : i.refersAt 0 = true := by
      obtain ⟨op,operands⟩ := i
      cases op <;> first | rfl | cases typed
    simp [refers]
  · rfl

theorem text?_renameIds : (renameIds f i).text? = i.text? := by
  obtain ⟨op,operands⟩ := i
  cases op <;> first | rfl | skip
  cases operands with
  | nil => rfl
  | cons x ws =>
    have tail : (renameIds f ⟨.debugName,x :: ws⟩).operands = f x :: ws := by
      have rest : ws.mapIdx (fun _ w => w) = ws := ext_getElem? fun n => by simp
      simp [renameIds,refersAt,resultPosition?,hasResultType,isType,rest]
    simp only [text?,renameIds_op,tail]

end Instructions

namespace Instruction

variable {f : Id → Id} {i : Instruction} {kind kind' : Id → Option Opcode} {inFunction : Bool}

theorem kind_operand_renameIds (refers : i.refersAt p = true) (zero : kind 0 = none)
    (same : ∀ x ∈ i.references, kind x = some op → kind' (f x) = some op)
    (known : kind (i.operand p) = some op) : kind' ((renameIds f i).operand p) = some op := by
  grind [operand_eq,operand_renameIds,operand_mem_references]

theorem Fits.rename (fits : i.Fits kind inFunction) (zero : kind 0 = none)
    (same : ∀ x ∈ i.references, ∀ op, op.isAsked = true → kind x = some op → kind' (f x) = some op) :
    (renameIds f i).Fits kind' inFunction := by
  have pointer : ∀ p, i.refersAt p = true → (kind (i.operand p)).any isPointer = true →
      (kind' ((renameIds f i).operand p)).any isPointer = true := by
    intro p refers any
    obtain ⟨op,known,pointer⟩ := (Option.any_eq_true ..).mp any
    have kept := kind_operand_renameIds refers zero
      (fun x mem => same x mem op (by simp [isAsked,pointer])) known
    rwa [kept]
  obtain ⟨typed,operands⟩ := fits
  refine ⟨fun t ofType => ?_,?_⟩
  · rw [resultType?_renameIds,Option.mem_def,Option.map_eq_some_iff] at ofType
    obtain ⟨t,ofType,rfl⟩ := ofType
    obtain ⟨type,pointer⟩ := typed t ofType
    obtain ⟨op,known,type⟩ := (Option.any_eq_true ..).mp type
    rw [same t (resultType?_mem_references ofType) op (by simp [isAsked,type]) known]
    rw [known] at pointer
    exact ⟨type,pointer⟩
  · revert operands
    rw [renameIds_op]
    split
    · rename_i op
      unfold storage?
      rw [getElem?_renameIds_of_literal (by simp [refersAt,op])
        (by simp [resultPosition?,op,hasResultType])]
      exact id
    · rename_i op
      exact pointer 2 (by simp [refersAt,op])
    · rename_i op
      exact pointer 2 (by simp [refersAt,op])
    · rename_i op
      exact pointer 0 (by simp [refersAt,op])
    · rename_i op
      exact kind_operand_renameIds (by simp [refersAt,op]) zero fun x mem =>
        same x mem _ rfl
    · exact id

theorem Annotates.rename (annotates : i.Annotates kind) (zero : kind 0 = none)
    (same : ∀ x ∈ i.references, kind' (f x) = kind x) : (renameIds f i).Annotates kind' := by
  have operand : ∀ op, i.refersAt 0 = true → kind (i.operand 0) = some op →
      kind' ((renameIds f i).operand 0) = some op := fun op refers =>
    kind_operand_renameIds refers zero fun x mem known => by rw [same x mem,known]
  revert annotates
  unfold Annotates
  rw [renameIds_op,text?_renameIds]
  split
  · rename_i op
    exact operand _ (by simp [refersAt,op])
  · rename_i op
    rintro ⟨var,known⟩
    refine ⟨operand _ (by simp [refersAt,op]) var,?_⟩
    rwa [decorationCode,getElem?_renameIds_of_literal (by simp [refersAt,op])
      (by simp [resultPosition?,op,hasResultType,isType])]
  · grind [Option.isSome_iff_exists,refersAt]
  · exact id

theorem Fits.congr (fits : i.Fits kind inFunction) (zero : kind 0 = none)
    (same : ∀ x ∈ i.references, kind' x = kind x) : i.Fits kind' inFunction := by
  have renamed : (renameIds id i).Fits kind' inFunction :=
    fits.rename zero fun x mem op _ known => by rw [id,same x mem,known]
  rwa [renameIds_id] at renamed

theorem Annotates.congr (annotates : i.Annotates kind) (zero : kind 0 = none)
    (same : ∀ x ∈ i.references, kind' x = kind x) : i.Annotates kind' := by
  have renamed : (renameIds id i).Annotates kind' := annotates.rename zero same
  rwa [renameIds_id] at renamed

end Instruction

theorem Block.Scoped.mentions {b : Block} : ∀ {visible : List Id}, b.Scoped visible →
    ∀ i ∈ b.code, i.mentions ⊆ visible ++ results b.code := by
  induction b with
  | done => simp [code]
  | plain i b ih =>
    intro visible inside
    rw [results_plain]
    refine forall_mem_cons.mpr ⟨Subset.trans inside.1 (subset_append_left _ _),fun j mem => ?_⟩
    have := ih inside.2 j mem
    grind
  | ifThen c yes b ihYes ih =>
    intro visible inside
    have first := ihYes inside.2.1
    have second := ih inside.2.2
    rw [results_ifThen]
    simp only [code,cons_append,forall_mem_cons,forall_mem_append]
    refine ⟨?_,fun j mem => ?_,by simp [Instruction.mentions],fun j mem => ?_⟩
    · simpa [Instruction.mentions,refersAt] using .inl inside.1
    · have := first j mem
      grind
    · have := second j mem
      grind
  | ifElse c yes no b ihYes ihNo ih =>
    intro visible inside
    have first := ihYes inside.2.1
    have second := ihNo inside.2.2.1
    have third := ih inside.2.2.2
    rw [results_ifElse]
    simp only [code,cons_append,List.append_assoc,forall_mem_cons,forall_mem_append]
    refine ⟨?_,fun j mem => ?_,by simp [Instruction.mentions],fun j mem => ?_,
      by simp [Instruction.mentions],fun j mem => ?_⟩
    · simpa [Instruction.mentions,refersAt] using .inl inside.1
    · have := first j mem
      grind
    · have := second j mem
      grind
    · have := third j mem
      grind
  | loop t body continuing b ihBody ihContinuing ih =>
    intro visible inside
    have first := ihBody inside.1
    have second := ihContinuing inside.2.1
    have third := ih inside.2.2
    rw [results_loop]
    simp only [code,cons_append,List.append_assoc,forall_mem_cons,forall_mem_append]
    refine ⟨by simp [Instruction.mentions,refersAt],fun j mem => ?_,
      by simp [Instruction.mentions],fun j mem => ?_,by simp [Instruction.mentions],fun j mem => ?_⟩
    · have := first j mem
      grind
    · have := second j mem
      grind
    · have := third j mem
      grind

theorem Ordered.mono : ∀ {defined wider : List Id}, Ordered defined code →
    defined ⊆ wider → Ordered wider code := by
  induction code with
  | nil => exact fun _ _ => trivial
  | cons i code ih =>
    intro defined wider ordered le
    refine ⟨fun states => Subset.trans (ordered.1 states) le,ih ordered.2 ?_⟩
    exact append_subset.mpr ⟨subset_append_left _ _,Subset.trans le (subset_append_right _ _)⟩

theorem ordered_append {a b : List Instruction} : ∀ {defined : List Id},
    Ordered defined (a ++ b) ↔ Ordered defined a ∧ Ordered (results a ++ defined) b := by
  induction a with
  | nil =>
    intro defined
    simp [Ordered,results]
  | cons i a ih =>
    intro defined
    have same : Ordered (results a ++ (i.result?.toList ++ defined)) b ↔
        Ordered (results (i :: a) ++ defined) b := by
      rw [results_cons]
      constructor <;> intro ordered <;> refine ordered.mono fun x => ?_ <;> grind
    rw [cons_append,Ordered,ih,same,Ordered,and_assoc]

theorem Ordered.of_closed : ∀ {defined : List Id},
    (∀ i ∈ code, i.op.isNote = false → i.references ⊆ defined) → Ordered defined code := by
  induction code with
  | nil => exact fun _ => trivial
  | cons i code ih =>
    intro defined closed
    rw [forall_mem_cons] at closed
    exact ⟨closed.1,ih fun j mem states =>
      Subset.trans (closed.2 j mem states) (subset_append_right _ _)⟩

end Shading.Bytecode
