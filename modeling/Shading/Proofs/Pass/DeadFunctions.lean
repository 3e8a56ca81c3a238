import Shading.Proofs.Bytecode.Deletion
import Shading.Proofs.Bytecode.Parts

/-! The functions that the entry point reaches are closed under calls, so that a module without the
others is valid. -/
namespace Shading.Bytecode
open List Pass Routine

variable {r : Routine}

namespace Pass

variable {functions : List FunctionCode} {live work : List Id}

theorem subset_reachable : live ⊆ reachable functions live work := by
  fun_induction reachable functions live work with
  | case1 => exact Subset.refl _
  | case2 live id work _ ih => exact ih
  | case3 live id work _ _ ih => exact Subset.trans (subset_cons_self _ _) ih
  | case4 live id work _ _ ih => exact ih

theorem mem_reachable_of_work : ∀ id ∈ work, id ∈ functions.map FunctionCode.id →
    id ∈ reachable functions live work := by
  fun_induction reachable functions live work with
  | case1 => simp
  | case2 live id work seen ih =>
    exact forall_mem_cons.mpr ⟨fun _ => subset_reachable seen,ih⟩
  | case3 live id work _ _ ih =>
    grind [subset_reachable]
  | case4 live id work _ unknown ih =>
    exact forall_mem_cons.mpr ⟨fun known => absurd known unknown,ih⟩

theorem reachable_closed
    (closed : ∀ id ∈ live, ∀ c ∈ calleesOf functions id, c ∈ functions.map FunctionCode.id → c ∈ live ∨ c ∈ work) :
    ∀ id ∈ reachable functions live work, ∀ c ∈ calleesOf functions id,
      c ∈ functions.map FunctionCode.id → c ∈ reachable functions live work := by
  fun_induction reachable functions live work with
  | case1 =>
    exact fun id mem c called known => (closed id mem c called known).resolve_right (by simp)
  | case2 live id work seen ih =>
    grind
  | case3 live id work _ _ ih =>
    grind
  | case4 live id work _ unknown ih =>
    grind

theorem calleesOf_eq (unique : (functions.map FunctionCode.id).Nodup) {f : FunctionCode}
    (mem : f ∈ functions) : calleesOf functions f.id = f.callees := by
  have last : ∀ g ∈ (functions.filter fun g => g.id == f.id).getLast?, g = f := by
    intro g here
    obtain ⟨there,same⟩ := mem_filter.mp (mem_of_getLast? here)
    exact inj_on_of_nodup_map unique there mem (by simpa using same)
  unfold calleesOf
  split
  · rename_i g found
    rw [last g found]
  · rename_i none
    rw [getLast?_eq_none_iff,filter_eq_nil_iff] at none
    exact absurd (none f mem) (by simp)

theorem Part.Whole.mem_results {f : FunctionCode} (whole : (Part.function f).Whole) : f.id ∈ results f.code := by
  obtain ⟨_,last,split,⟨head,inside,rfl,-,defines,-⟩,-⟩ := whole
  exact Bytecode.mem_results.mpr ⟨head,by simp [split],defines⟩

theorem nodup_functions {ps : List Part} (whole : ∀ p ∈ ps, p.Whole) (unique : (results (ps.flatMap Part.code)).Nodup) :
    ((ps.filterMap Part.function?).map FunctionCode.id).Nodup := by
  induction ps with
  | nil => exact nodup_nil
  | cons p ps ih =>
    rw [forall_mem_cons] at whole
    rw [flatMap_cons,results_append,nodup_append] at unique
    have rest := ih whole.2 unique.2.1
    cases p with
    | outside i => exact rest
    | function f =>
      refine nodup_cons.mpr ⟨fun mem => ?_,rest⟩
      obtain ⟨g,here,same⟩ := mem_map.mp mem
      obtain ⟨p,there,is⟩ := mem_filterMap.mp here
      cases p with
      | outside i => cases is
      | function g' =>
        cases is
        refine unique.2.2 f.id whole.1.mem_results g.id ?_ same.symm
        exact filterMap_subset _ (fun i inside => mem_flatMap.mpr ⟨_,there,inside⟩) (whole.2 _ there).mem_results

end Pass

namespace Outline

variable {t : Outline}

theorem functions_ids : t.functions.map FunctionCode.id = t.routines.map Routine.id := by
  simp [functions]

theorem Valid.entryPoint (valid : t.Valid) : ∃ i ∈ t.outside, i.op = .entryPoint ∧
    i.operands.head? = some (i.operand 0) ∧ kindOf t.code (i.operand 0) = some .function ∧
      t.outside.filter (fun i => i.op == .entryPoint) = [i] := by
  obtain ⟨i,only⟩ := length_eq_one_iff.mp valid.entry
  have mem : i ∈ t.outside.filter fun i => i.op == .entryPoint := by simp [only]
  obtain ⟨here,op⟩ := mem_filter.mp mem
  have op : i.op = .entryPoint := by simpa using op
  have function := valid.annotations i here
  unfold Instruction.Annotates at function
  rw [op] at function
  refine ⟨i,here,op,?_,function,only⟩
  obtain ⟨_,operands⟩ := i
  cases operands with
  | nil =>
    have defined := (kindOf_isSome valid.unique).mp (by rw [function]; rfl)
    exact absurd defined valid.nonzero
  | cons x _ => rfl

theorem Valid.entry?_code (valid : t.Valid) (shaped : t.Shaped) :
    ∃ r ∈ t.routines, entry? t.code = some r.id ∧
      ∀ i ∈ t.outside, i.op = .entryPoint → i.operand 0 = r.id := by
  obtain ⟨i,-,-,head,function,only⟩ := valid.entryPoint
  obtain ⟨r,routine,same⟩ := shaped.routine_of_kindOf valid.unique function
  refine ⟨r,routine,?_,fun j outside entry => ?_⟩
  · grind [code,head?_filter, entry?]
  · have : j ∈ t.outside.filter fun i => i.op == .entryPoint :=
      mem_filter.mpr ⟨outside,by simpa using entry⟩
    rw [only,mem_singleton] at this
    rw [this,same]

def live (t : Outline) : List Id := reachable t.functions [] <| Option.toList <| entry? t.code

def keep (t : Outline) (live : List Id) : Outline :=
  { t with routines := t.routines.filter fun r => live.contains r.id }

theorem mem_keep {live : List Id} : r ∈ (t.keep live).routines ↔ r ∈ t.routines ∧ r.id ∈ live := by
  simp [keep]

theorem filter_pieces (live : List Id) :
    t.pieces.filter (fun p => p.function?.all fun f => live.contains f.id) = (t.keep live).pieces := by
  have outside : (t.outside.map Part.outside).filter
      (fun p => p.function?.all fun f => live.contains f.id) = t.outside.map Part.outside :=
    filter_eq_self.mpr (forall_mem_map.mpr fun _ _ => rfl)
  rw [pieces,filter_append,outside,filter_map]
  rfl

section

variable (valid : t.Valid) (shaped : t.Shaped)
include valid shaped

theorem Valid.dropDeadFunctions_code :
    (dropDeadFunctions t.code).map Outcome.code = .ok (t.keep t.live).prune.code := by
  obtain ⟨r,-,entry,-⟩ := valid.entry?_code shaped
  have live : reachable t.functions [] [r.id] = t.live := by rw [Outline.live,entry]; rfl
  have trimmed : (t.keep t.live).Shaped :=
    ⟨shaped.outside,fun r mem => shaped.routines r (mem_keep.mp mem).1⟩
  rw [dropDeadFunctions,entry]
  simp only [shaped.parts_code,Except.ok_bind,functions_pieces,live,partition_eq_filter_filter]
  split
  · rename_i none
    have all : t.keep t.live = t := by
      have : t.routines.filter (fun r => t.live.contains r.id) = t.routines := by
        refine filter_eq_self.mpr fun r mem => ?_
        have kept := filter_eq_nil_iff.mp (isEmpty_iff.mp none) r.part
          (mem_append_right _ (mem_map_of_mem mem))
        simpa [part,Part.function?] using kept
      rw [keep,this]
    rw [all,valid.prune_eq]
    rfl
  · rw [filter_pieces,flatMap_pieces,trimmed.dropStaleAnnotations_code]
    rfl

theorem Valid.live_closed (routine : r ∈ t.routines) (reached : r.id ∈ t.live) {i : Instruction}
    (mem : i ∈ r.code) {c : Id} (called : i.callee? = some c) :
    ∃ r' ∈ t.routines, r'.id = c ∧ c ∈ t.live := by
  obtain ⟨r',routine',same⟩ := valid.routine_of_callee shaped routine mem called
  refine ⟨r',routine',same,reachable_closed (by simp) r.id reached c ?_ ?_⟩
  · have unique : (t.functions.map FunctionCode.id).Nodup := by
      obtain ⟨whole,same⟩ := parts_eq_ok.mp shaped.parts_code
      exact t.functions_pieces ▸ nodup_functions whole (same ▸ valid.unique)
    have known : ⟨r.id,r.code⟩ ∈ t.functions := mem_map_of_mem routine
    rw [calleesOf_eq unique known]
    exact mem_filterMap.mpr ⟨i,mem,called⟩
  · rw [functions_ids,← same]
    exact mem_map_of_mem routine'

theorem Valid.keep_trims (inside : t.Scoped) : (t.keep t.live).Trims t := by
  have sub : (t.keep t.live).routines.Sublist t.routines := filter_sublist
  refine ⟨rfl,⟨shaped.outside,fun r m => shaped.routines r (sub.subset m)⟩,?_,
    fun r m i here => ⟨r,sub.subset m,here⟩,fun r m => valid.jumps r (sub.subset m),?_,?_⟩
  · exact (Sublist.refl _).append (sub.flatMap _)
  · refine closed_of_scoped (fun r m => inside.heads r (sub.subset m))
      (fun r m => inside.bodies r (sub.subset m)) fun r m i here c called => ?_
    obtain ⟨routine,reached⟩ := mem_keep.mp m
    obtain ⟨r',routine',rfl,live⟩ := valid.live_closed shaped routine reached here called
    have kept : r' ∈ (t.keep t.live).routines := mem_keep.mpr ⟨routine',live⟩
    refine results_subset kept ?_
    rw [results_code (shaped.routines r' routine')]
    exact mem_cons_self
  · intro i mem op
    obtain ⟨r,routine,entry,same⟩ := valid.entry?_code shaped
    have reached : r.id ∈ t.live := by
      rw [live,entry]
      exact mem_reachable_of_work _ (by simp) (functions_ids ▸ mem_map_of_mem routine)
    have kept : r ∈ (t.keep t.live).routines := mem_keep.mpr ⟨routine,reached⟩
    rw [same i mem op]
    refine results_subset kept ?_
    rw [results_code (shaped.routines r routine)]
    exact mem_cons_self

end

end Outline

end Shading.Bytecode
