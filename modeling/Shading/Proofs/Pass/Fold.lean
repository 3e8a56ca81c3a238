import Mathlib
import Shading.Proofs.Pass.Folding

/-! A module after constant folding: new constants stand before the functions, and the functions are
without what was computed. It is valid and has the same decorations. -/
namespace Shading.Bytecode
open List Pass Routine

variable {r x : Id} {i : Instruction}

namespace Outline

variable {t : Outline}

def inside (t : Outline) : List Instruction := t.routines.flatMap Routine.code

def learned (t : Outline) : Folding := t.outside.foldl Folding.learn { nextId := maxId t.code + 1 }

def folding (t : Outline) : Folding := (t.learned.run t.inside).2

/-- The module with constant operations computed. -/
def fold (t : Outline) : Outline where
  outside := t.outside ++ t.folding.added
  routines := t.routines.map fun r => (r.filter t.folding.keeps).rename t.folding.subst

theorem Shaped.isLearned_inside (shaped : t.Shaped) : ∀ i ∈ t.inside, Folding.isLearned i.op = false := by
  intro i mem
  obtain ⟨r,routine,here⟩ := mem_flatMap.mp mem
  have shaped := shaped.routines r routine
  simp only [Routine.code,cons_append,mem_cons,mem_append,not_mem_nil,or_false] at here
  rcases here with rfl | (param | body) | rfl
  · rw [shaped.head]
    rfl
  · rw [shaped.params i param]
    rfl
  · have body := shaped.body.isBody i body
    obtain ⟨op,operands⟩ := i
    cases op <;> first | rfl | exact absurd body Bool.false_ne_true
  · rfl

theorem Valid.continues (valid : t.Valid) (shaped : t.Shaped) :
    Folding.Continues (results t.outside) t.inside := by
  have ordered := valid.ordered
  have unique := valid.unique
  rw [code,ordered_append] at ordered
  rw [code,results_append,nodup_append] at unique
  rw [append_nil] at ordered
  refine ⟨ordered.2,unique.2.1,fun x mem before => ?_,shaped.isLearned_inside,fun i mem => ?_⟩
  · exact unique.2.2 x before x mem rfl
  · obtain ⟨r,routine,here⟩ := mem_flatMap.mp mem
    exact (shaped.routines r routine).states i here

theorem learned_keyed (ids : List Id) : t.learned.Keyed ids := by
  intro x _
  rw [learned,(Folding.foldl_learn_frame _ _).1]
  rfl

theorem learned_sound : t.learned.Sound t.outside := by
  have start : ({ nextId := maxId t.code + 1 } : Folding).Sound [] := by
    constructor <;> intros <;> contradiction
  exact start.foldl_learn rfl

theorem insertConstants_code (added : List Instruction) {outside : List Instruction} {routines : List Routine}
    (declared : ∀ i ∈ outside, i.op.isOutside = true) (shaped : ∀ r ∈ routines, r.Shaped) :
    insertConstants added (outside ++ routines.flatMap Routine.code) =
      outside ++ added ++ routines.flatMap Routine.code := by
  induction outside with
  | nil =>
    cases routines with
    | nil => simp [insertConstants]
    | cons r routines =>
      have head := (forall_mem_cons.mp shaped).1.head
      simp [Routine.code,insertConstants,head]
  | cons i outside ih =>
    rw [forall_mem_cons] at declared
    have other : i.op ≠ .function := by
      intro op
      rw [op] at declared
      exact absurd declared.1 Bool.false_ne_true
    simp only [cons_append,insertConstants,if_neg other,ih declared.2]

theorem Shaped.folding_sound (shaped : t.Shaped) : t.folding.Sound t.outside :=
  learned_sound.run shaped.isLearned_inside

section

variable (valid : t.Valid) (shaped : t.Shaped)
include valid shaped

theorem Valid.folds {v : Id} (found : t.folding.replaced.lookup r = some v) :
    ∃ i ∈ t.inside, i.result? = some r ∧
      Folds (t.outside ++ t.folding.added) (t.folding.rename i) v := by
  have defined : r ∈ results t.inside := by
    refine Decidable.byContradiction fun absent => ?_
    rw [folding,Folding.lookup_run shaped.isLearned_inside absent,learned_keyed [] r (by simp)] at found
    cases found
  obtain ⟨i,mem,result⟩ := mem_results.mp defined
  exact ⟨i,mem,result,
    Folding.run_folds learned_sound (learned_keyed _) (valid.continues shaped) i mem r v result found⟩

section

variable (mem : i ∈ t.code) (result : i.result? = some r) (other : i.op.isComputed = false)
include mem result other

theorem Valid.lookup_eq_none : t.folding.replaced.lookup r = none := by
  cases found : t.folding.replaced.lookup r with
  | none => rfl
  | some v =>
    obtain ⟨j,here,result',folds⟩ := valid.folds shaped found
    have same := definition?_of_mem valid.unique mem result
    rw [definition?_of_mem valid.unique (mem_append_right _ here) result'] at same
    have computed : j.op.isComputed = true := folds.isComputed
    rw [Option.some.inj same,other] at computed
    cases computed

theorem Valid.subst_eq_self : t.folding.subst r = r :=
  Folding.subst_of_lookup_none (valid.lookup_eq_none shaped mem result other)

end

theorem Valid.keeps_outer :
    ∀ r ∈ t.routines, ∀ i ∈ r.head :: r.params, t.folding.keeps i = true := by
  intro r routine i mem
  refine Folding.keeps_of_lookup_none fun x result => ?_
  have here : i ∈ r.code := by
    grind [Routine.code]
  refine valid.lookup_eq_none shaped (mem_code.mpr (.inr ⟨r,routine,here⟩)) result ?_
  have shaped := shaped.routines r routine
  rcases mem_cons.mp mem with rfl | param
  · rw [shaped.head]
    rfl
  · rw [shaped.params i param]
    rfl

theorem Valid.fold_inside :
    t.fold.inside = (t.inside.filter t.folding.keeps).map (renameIds t.folding.subst) := by
  rw [inside,inside,flatMap_code_filter (fun i _ none => by simp [Folding.keeps,none])
    (valid.keeps_outer shaped),map_flatMap,fold,flatMap_map,flatMap_map]
  simp only [Routine.code_rename]

theorem Valid.foldScalars_code : (foldScalars t.code).map Outcome.code = .ok t.fold.code := by
  have run : ({ nextId := maxId t.code + 1 } : Folding).run t.code =
      (t.outside ++ t.fold.inside, t.folding) := by
    have first : ({ nextId := maxId t.code + 1 } : Folding).run (t.outside ++ t.inside) =
        (t.outside ++ (t.learned.run t.inside).1, t.folding) := by
      rw [Folding.run_append,Folding.run_outside rfl shaped.outside]
      rfl
    rw [valid.fold_inside shaped,folding,← Folding.run_code (learned_keyed _) (valid.continues shaped)]
    exact first
  have shaped' : ∀ r ∈ t.fold.routines, r.Shaped := by
    intro r mem
    obtain ⟨q,origin,rfl⟩ := mem_map.mp mem
    exact ((shaped.routines q origin).filter _).rename _
  have inserted := insertConstants_code t.folding.added shaped.outside shaped'
  simp only [foldScalars,run]
  split
  · rename_i none
    have none : t.folding.added = [] := by simpa using none
    rw [none,append_nil] at inserted
    simp [Except.map,code,fold,none,inside]
  · exact congrArg Except.ok inserted

theorem Valid.results_fold_inside :
    results t.fold.inside = results (t.inside.filter t.folding.keeps) := by
  rw [valid.fold_inside shaped,results_map_renameIds]
  refine (map_congr_left fun r mem => ?_).trans (map_id _)
  obtain ⟨i,here,result⟩ := mem_results.mp mem
  have kept := (mem_filter.mp here).2
  rw [Folding.keeps,result] at kept
  exact Folding.subst_of_lookup_none (by simpa using kept)

end

theorem Shaped.folding_numbered (shaped : t.Shaped) :
    t.folding.Numbered ((maxId t.code).toNat + 1) := by
  obtain ⟨-,added,next⟩ := Folding.foldl_learn_frame t.outside { nextId := maxId t.code + 1 }
  refine Folding.Numbered.run ?_ shaped.isLearned_inside
  refine ⟨?_,?_⟩
  · rw [learned,next,added]
    simp [UInt32.ofNat_add]
  · rw [learned,added]
    rfl

theorem Shaped.folding_length (shaped : t.Shaped) :
    t.folding.added.length + (t.learned.run t.inside).1.length ≤ t.inside.length := by
  obtain ⟨-,added,-⟩ := Folding.foldl_learn_frame t.outside { nextId := maxId t.code + 1 }
  have counted := (Folding.added_run (s := t.learned) shaped.isLearned_inside).2
  rw [learned,added,length_nil,Nat.zero_add] at counted
  exact counted

def Roomy (t : Outline) : Prop := (maxId t.code).toNat + 1 + t.inside.length ≤ 2 ^ 32

theorem Roomy.fresh (room : t.Roomy) (shaped : t.Shaped) : (results t.folding.added).Nodup ∧
      ∀ x ∈ results t.folding.added, (maxId t.code).toNat < x.toNat := by
  have length := shaped.folding_length
  have room : (maxId t.code).toNat + 1 + t.inside.length ≤ 2 ^ 32 := room
  rw [shaped.folding_numbered.2]
  have toNat : ∀ n ∈ List.range' ((maxId t.code).toNat + 1) t.folding.added.length,
      (UInt32.ofNat n).toNat = n := by
    intro n mem
    rw [mem_range'_1] at mem
    exact Nat.mod_eq_of_lt (by omega)
  grind [List.Pairwise.imp_of_mem,nodup_range']

theorem fold_code : t.fold.code = t.outside ++ t.folding.added ++ t.fold.inside := rfl

section

variable (valid : t.Valid) (shaped : t.Shaped) (room : t.Roomy)
include valid shaped room

theorem Valid.nodup_fold : (results t.fold.code).Nodup := by
  have unique := valid.unique
  have sub : (results t.fold.inside).Sublist (results t.inside) := by
    rw [valid.results_fold_inside shaped]
    exact Sublist.filterMap _ filter_sublist
  have old : ∀ x ∈ results t.outside ++ results t.inside, x.toNat ≤ (maxId t.code).toNat := by
    rw [← results_append]
    exact fun x mem => le_maxId mem
  obtain ⟨added,new⟩ := room.fresh shaped
  rw [code,results_append,nodup_append] at unique
  obtain ⟨outside,inside,apart⟩ := unique
  rw [fold_code,results_append,results_append,nodup_append,nodup_append]
  refine ⟨⟨outside,added,?_⟩,sub.nodup inside,?_⟩
  · rintro x here y there rfl
    have := old x (mem_append_left _ here)
    have := new x there
    omega
  · rintro x here y there rfl
    rcases mem_append.mp here with here | here
    · exact apart x here x (sub.subset there) rfl
    · have := old x (mem_append_right _ (sub.subset there))
      have := new x here
      omega

theorem Valid.kindOf_fold {d : Instruction} (mem : d ∈ t.code) (result : d.result? = some x)
    (other : d.op.isComputed = false) : kindOf t.fold.code x = some d.op := by
  have unique := valid.nodup_fold shaped room
  have absent := valid.lookup_eq_none shaped mem result other
  rcases mem_append.mp mem with outside | inside
  · refine kindOf_of_mem unique ?_ result
    rw [fold_code,List.append_assoc]
    exact mem_append_left _ outside
  · have kept : t.folding.keeps d = true := by simp [Folding.keeps,result,absent]
    refine kindOf_of_mem unique (d := renameIds t.folding.subst d) ?_ ?_
    · rw [fold_code,valid.fold_inside shaped]
      exact mem_append_right _ (mem_map_of_mem (mem_filter.mpr ⟨inside,kept⟩))
    · rw [result?_renameIds,result,Option.map_some,Folding.subst_of_lookup_none absent]

theorem Valid.kindOf_fold_eq {op : Opcode} (known : kindOf t.code x = some op)
    (other : op.isComputed = false) : kindOf t.fold.code x = some op ∧ t.folding.subst x = x := by
  obtain ⟨d,mem,result,rfl⟩ := (kindOf_eq_some valid.unique).mp known
  exact ⟨valid.kindOf_fold shaped room mem result other,valid.subst_eq_self shaped mem result other⟩

end

end Outline

theorem Pass.Folding.Continues.ordered_fold {F : Folding} {code : List Instruction} (fixed : List Id) :
    ∀ {defined defined' : List Id}, Continues defined code → (∀ x ∈ defined, F.subst x ∈ defined') →
      fixed ⊆ defined' →
      (∀ i ∈ code, ∀ r v, i.result? = some r → F.replaced.lookup r = some v →
        v ∈ (F.rename i).references ∨ v ∈ fixed) →
      Ordered defined' ((code.filter F.keeps).map (renameIds F.subst)) := by
  induction code with
  | nil => exact fun _ _ _ _ => trivial
  | cons i code ih =>
    intro defined defined' continues mapped constants replaced
    rw [forall_mem_cons] at replaced
    have mentioned := continues.ordered.1 (continues.states i mem_cons_self)
    rw [filter_cons]
    cases kept : F.keeps i with
    | true =>
      refine ⟨fun _ x renamed => ?_,ih continues.tail (fun x mem => ?_) ?_ replaced.2⟩
      · obtain ⟨y,before,rfl⟩ := mem_references_renameIds.mp renamed
        exact mapped y (mentioned before)
      · grind [result?_renameIds]
      · exact Subset.trans constants (subset_append_right _ _)
    | false =>
      refine ih continues.tail (fun x mem => ?_) constants replaced.2
      rcases mem_append.mp mem with result | before
      · have result : i.result? = some x := by
          cases result' : i.result? <;> simp_all
        have found : ∃ v, F.replaced.lookup x = some v := by
          rw [keeps,result,Option.all_some,Option.isNone_eq_false_iff] at kept
          exact Option.isSome_iff_exists.mp kept
        obtain ⟨v,found⟩ := found
        rw [subst,found,Option.getD_some]
        rcases replaced.1 x v result found with renamed | constant
        · obtain ⟨y,before,same⟩ := mem_references_renameIds.mp renamed
          have known := mentioned before
          have other : some y ≠ i.result? := by
            intro eq
            exact (continues.result eq.symm).1 known
          rw [if_neg other] at same
          rw [← same]
          exact mapped y known
        · exact constants constant
      · exact mapped x before

namespace Outline

variable {t : Outline}

theorem Shaped.references_added (shaped : t.Shaped) :
    ∀ i ∈ t.folding.added, i.references ⊆ results t.outside := by
  intro i mem
  obtain ⟨ty,x,word,kind,rfl,typed⟩ := shaped.folding_sound.added i mem
  have only : (⟨.constant,[ty,x,word]⟩ : Instruction).references = [ty] := rfl
  rw [only,cons_subset]
  exact ⟨typed.mem_results,nil_subset _⟩

theorem Valid.ordered_fold (valid : t.Valid) (shaped : t.Shaped) : Ordered [] t.fold.code := by
  have ordered := valid.ordered
  rw [code,ordered_append] at ordered
  rw [fold_code,ordered_append,ordered_append,valid.fold_inside shaped]
  have outside : ∀ x ∈ results t.outside, t.folding.subst x = x := by
    intro x mem
    obtain ⟨i,here,result⟩ := mem_results.mp mem
    refine valid.subst_eq_self shaped (mem_append_left _ here) result ?_
    have declared := shaped.outside i here
    obtain ⟨op,operands⟩ := i
    cases op <;> first | rfl | exact absurd declared Bool.false_ne_true
  refine ⟨⟨ordered.1,Ordered.of_closed fun i mem _ => ?_⟩,?_⟩
  · rw [append_nil]
    exact shaped.references_added i mem
  · rw [append_nil,results_append]
    refine Folding.Continues.ordered_fold (results (t.outside ++ t.folding.added)) (valid.continues shaped)
      (fun x mem => ?_) (by rw [results_append]; exact Subset.refl _) fun i mem r v result found => ?_
    · rw [outside x mem]
      exact mem_append_left _ mem
    · exact (Folding.run_folds learned_sound (learned_keyed _) (valid.continues shaped) i mem r v
        result found).mem

theorem Shaped.op_added (shaped : t.Shaped) : ∀ i ∈ t.folding.added, i.op = .constant := by
  intro i mem
  obtain ⟨ty,x,word,kind,rfl,-⟩ := shaped.folding_sound.added i mem
  rfl

theorem Shaped.fold (shaped : t.Shaped) : t.fold.Shaped := by
  refine ⟨forall_mem_append.mpr ⟨shaped.outside,fun i mem => ?_⟩,fun r mem => ?_⟩
  · rw [shaped.op_added i mem]
    rfl
  · obtain ⟨q,origin,rfl⟩ := mem_map.mp mem
    exact ((shaped.routines q origin).filter _).rename _

section

variable (valid : t.Valid) (shaped : t.Shaped) (room : t.Roomy)
  (named : ∀ i ∈ t.outside, i.op = .debugName → ∃ d ∈ t.code, d.result? = some (i.operand 0) ∧ d.op.isNamed = true)
include valid shaped room named

theorem Valid.annotates_fold : ∀ i ∈ t.outside, i.Annotates (kindOf t.fold.code) := by
  intro i mem
  have annotates := valid.annotations i mem
  revert annotates
  unfold Instruction.Annotates
  split
  · exact fun function => (valid.kindOf_fold_eq shaped room function rfl).1
  · rintro ⟨var,known⟩
    exact ⟨(valid.kindOf_fold_eq shaped room var rfl).1,known⟩
  · rename_i op
    rintro ⟨-,text⟩
    obtain ⟨d,here,result,isNamed⟩ := named i mem op
    have other : d.op.isComputed = false := by
      obtain ⟨op,operands⟩ := d
      cases op <;> first | rfl | exact absurd isNamed Bool.false_ne_true
    rw [valid.kindOf_fold shaped room here result other]
    exact ⟨rfl,text⟩
  · exact id

theorem Valid.fold : t.fold.Valid := by
  have zero : kindOf t.code 0 = none := kindOf_of_not_mem valid.nonzero
  have asked : ∀ op : Opcode, op.isAsked = true → op.isComputed = false := by
    intro op asked
    cases op <;> first | rfl | exact absurd asked Bool.false_ne_true
  refine ⟨valid.nodup_fold shaped room,fun mem => ?_,valid.ordered_fold shaped,
    forall_mem_append.mpr ⟨valid.annotates_fold shaped room named,fun i mem => ?_⟩,
    forall_mem_append.mpr ⟨fun i mem => ?_,fun i mem => ?_⟩,fun r routine i mem => ?_,
    fun r routine => ?_,?_⟩
  · rw [fold_code,results_append,results_append,valid.results_fold_inside shaped] at mem
    have nonzero := valid.nonzero
    rw [code,results_append] at nonzero
    rcases mem_append.mp mem with mem | inside
    · grind [Roomy.fresh]
    · exact nonzero (mem_append_right _ ((Sublist.filterMap _ filter_sublist).subset inside))
  · obtain ⟨ty,x,word,kind,rfl,-⟩ := shaped.folding_sound.added i mem
    trivial
  · have renamed : (renameIds id i).Fits (kindOf t.fold.code) false :=
      (valid.outside i mem).rename zero fun x _ op isAsked known =>
        (valid.kindOf_fold_eq shaped room known (asked op isAsked)).1
    rwa [renameIds_id] at renamed
  · obtain ⟨ty,x,word,kind,rfl,d,here,declared⟩ := shaped.folding_sound.added i mem
    have defines : d.result? = some ty ∧ d.op.isType = true := by
      obtain ⟨op,operands⟩ := d
      unfold Instruction.scalar? at declared
      split at declared
      iterate 3
        · rename_i first second
          cases first
          cases second
          cases declared
          exact ⟨rfl,rfl⟩
      · cases declared
    have other : d.op.isComputed = false := asked d.op (by simp [Opcode.isAsked,defines.2])
    have kind := valid.kindOf_fold shaped room (mem_append_left _ here) defines.1 other
    refine ⟨fun t ofType => ?_,trivial⟩
    obtain rfl : ty = t := Option.some.inj ofType
    rw [kind]
    exact ⟨defines.2,fun pointer => absurd pointer Bool.false_ne_true⟩
  · obtain ⟨q,origin,rfl⟩ := mem_map.mp routine
    rw [Routine.code_rename,code_filter (fun i _ none => by simp [Folding.keeps,none])
      (valid.keeps_outer shaped q origin)] at mem
    obtain ⟨j,kept,rfl⟩ := mem_map.mp mem
    refine (valid.routines q origin j (mem_filter.mp kept).1).rename zero
      fun x _ op isAsked known => ?_
    obtain ⟨kind,same⟩ := valid.kindOf_fold_eq shaped room known (asked op isAsked)
    rw [same,kind]
  · obtain ⟨q,origin,rfl⟩ := mem_map.mp routine
    exact (valid.jumps q origin).filter.rename
  · have none : t.folding.added.filter (fun i => i.op == .entryPoint) = [] := by
      grind [filter_eq_nil_iff,Shaped.folding_sound,Folding.Sound.added]
    rw [Outline.fold,filter_append,none,append_nil]
    exact valid.entry

end

theorem Shaped.decorations_fold (shaped : t.Shaped) : decorations t.fold.code = decorations t.code := by
  have plain := shaped.op_added
  have none : ∀ op : Opcode, op ≠ .constant → ∀ q : Instruction → Bool,
      t.folding.added.filter (fun i => i.op == op && q i) = [] := by
    intro op other q
    refine filter_eq_nil_iff.mpr fun i mem => ?_
    simp [plain i mem,other.symm]
  have names : ∀ x, nameOf? t.fold.outside x = nameOf? t.outside x := by
    intro x
    rw [nameOf?,Outline.fold,filter_append,none _ (by decide),append_nil]
    rfl
  have decorated : t.fold.outside.filter (fun i => i.op == .decorate) =
      t.outside.filter fun i => i.op == .decorate := by
    have := none .decorate (by decide) fun _ => true
    simp only [Bool.and_true] at this
    rw [Outline.fold,filter_append,this,append_nil]
  rw [shaped.fold.decorations_code,shaped.decorations_code,decorations,decorated,decorations]
  simp only [names]

end Outline

end Shading.Bytecode
