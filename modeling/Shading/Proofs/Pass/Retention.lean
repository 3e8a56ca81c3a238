import Shading.Proofs.Bytecode.Presentation
import Shading.Proofs.Pass.Pipeline

/-! The passes keep the variables of a module: none is added or dropped, they stay in their order, and
each keeps its type, its names and its decorations, though ids may change. -/
namespace Shading.Bytecode
open List Pass Instruction

theorem renameIds_renameIds (f g : Id → Id) (i : Instruction) :
    renameIds g (renameIds f i) = renameIds (g ∘ f) i := by
  have same : (renameIds g (renameIds f i)).operands = (renameIds (g ∘ f) i).operands := by
    apply ext_getElem?
    intro p
    simp only [getElem?_renameIds,refersAt_renameIds,resultPosition?_renameIds,Option.map_map]
    grind
  exact congrArg (mk i.op) same

namespace Outline

variable {t t' u : Outline} {f g : Id → Id}

/-- What stands outside of functions stands there again under other ids, as far as variables go. -/
structure Retains (f : Id → Id) (t t' : Outline) : Prop where
  vars : t'.outside.filter (fun i => i.op == .var) =
    (t.outside.filter fun i => i.op == .var).map (renameIds f)
  types : ∀ i ∈ t.outside, i.op.isType = true → renameIds f i ∈ t'.outside
  defined : ∀ x ∈ results t.outside, f x ∈ results t'.outside
  notes : ∀ x ∈ results t.outside, notesOn t'.outside (f x) = notesOn t.outside x

theorem Retains.trans (first : Retains f t t') (second : Retains g t' u) : Retains (g ∘ f) t u where
  vars := by
    rw [second.vars,first.vars,map_map]
    exact congrFun (congrArg List.map (funext fun i => renameIds_renameIds f g i)) _
  types i mem type := by
    rw [← renameIds_renameIds]
    exact second.types _ (first.types i mem type) type
  defined x mem := second.defined _ (first.defined x mem)
  notes x mem := (second.notes _ (first.defined x mem)).trans (first.notes x mem)

theorem retains_filter {p : Instruction → Bool} {routines : List Routine}
    (states : ∀ i, i.op.isNote = false → p i = true)
    (kept : ∀ x ∈ results t.outside, ∀ i ∈ t.outside, i.isNoteOn x = true → p i = true) :
    Retains id t ⟨t.outside.filter p, routines⟩ where
  vars := by
    rw [filter_filter,map_congr_left fun i _ => renameIds_id,map_id']
    refine filter_congr fun i _ => ?_
    by_cases var : i.op = .var
    · simp [var,states i (by rw [var]; rfl)]
    · simp [var]
  types i mem type := by
    have states := states i (by obtain ⟨op,_⟩ := i; cases op <;> first | rfl | cases type)
    rw [renameIds_id]
    exact mem_filter.mpr ⟨mem,states⟩
  defined x mem := by
    obtain ⟨i,here,result⟩ := mem_results.mp mem
    have states := states i (by obtain ⟨op,_⟩ := i; cases op <;> first | rfl | cases result)
    exact mem_results.mpr ⟨i,mem_filter.mpr ⟨here,states⟩,result⟩
  notes x mem := notesOn_filter (kept x mem)

theorem Trims.retains (trims : t'.Trims t) : Retains id t t'.prune := by
  have outside : results t.outside ⊆ results t'.code := by
    rw [code,results_append,trims.outside]
    exact subset_append_left _ _
  have pruned : Retains id t ⟨t.outside.filter (IsFresh (results t'.code)),t'.routines⟩ := by
    refine retains_filter (fun i => isFresh_of_isNote_false) fun x mem i _ note => ?_
    obtain ⟨op | op,head⟩ := isNote_of_isNoteOn note
    · simp [IsFresh,op,head,outside mem]
    · simp [IsFresh,op,head,outside mem]
  rw [← trims.outside] at pruned
  exact pruned

theorem Healthy.retains_legal (healthy : t.Healthy) (inside : t.Scoped) : Retains id t t.legal := by
  obtain ⟨first,-,-,second⟩ := healthy.legal_trims inside
  exact first.retains.trans second.retains

theorem Shaped.retains_fold (shaped : t.Shaped) : Retains id t t.fold := by
  have plain := shaped.op_added
  refine ⟨?_,fun i mem _ => ?_,fun x mem => ?_,fun x _ => ?_⟩
  · have none : t.folding.added.filter (fun i => i.op == .var) = [] := by
      refine filter_eq_nil_iff.mpr fun i mem => ?_
      simp [plain i mem]
    rw [Outline.fold,filter_append,none,append_nil,map_congr_left fun i _ => renameIds_id,map_id']
  · rw [renameIds_id]
    exact mem_append_left _ mem
  · rw [Outline.fold,results_append]
    exact mem_append_left _ mem
  · have none : notesOn t.folding.added x = [] := notesOn_eq_nil fun i mem => by simp [plain i mem]
    rw [Outline.fold,notesOn_append,id,none,append_nil]

theorem Valid.retains_unname (valid : t.Valid) : Retains id t t.unname := by
  refine retains_filter (fun i => namesNone_of_isNote_false) fun x mem i _ note => ?_
  have head := (isNote_of_isNoteOn note).2
  simp [NamesNone,head,valid.not_mem_locals mem]

theorem Valid.retains_rename (valid : t.Valid) (apart : t.Apart f) : Retains f t (t.rename f) where
  vars := by
    rw [Outline.rename,filter_map]
    rfl
  types i mem _ := mem_map_of_mem mem
  defined x mem := by
    rw [Outline.rename,results_map_renameIds]
    exact mem_map_of_mem mem
  notes x mem := by
    refine notesOn_rename fun i here y op head same => apart y ?_ x ?_ same
    · have annotates := valid.annotations i here
      grind [head?_eq_some_iff,operand_eq,Annotates,kindOf_isSome,Valid.unique]
    · rw [code,results_append]
      exact mem_append_left _ mem

theorem Optimized.retains {full : Bool} (optimized : t.Optimized full t') (healthy : t.Healthy)
    (inside : t.Scoped) (room : full = true → t.legal.Roomy ∧ t.code.length < 2 ^ 32) :
    ∃ f, Retains f t t' := by
  have legalized := healthy.retains_legal inside
  cases optimized with
  | legal => exact ⟨id,legalized⟩
  | @full last swept =>
    obtain ⟨room,small⟩ := room rfl
    obtain ⟨-,trims,trimmed,unnamed,length⟩ := swept.stages healthy inside room
    have renamed := unnamed.valid.retains_rename (compact_apart (Nat.lt_of_le_of_lt length small))
    exact ⟨_,(((legalized.trans (healthy.legal inside).1.shaped.retains_fold).trans trims.retains).trans
      trimmed.valid.retains_unname).trans renamed⟩

end Outline

end Shading.Bytecode
