import Shading.Proofs.Pass.DeadCode

/-! What sweeping leaves of any code whose stores say where they store. Sweeps delete by turns what nothing uses and
variables that are only stored to, until none is left; what they leave mentions only what is left. -/
namespace Shading.Bytecode.Pass
open List Instruction

/-- Why an instruction may go from code of which `out` is left. -/
inductive Dispensable (code out : List Instruction) (i : Instruction) : Prop
  | computation (pure : i.op.isPure = true)
  | local_ (own : isLocal i = true)
  | store {d : Instruction} (op : i.op = .store) (mem : d ∈ code) (gone : d ∉ out) (own : isLocal d = true)
      (target : d.result? = some (i.operand 0))
  | annotates (op : i.op = .debugName ∨ i.op = .decorate) (stale : ∀ x ∈ i.operands.head?, x ∉ results out)

/-- What is left is what some test keeps. It mentions what is left, names apart. -/
structure Leaves (code out : List Instruction) : Prop where
  filtered : ∃ keep : Instruction → Bool, out = code.filter keep ∧
    ∀ i ∈ code, keep i = false → Dispensable code out i
  closed : ∀ i ∈ out, i.op ≠ .debugName → ∀ x ∈ i.references, x ∈ results code → x ∈ results out

variable {code mid out : List Instruction} {i : Instruction} {x : Id}

theorem Leaves.sublist (leaves : Leaves code out) : out.Sublist code := by
  obtain ⟨keep,rfl,-⟩ := leaves.filtered
  exact filter_sublist

theorem Leaves.refl (code : List Instruction) : Leaves code code :=
  ⟨⟨fun _ => true,(filter_eq_self.mpr fun _ _ => rfl).symm,nofun⟩,fun _ _ _ _ _ => id⟩

/-- What may go from a part of the code may go from all of it, and still may when more goes. -/
theorem Dispensable.widen {out' : List Instruction} (dispensable : Dispensable mid out i) (whole : mid ⊆ code)
    (less : out' ⊆ out) : Dispensable code out' i := by
  cases dispensable with
  | computation pure => exact .computation pure
  | local_ own => exact .local_ own
  | store op mem gone own target =>
    exact .store op (whole mem) (fun left => gone (less left)) own target
  | annotates op stale =>
    exact .annotates op fun x head left => stale x head (filterMap_subset _ less left)

theorem Leaves.trans (first : Leaves code mid) (second : Leaves mid out) : Leaves code out := by
  have whole := first.sublist.subset
  have less := second.sublist.subset
  obtain ⟨keep,made,dispensed⟩ := first.filtered
  obtain ⟨keep',made',dispensed'⟩ := second.filtered
  refine ⟨⟨fun i => keep i && keep' i,?_,fun i mem dropped => ?_⟩,fun i mem noName x mentioned defined => ?_⟩
  · rw [made',made,filter_filter]
    exact filter_congr fun i _ => Bool.and_comm _ _
  · cases kept : keep i with
    | false => exact (dispensed i mem kept).widen (Subset.refl _) less
    | true =>
      have here : i ∈ mid := made ▸ mem_filter.mpr ⟨mem,kept⟩
      exact (dispensed' i here (by simpa [kept] using dropped)).widen whole (Subset.refl _)
  · exact second.closed i mem noName x mentioned (first.closed i (less mem) noName x mentioned defined)

theorem dispensable_of_keeps (dropped : keeps code i = false) : Dispensable code (sweep code) i := by
  unfold keeps needed at dropped
  split at dropped
  · rename_i store
    have dead : i.operand 0 ∈ deadIn code := by simpa using dropped
    obtain ⟨⟨d,mem,own,result⟩,-⟩ := mem_deadIn.mp dead
    refine .store store mem (fun left => ?_) own result
    have kept : keeps code d = true := (mem_filter.mp left).2
    simp [keeps,needed,op_ne_store_of_result? result,result,own,dead] at kept
  · split at dropped
    · cases dropped
    · split at dropped
      · rename_i own
        exact .local_ own
      · simp only [Bool.not_eq_eq_eq_not,Bool.not_false,Bool.and_eq_true] at dropped
        exact .computation dropped.1

theorem sweep_leaves (full : Targeted code) : Leaves code (sweep code) := by
  refine ⟨⟨keeps code,sweep_eq code,fun i _ => dispensable_of_keeps⟩,fun i mem noName x mentioned defined => ?_⟩
  obtain ⟨here,kept⟩ := mem_filter.mp mem
  obtain ⟨d,there,result⟩ := mem_results.mp defined
  exact mem_results.mpr ⟨d,mem_filter.mpr ⟨there,
    keeps_of_mentioned full here kept noName mentioned result⟩,result⟩

theorem sweepAll_leaves (full : Targeted code) :
    Leaves code (sweepAll code) ∧ ∀ i ∈ sweepAll code, keeps (sweepAll code) i = true := by
  fun_induction sweepAll code with
  | case1 code _ ih =>
    have swept := sweep_leaves full
    obtain ⟨leaves,settled⟩ := ih fun i mem => full i (swept.sublist.subset mem)
    exact ⟨swept.trans leaves,settled⟩
  | case2 code stays =>
    have same : sweep code = code :=
      filter_sublist.eq_of_length_le (Nat.le_of_not_lt stays)
    exact ⟨.refl code,filter_eq_self.mp same⟩

theorem results_dropStaleAnnotations (code : List Instruction) :
    results (dropStaleAnnotations code) = results code :=
  Outline.results_filter_isFresh _ code

theorem not_mem_of_stale {defined : List Id} (stale : i.IsFresh defined = false) (here : x ∈ defined) :
    x ∉ usesOf i ∧ x ∉ targetOf i := by
  obtain ⟨op | op,head⟩ := isFresh_eq_false.mp stale
  · simp [usesOf,targetOf,op]
  · refine ⟨fun used => ?_,by simp [targetOf,op]⟩
    simp only [usesOf,op,reduceCtorEq,if_false] at used
    obtain ⟨p,at',refers⟩ := mem_references.mp used
    obtain rfl : p = 0 := by simpa [refersAt,op] using refers
    exact head x (List.head?_eq_getElem? ▸ at') here

theorem prune_leaves (code : List Instruction) : Leaves code (dropStaleAnnotations code) := by
  refine ⟨⟨IsFresh (results code),rfl,fun i _ stale => ?_⟩,fun i _ _ x _ defined => ?_⟩
  · obtain ⟨op,head⟩ := isFresh_eq_false.mp stale
    exact .annotates op (results_dropStaleAnnotations code ▸ head)
  · rwa [results_dropStaleAnnotations]

/-- Deleting what does not mention an id leaves its uses. -/
theorem count_filter {p : Instruction → Bool} (absent : ∀ i ∈ code, p i = false → x ∉ usesOf i ∧ x ∉ targetOf i) :
    (uses (code.filter p)).count x = (uses code).count x ∧
      (storeTargets (code.filter p)).count x = (storeTargets code).count x := by
  induction code with
  | nil => exact ⟨rfl,rfl⟩
  | cons i code ih =>
    rw [forall_mem_cons] at absent
    obtain ⟨first,second⟩ := ih absent.2
    rw [uses_cons,storeTargets_cons,count_append,count_append,filter_cons]
    split
    · rw [uses_cons,storeTargets_cons,count_append,count_append,first,second]
      exact ⟨rfl,rfl⟩
    · rename_i dropped
      obtain ⟨used,stored⟩ := absent.1 (by simpa using dropped)
      rw [count_eq_zero.mpr used,count_eq_zero.mpr stored,first,second,Nat.zero_add,Nat.zero_add]
      exact ⟨rfl,rfl⟩

theorem keeps_dropStaleAnnotations (mem : i ∈ code) :
    keeps (dropStaleAnnotations code) i = keeps code i := by
  have counts {x : Id} (defined : x ∈ results code) :
      (uses (dropStaleAnnotations code)).count x = (uses code).count x ∧
        (storeTargets (dropStaleAnnotations code)).count x = (storeTargets code).count x :=
    count_filter fun i _ stale => not_mem_of_stale stale defined
  have locals : results ((dropStaleAnnotations code).filter isLocal) = results (code.filter isLocal) := by
    have swapped : (dropStaleAnnotations code).filter isLocal =
        (code.filter isLocal).filter (IsFresh (results code)) := by
      rw [dropStaleAnnotations_eq,filter_filter,filter_filter]
      exact filter_congr fun i _ => Bool.and_comm _ _
    rw [swapped,Outline.results_filter_isFresh]
  have dead : deadIn (dropStaleAnnotations code) = deadIn code := by
    rw [deadIn,deadIn,deadLocals,deadLocals,locals]
    refine filter_congr fun x own => ?_
    have defined : x ∈ results code := (Sublist.filterMap _ filter_sublist).subset own
    rw [(counts defined).1,(counts defined).2]
  unfold keeps needed
  rw [dead]
  split
  · rfl
  · split
    · rfl
    · rename_i x result
      rw [(counts (mem_results.mpr ⟨i,mem,result⟩)).1]

theorem count_usesOf_eq_targetOf (full : i.op = .store → i.operands ≠ [])
    (only : i.op ≠ .debugName → ∀ p, i.operands[p]? = some x → i.refersAt p = true → i.op = .store ∧ p = 0) :
    (usesOf i).count x = (targetOf i).count x := by
  obtain ⟨op,operands⟩ := i
  by_cases store : op = .store
  · cases store
    cases operands with
    | nil => exact absurd rfl (full rfl)
    | cons target rest =>
      obtain ⟨others,split,positions⟩ : ∃ others,
          (⟨.store,target :: rest⟩ : Instruction).references = target :: others ∧
            ∀ y ∈ others, ∃ p, (target :: rest)[p + 1]? = some y ∧
              (⟨.store,target :: rest⟩ : Instruction).refersAt (p + 1) = true := by
        refine ⟨((rest.zipIdx 1).filter fun q => (⟨.store,target :: rest⟩ : Instruction).refersAt q.2).map Prod.fst,
          by simp [references,refersAt,zipIdx_cons],fun y mem => ?_⟩
        obtain ⟨⟨_,p⟩,inside,rfl⟩ := mem_map.mp mem
        obtain ⟨here,refers⟩ := mem_filter.mp inside
        obtain ⟨late,at'⟩ := mk_mem_zipIdx_iff_le_and_getElem?_sub.mp here
        refine ⟨p - 1,at',?_⟩
        rwa [Nat.sub_add_cancel late]
      have absent : others.count x = 0 := by
        refine count_eq_zero.mpr fun mem => ?_
        obtain ⟨p,at',refers⟩ := positions x mem
        cases (only (by simp) _ at' refers).2
      simp [usesOf,targetOf,operand_eq,split,count_cons,absent]
  · have none : x ∉ usesOf ⟨op,operands⟩ := by
      unfold usesOf
      split
      · simp
      · rename_i noName
        intro mentioned
        obtain ⟨p,at',refers⟩ := mem_references.mp mentioned
        exact store (only noName p at' refers).1
    rw [count_eq_zero.mpr none,targetOf,if_neg store,count_nil]

theorem used_of_keeps (full : Targeted code) (mem : i ∈ code) (kept : keeps code i = true)
    (result : i.result? = some x) :
    (i.op.isPure = true → ∃ j ∈ code, j.op ≠ .debugName ∧ x ∈ j.references) ∧
      (isLocal i = true → ∃ j ∈ code, j.op ≠ .debugName ∧
        ∃ p, j.operands[p]? = some x ∧ j.refersAt p = true ∧ (j.op = .store → p ≠ 0)) := by
  simp only [keeps,needed,if_neg (op_ne_store_of_result? result),result] at kept
  refine ⟨fun pure => ?_,fun own => ?_⟩
  · have other : isLocal i = false := by
      rw [isLocal,Bool.and_eq_false_iff]
      refine .inl (beq_eq_false_iff_ne.mpr fun op => ?_)
      rw [op] at pure
      cases pure
    have used : x ∈ uses code := by simpa [other,pure,count_eq_zero] using kept
    exact mem_uses.mp used
  · have alive : x ∉ deadIn code := by simpa [own] using kept
    refine Classical.byContradiction fun unread => ?_
    refine alive (mem_deadIn.mpr ⟨⟨i,mem,own,result⟩,(count_usesOf_eq full).2.mpr fun j here => ?_⟩)
    refine count_usesOf_eq_targetOf (full j here) fun noName p at' refers => ?_
    refine Classical.byContradiction fun other => ?_
    exact unread ⟨j,here,noName,p,at',refers,fun store zero => other ⟨store,zero⟩⟩

/-- The code after the pass: which instructions went, that what is left mentions what is left, and that the pass
finds nothing more in it. -/
theorem dropDeadCode_outcome (full : ∀ i ∈ code, i.op = .store → i.operands ≠ []) :
    ∃ out, (dropDeadCode code).map Outcome.code = .ok out ∧ (dropDeadCode out).map Outcome.code = .ok out ∧
      Leaves code out ∧ ∀ i ∈ out, ∀ x, i.result? = some x →
        (i.op.isPure = true → ∃ j ∈ out, j.op ≠ .debugName ∧ x ∈ j.references) ∧
        (isLocal i = true → ∃ j ∈ out, j.op ≠ .debugName ∧
          ∃ p, j.operands[p]? = some x ∧ j.refersAt p = true ∧ (j.op = .store → p ≠ 0)) := by
  have stable {out : List Instruction} (settled : ∀ i ∈ out, keeps out i = true) :
      (dropDeadCode out).map Outcome.code = .ok out := by
    have same : sweep out = out := filter_eq_self.mpr settled
    rw [dropDeadCode,sweepAll,dif_neg (by simp [same]),if_pos rfl]
    rfl
  obtain ⟨leaves,settled⟩ := sweepAll_leaves full
  by_cases same : (sweepAll code).length = code.length
  · have all : sweepAll code = code := leaves.sublist.eq_of_length same
    rw [all] at settled
    exact ⟨code,stable settled,stable settled,.refl code,
      fun i member x result => used_of_keeps full member (settled i member) result⟩
  · have pruned := leaves.trans (prune_leaves (sweepAll code))
    have settled' : ∀ i ∈ dropStaleAnnotations (sweepAll code),
        keeps (dropStaleAnnotations (sweepAll code)) i = true := by
      intro i member
      have here := (mem_filter.mp member).1
      rw [keeps_dropStaleAnnotations here,settled i here]
    refine ⟨dropStaleAnnotations (sweepAll code),?_,stable settled',pruned,fun i member x result =>
      used_of_keeps (fun j here => full j (pruned.sublist.subset here)) member (settled' i member) result⟩
    rw [dropDeadCode,if_neg same]
    rfl

/-- A local variable that is written, and read where nothing uses it. -/
def unread : List Instruction :=
  [⟨.debugName, [4]⟩, ⟨.typeFloat, [1]⟩, ⟨.typePointer, [2, 4, 1]⟩, ⟨.constant, [1, 3, 0]⟩, ⟨.var, [2, 4, 4]⟩,
    ⟨.store, [4, 3]⟩, ⟨.load, [1, 5, 4]⟩, ⟨.ret, []⟩]

theorem unread_outcome : (∀ i ∈ unread, i.op = .store → i.operands ≠ []) ∧
    ∃ out, (dropDeadCode unread).map Outcome.code = .ok out ∧ Leaves unread out := by
  have full : ∀ i ∈ unread, i.op = .store → i.operands ≠ [] := by decide
  obtain ⟨out,ran,-,leaves,-⟩ := dropDeadCode_outcome full
  exact ⟨full,out,ran,leaves⟩

end Shading.Bytecode.Pass
