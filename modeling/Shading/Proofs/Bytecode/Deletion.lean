import Shading.Bytecode.Optimize
import Shading.Proofs.Bytecode.Definitions

/-! Deleting instructions keeps a module valid, if nothing that is left mentions what was deleted.
Annotations go with the ids that they are about. -/
namespace Shading.Bytecode
open List Pass Instruction

variable {defined : List Id} {b : Block} {code : List Instruction} {i : Instruction}
  {p : Instruction → Bool} {r : Routine}

/-- If all that is left mentions only what is left, deleting does not change the order of definitions
and uses. -/
theorem Ordered.sublist {code' : List Instruction} (sub : code'.Sublist code) :
    ∀ {defined defined' : List Id}, Ordered defined code → (results code).Nodup →
      (∀ x ∈ results code, x ∉ defined) →
      (∀ i ∈ code', i.op.isNote = false → i.references ⊆ defined' ++ results code') →
      Ordered defined' code' := by
  induction sub with
  | slnil => exact fun _ _ _ _ => trivial
  | @cons code' code i _ ih =>
    intro defined defined' ordered unique new closed
    rw [results_cons,nodup_append] at unique
    rw [results_cons] at new
    refine ih ordered.2 unique.2.1 (fun x mem => ?_) closed
    rw [mem_append,not_or]
    exact ⟨fun here => unique.2.2 x here x mem rfl,new x (mem_append_right _ mem)⟩
  | @cons_cons code' code i sub ih =>
    intro defined defined' ordered unique new closed
    have kept : results (i :: code') ⊆ results (i :: code) :=
      (Sublist.filterMap _ (sub.cons_cons i)).subset
    refine ⟨fun states x mem => ?_,?_⟩
    · rcases mem_append.mp (closed i mem_cons_self states mem) with here | later
      · exact here
      · exact absurd (ordered.1 states mem) (new x (kept later))
    · rw [results_cons,nodup_append] at unique
      rw [results_cons] at new
      refine ih ordered.2 unique.2.1 (fun x mem => ?_) fun j mem states => ?_
      · grind
      grind [results_cons]

/-- A name or a decoration of one of the ids, or something else. -/
def Instruction.IsFresh (defined : List Id) (i : Instruction) : Bool :=
  match i.op with
  | .debugName | .decorate => i.operands.head?.any (defined.contains ·)
  | _ => true

variable {i : Instruction}

theorem Instruction.isFresh_eq_false : i.IsFresh defined = false ↔
      (i.op = .debugName ∨ i.op = .decorate) ∧ ∀ x ∈ i.operands.head?, x ∉ defined := by
  obtain ⟨op,operands⟩ := i
  cases op <;> cases operands <;> simp [IsFresh]

theorem dropStaleAnnotations_eq (code : List Instruction) :
    dropStaleAnnotations code = code.filter (IsFresh (results code)) := rfl

theorem Instruction.isFresh_of_isNote_false (states : i.op.isNote = false) :
    i.IsFresh defined = true := by
  obtain ⟨op,operands⟩ := i
  cases op <;> first | rfl | cases states

namespace Outline

variable {t t' : Outline}

def prune (t : Outline) : Outline :=
  { t with outside := t.outside.filter (IsFresh (results t.code)) }

section

variable (shaped : t.Shaped)
include shaped

theorem Shaped.filter_code (annotations : ∀ i, p i = true → i.op.isNote = true) :
    t.code.filter p = t.outside.filter p := by
  have none : (t.routines.flatMap Routine.code).filter p = [] := by
    refine filter_eq_nil_iff.mpr fun i mem holds => ?_
    obtain ⟨r,mem,here⟩ := mem_flatMap.mp mem
    have := (shaped.routines r mem).states i here
    simp [annotations i holds] at this
  rw [code,filter_append,none,append_nil]

theorem Shaped.filter_outside (states : ∀ i : Instruction, i.op.isNote = false → p i = true) :
    t.code.filter p = t.outside.filter p ++ t.routines.flatMap Routine.code := by
  have all : (t.routines.flatMap Routine.code).filter p = t.routines.flatMap Routine.code := by
    refine filter_eq_self.mpr fun i mem => ?_
    obtain ⟨r,mem,here⟩ := mem_flatMap.mp mem
    exact states i ((shaped.routines r mem).states i here)
  rw [code,filter_append,all]

theorem Shaped.dropStaleAnnotations_code : dropStaleAnnotations t.code = t.prune.code := by
  rw [dropStaleAnnotations_eq,shaped.filter_outside fun i => isFresh_of_isNote_false]
  rfl

theorem Shaped.prune : t.prune.Shaped :=
  ⟨fun i m => shaped.outside i (mem_filter.mp m).1,shaped.routines⟩

end

theorem prune_sublist : t.prune.code.Sublist t.code :=
  filter_sublist.append (Sublist.refl _)

theorem results_filter_isFresh (defined : List Id) (l : List Instruction) :
    results (l.filter (IsFresh defined)) = results l := by
  refine results_filter ?_ l
  rintro ⟨op,operands⟩ stale
  cases op <;> first | rfl | cases stale

theorem results_prune : results t.prune.code = results t.code := by
  rw [prune,code,results_append,results_filter_isFresh,← results_append,← code]

/-- The module with instructions of functions deleted: what is left is structured, mentions what is
left, and has the entry point. -/
structure Trims (t' t : Outline) : Prop where
  outside : t'.outside = t.outside
  shaped : t'.Shaped
  sub : t'.code.Sublist t.code
  inside : ∀ r' ∈ t'.routines, ∀ i ∈ r'.code, ∃ r ∈ t.routines, i ∈ r.code
  jumps : ∀ r ∈ t'.routines, r.body.Jumps false
  closed : ∀ r ∈ t'.routines, ∀ i ∈ r.code, i.references ⊆ results t'.code
  entry : ∀ i ∈ t.outside, i.op = .entryPoint → i.operand 0 ∈ results t'.code

end Outline

theorem Ordered.outside {rest : List Instruction} : ∀ {defined : List Id},
    Ordered defined (code ++ rest) →
      ∀ i ∈ code, i.op.isNote = false → i.references ⊆ results code ++ defined := by
  induction code with
  | nil => simp
  | cons i code ih =>
    intro defined ordered
    rw [results_cons]
    refine forall_mem_cons.mpr ⟨fun states => ?_,fun j mem states => ?_⟩
    · exact Subset.trans (ordered.1 states) (subset_append_right _ _)
    · intro x mentioned
      have := ih ordered.2 j mem states mentioned
      simp only [mem_append] at this ⊢
      exact this.elim (fun later => .inl (.inr later)) (Or.imp_left .inl)

theorem Instruction.references_of_isNote (annotates : i.op.isNote = true) :
    i.references ⊆ [i.operand 0] := by
  intro x mem
  obtain ⟨p,at',refers⟩ := mem_references.mp mem
  have first : p = 0 := by
    obtain ⟨op,operands⟩ := i
    cases op <;> first | exact beq_iff_eq.mp refers | cases annotates
  subst first
  simp [operand_eq,getD_eq_getElem?_getD,at']

namespace Outline

variable {t t' : Outline}

theorem Trims.closed_prune (trims : t'.Trims t) (valid : t.Valid) :
    ∀ i ∈ t'.prune.code, i.references ⊆ results t'.prune.code := by
  intro i mem
  rw [results_prune]
  rcases mem_code.mp mem with here | ⟨r,routine,here⟩
  · obtain ⟨here,fresh⟩ := mem_filter.mp here
    rw [trims.outside] at here
    cases annotates : i.op.isNote with
    | false =>
      have ordered := valid.ordered
      intro x mentioned
      have := Ordered.outside ordered i here annotates mentioned
      rw [append_nil] at this
      rw [code,results_append,trims.outside]
      exact mem_append_left _ this
    | true =>
      refine Subset.trans (Instruction.references_of_isNote annotates) ?_
      rw [cons_subset]
      refine ⟨?_,nil_subset _⟩
      by_cases entry : i.op = .entryPoint
      · exact trims.entry i here entry
      · obtain ⟨op,operands⟩ := i
        cases op <;> first | exact absurd rfl entry | cases annotates
        all_goals
          cases operands with
          | nil => cases fresh
          | cons x _ => simpa [IsFresh,operand_eq] using fresh
  · exact trims.closed r routine i here

/-- What is left of a valid module is valid if it mentions only what is left, and has its jumps in loops
and its entry point. -/
theorem Valid.of_sublist (valid : t.Valid) (sub : t'.code.Sublist t.code)
    (outside : ∀ i ∈ t'.outside, i ∈ t.outside)
    (inside : ∀ r' ∈ t'.routines, ∀ i ∈ r'.code, ∃ r ∈ t.routines, i ∈ r.code)
    (jumps : ∀ r ∈ t'.routines, r.body.Jumps false)
    (closed : ∀ i ∈ t'.code, i.references ⊆ results t'.code)
    (entries : t'.outside.filter (fun i => i.op == .entryPoint) = t.outside.filter fun i => i.op == .entryPoint) :
    t'.Valid := by
  have unique : (results t'.code).Nodup := (Sublist.filterMap _ sub).nodup valid.unique
  have zero : kindOf t.code 0 = none := kindOf_of_not_mem valid.nonzero
  have kept : ∀ i ∈ t'.code, ∀ x ∈ i.references, kindOf t'.code x = kindOf t.code x :=
    fun i mem x mentioned => kindOf_sublist sub valid.unique (closed i mem mentioned)
  refine ⟨unique,fun mem => ?_,?_,fun i mem => ?_,fun i mem => ?_,
    fun r routine i mem => ?_,jumps,entries ▸ valid.entry⟩
  · exact valid.nonzero ((Sublist.filterMap _ sub).subset mem)
  · exact valid.ordered.sublist sub valid.unique (by simp) fun i mem _ => closed i mem
  · exact (valid.annotations i (outside i mem)).congr zero (kept i (mem_code.mpr (.inl mem)))
  · exact (valid.outside i (outside i mem)).congr zero (kept i (mem_code.mpr (.inl mem)))
  · obtain ⟨r',routine',member'⟩ := inside r routine i mem
    exact (valid.routines r' routine' i member').congr zero
      (kept i (mem_code.mpr (.inr ⟨r,routine,mem⟩)))

theorem Trims.valid (trims : t'.Trims t) (valid : t.Valid) : t'.prune.Valid := by
  refine valid.of_sublist (prune_sublist.trans trims.sub) (fun i mem => ?_) trims.inside trims.jumps
    (trims.closed_prune valid) ?_
  · exact trims.outside ▸ (mem_filter.mp mem).1
  · rw [prune,filter_filter,trims.outside]
    refine filter_congr fun i _ => ?_
    obtain ⟨op,operands⟩ := i
    cases op <;> rfl

theorem Shaped.decorations_code (shaped : t.Shaped) : decorations t.code = decorations t.outside := by
  have named : ∀ id, nameOf? t.code id = nameOf? t.outside id := by
    grind [nameOf?,Shaped.filter_code,Opcode.isNote]
  have decorated : t.code.filter (fun i => i.op == .decorate) =
      t.outside.filter fun i => i.op == .decorate := shaped.filter_code fun i holds => by
    simp only [beq_iff_eq] at holds
    simp [holds,Opcode.isNote]
  simp only [decorations,named,decorated]

theorem Valid.head?_of_decorated (valid : t.Valid) (decorated : i.operand 0 ∈ results t.outside) :
    i.operands.head? = some (i.operand 0) := by
  obtain ⟨op,operands⟩ := i
  cases operands with
  | nil =>
    refine absurd ?_ valid.nonzero
    rw [code,results_append]
    exact mem_append_left _ decorated
  | cons x _ => rfl

theorem decorations_filter {targets : List Id}
    (decorated : ∀ i ∈ code, i.op = .decorate → p i = true ∧ i.operand 0 ∈ targets)
    (named : ∀ i ∈ code, i.op = .debugName → ∀ x ∈ targets, i.operands.head? = some x → p i = true) :
    decorations (code.filter p) = decorations code := by
  have kept : (code.filter p).filter (fun i => i.op == .decorate) =
      code.filter fun i => i.op == .decorate := by
    grind [filter_filter,filter_congr]
  have names : ∀ x ∈ targets, nameOf? (code.filter p) x = nameOf? code x := by
    intro x target
    rw [nameOf?,nameOf?,filter_filter]
    refine congrArg _ (filter_congr fun i mem => ?_)
    grind
  grind [decorations,map_congr_left]

theorem Trims.decorations_code (trims : t'.Trims t) (valid : t.Valid) (shaped : t.Shaped)
    (decorated : ∀ i ∈ t.outside, i.op = .decorate → i.operand 0 ∈ results t.outside) :
    decorations t'.prune.code = decorations t.code := by
  rw [trims.shaped.prune.decorations_code,shaped.decorations_code,prune,trims.outside]
  have outside : results t.outside ⊆ results t'.code := by
    rw [code,results_append,trims.outside]
    exact subset_append_left _ _
  refine decorations_filter (fun i mem op => ⟨?_,decorated i mem op⟩)
    fun i _ op x target head => ?_
  · have target := decorated i mem op
    simp [IsFresh,op,valid.head?_of_decorated target,outside target]
  · simp [IsFresh,op,head,outside target]

theorem Valid.prune_eq (valid : t.Valid) : t.prune = t := by
  have fresh : ∀ i ∈ t.outside, i.IsFresh (results t.code) = true := by
    intro i mem
    have annotates := valid.annotations i mem
    have target : (kindOf t.code (i.operand 0)).isSome = true →
        i.operands.head?.any ((results t.code).contains ·) = true := by
      intro known
      have defined := (kindOf_isSome valid.unique).mp known
      obtain ⟨op,operands⟩ := i
      cases operands with
      | nil => exact absurd defined valid.nonzero
      | cons x _ => simpa [operand_eq] using defined
    grind [IsFresh,Annotates]
  rw [prune,filter_eq_self.mpr fresh]

/-- Where names and decorations go with their ids, names still belong to functions, variables and
parameters. -/
theorem Trims.scoped (trims : t'.Trims t) (valid : t.Valid) (inside : t.Scoped)
    (heads : ∀ r ∈ t'.routines, ∀ i ∈ r.head :: r.params, i.references ⊆ results t.outside)
    (bodies : ∀ r ∈ t'.routines, r.body.Scoped (results r.params ++ results t.outside)) :
    t'.prune.Scoped := by
  have outside : results t'.prune.outside = results t.outside := by
    rw [prune,results_filter_isFresh,trims.outside]
  refine ⟨outside ▸ heads,outside ▸ bodies,fun i mem op => ?_,fun i mem op => ?_⟩
  · rw [outside]
    obtain ⟨mem,-⟩ := mem_filter.mp mem
    rw [trims.outside] at mem
    exact inside.decorated i mem op
  · have closed := trims.closed_prune valid i (mem_code.mpr (.inl mem))
    obtain ⟨mem,fresh⟩ := mem_filter.mp mem
    rw [trims.outside] at mem
    obtain ⟨d,here,result,named⟩ := inside.named i mem op
    have target : i.operand 0 ∈ results t'.prune.code := by
      rw [results_prune]
      obtain ⟨_,operands⟩ := i
      cases op
      cases operands with
      | nil => cases fresh
      | cons x _ => simpa [IsFresh,operand_eq] using fresh
    obtain ⟨d',here',result'⟩ := mem_results.mp target
    have sub : t'.prune.code.Sublist t.code := prune_sublist.trans trims.sub
    have same := definition?_of_mem valid.unique here result
    rw [definition?_of_mem valid.unique (sub.subset here') result'] at same
    cases same
    exact ⟨d,here',result,named⟩

end Outline

namespace Block

/-- The block without the plain instructions that fail a test. -/
def filter (p : Instruction → Bool) : Block → Block
  | .done => .done
  | .plain i rest => if p i then .plain i (rest.filter p) else rest.filter p
  | .ifThen c yes rest => .ifThen c (yes.filter p) (rest.filter p)
  | .ifElse c yes no rest => .ifElse c (yes.filter p) (no.filter p) (rest.filter p)
  | .loop t body continuing rest =>
    .loop t (body.filter p) (continuing.filter p) (rest.filter p)

variable {p : Instruction → Bool}

theorem code_filter (others : ∀ i : Instruction, i.op.isPlain = false → i.result? = none → p i = true)
    (b : Block) : (b.filter p).code = b.code.filter p := by
  have ifThen (c : Id) : p ⟨.ifThen,[c]⟩ = true := others _ rfl rfl
  have orElse : p ⟨.orElse,[]⟩ = true := others _ rfl rfl
  have endIf : p ⟨.endIf,[]⟩ = true := others _ rfl rfl
  have loop (w : UInt32) : p ⟨.loop,[w]⟩ = true := others _ rfl rfl
  have loopContinue : p ⟨.loopContinue,[]⟩ = true := others _ rfl rfl
  have endLoop : p ⟨.endLoop,[]⟩ = true := others _ rfl rfl
  induction b with
  | done => rfl
  | plain i b ih =>
    rw [filter,code,filter_cons,← ih]
    split <;> rfl
  | ifThen c yes b ihYes ih => simp [filter,code,ihYes,ih,ifThen,endIf]
  | ifElse c yes no b ihYes ihNo ih =>
    simp [filter,code,ihYes,ihNo,ih,ifThen,orElse,endIf]
  | loop t body continuing b ihBody ihContinuing ih =>
    simp [filter,code,ihBody,ihContinuing,ih,loop,loopContinue,endLoop]

theorem Proper.filter {tests : Bool} (proper : b.Proper tests) : (b.filter p).Proper tests := by
  induction b generalizing tests with
  | done => trivial
  | plain i b ih =>
    rw [Block.filter]
    split
    · exact ⟨proper.1,proper.2.1,ih proper.2.2⟩
    · have rest := ih proper.2.2
      cases going : i.op.isTerminator with
      | true => exact (by simpa [going] using rest : (b.filter p).Proper false).weaken tests
      | false => simpa [going] using rest
  | ifThen c yes b ihYes ih => exact ⟨ihYes proper.1,ih proper.2⟩
  | ifElse c yes no b ihYes ihNo ih => exact ⟨ihYes proper.1,ihNo proper.2.1,ih proper.2.2⟩
  | loop t body continuing b ihBody ihContinuing ih =>
    exact ⟨ihBody proper.1,ihContinuing proper.2.1,ih proper.2.2⟩

theorem Jumps.filter {inLoop : Bool} (jumps : b.Jumps inLoop) : (b.filter p).Jumps inLoop := by
  induction b generalizing inLoop with
  | done => trivial
  | plain i b ih =>
    rw [Block.filter]
    split
    · exact ⟨jumps.1,ih jumps.2⟩
    · exact ih jumps.2
  | ifThen c yes b ihYes ih => exact ⟨ihYes jumps.1,ih jumps.2⟩
  | ifElse c yes no b ihYes ihNo ih => exact ⟨ihYes jumps.1,ihNo jumps.2.1,ih jumps.2.2⟩
  | loop t body continuing b ihBody ihContinuing ih =>
    exact ⟨ihBody jumps.1,ihContinuing jumps.2.1,ih jumps.2.2⟩

theorem filter_true (b : Block) : b.filter (fun _ => true) = b := by
  induction b with
  | done => rfl
  | plain i rest ih => rw [Block.filter,if_pos rfl,ih]
  | ifThen c yes rest ihYes ih => rw [Block.filter,ihYes,ih]
  | ifElse c yes no rest ihYes ihNo ih => rw [Block.filter,ihYes,ihNo,ih]
  | loop t body continuing rest ihBody ihContinuing ih => rw [Block.filter,ihBody,ihContinuing,ih]

end Block

def Routine.filter (p : Instruction → Bool) (r : Routine) : Routine := { r with body := r.body.filter p }

theorem Routine.Shaped.filter (shaped : r.Shaped) (p : Instruction → Bool) : (r.filter p).Shaped :=
  ⟨shaped.head,shaped.defines,shaped.params,shaped.body.filter⟩

section Filter

variable {p : Instruction → Bool}

section

variable (others : ∀ i : Instruction, i.op.isPlain = false → i.result? = none → p i = true)
include others

theorem Routine.code_filter (outer : ∀ i ∈ r.head :: r.params, p i = true) :
    (r.filter p).code = r.code.filter p := by
  rw [forall_mem_cons] at outer
  have last : p ⟨.functionEnd,[]⟩ = true := others _ rfl rfl
  simp [Routine.code,filter,Block.code_filter others,outer.1,filter_eq_self.mpr outer.2,last]

theorem Routine.flatMap_code_filter {routines : List Routine}
    (outer : ∀ r ∈ routines, ∀ i ∈ r.head :: r.params, p i = true) :
    (routines.flatMap Routine.code).filter p = (routines.map (filter p)).flatMap Routine.code := by
  induction routines with
  | nil => rfl
  | cons r routines ih =>
    grind [code_filter]

end

end Filter

theorem Routine.results_code (shaped : r.Shaped) :
    results r.code = r.id :: (results r.params ++ results r.body.code) := by
  have last : results [(⟨.functionEnd,[]⟩ : Instruction)] = [] := rfl
  rw [Routine.code,cons_append,results_cons,shaped.defines,results_append,results_append,last]
  simp

namespace Outline

variable {t : Outline}

theorem results_subset (mem : r ∈ t.routines) : results r.code ⊆ results t.code := by
  grind [mem_results,mem_code]

theorem Shaped.routine_of_kindOf (shaped : t.Shaped) (unique : (results t.code).Nodup) {id : Id}
    (function : kindOf t.code id = some .function) : ∃ r ∈ t.routines, r.id = id := by
  obtain ⟨d,here,result,op⟩ := (kindOf_eq_some unique).mp function
  rcases mem_code.mp here with outside | ⟨r,routine,here⟩
  · have := shaped.outside d outside
    simp [op,Opcode.isOutside,Opcode.isDeclaration,Opcode.isType,Opcode.isNote] at this
  · refine ⟨r,routine,?_⟩
    have shaped := shaped.routines r routine
    simp only [Routine.code,cons_append,mem_cons,mem_append,not_mem_nil,or_false] at here
    rcases here with rfl | (param | body) | rfl
    · rw [shaped.defines] at result
      exact Option.some.inj result
    · rw [shaped.params d param] at op
      cases op
    · have := shaped.body.isBody d body
      rw [op] at this
      cases this
    · cases op

theorem closed_of_scoped
    (heads : ∀ r ∈ t.routines, ∀ i ∈ r.head :: r.params, i.references ⊆ results t.outside)
    (bodies : ∀ r ∈ t.routines, r.body.Scoped (results r.params ++ results t.outside))
    (callees : ∀ r ∈ t.routines, ∀ i ∈ r.code, ∀ c, i.callee? = some c → c ∈ results t.code) :
    ∀ r ∈ t.routines, ∀ i ∈ r.code, i.references ⊆ results t.code := by
  intro r routine i mem x mentioned
  have outside : results t.outside ⊆ results t.code := by
    rw [code,results_append]
    exact subset_append_left _ _
  rcases mem_references_iff.mp mentioned with inside | called
  · have member' := mem
    simp only [Routine.code,cons_append,mem_cons,mem_append,not_mem_nil,or_false] at member'
    rcases member' with head | (param | body) | rfl
    · exact outside (heads r routine i (by simp [head]) mentioned)
    · exact outside (heads r routine i (by simp [param]) mentioned)
    · have := (bodies r routine).mentions i body inside
      simp only [mem_append] at this
      rcases this with (param | known) | here
      · exact results_subset routine (filterMap_subset _ (by simp [Routine.code]) param)
      · exact outside known
      · exact results_subset routine (filterMap_subset _ (fun j => by simp +contextual [Routine.code]) here)
    · simp [mentions] at inside
  · exact callees r routine i mem x called

theorem Valid.trims_self (valid : t.Valid) (shaped : t.Shaped) : t.Trims t := by
  refine ⟨rfl,shaped,Sublist.refl _,fun r m i here => ⟨r,m,here⟩,valid.jumps,
    fun r routine i here => ?_,fun i mem op => ?_⟩
  · have ordered : Ordered [] (t.code ++ []) := by rw [append_nil]; exact valid.ordered
    have states := (shaped.routines r routine).states i here
    simpa using ordered.outside i (mem_code.mpr (.inr ⟨r,routine,here⟩)) states
  · have function := valid.annotations i mem
    grind [Annotates,kindOf_isSome,Valid.unique]

theorem Valid.routine_of_callee (valid : t.Valid) (shaped : t.Shaped) (routine : r ∈ t.routines)
    (mem : i ∈ r.code) {c : Id} (called : i.callee? = some c) : ∃ r' ∈ t.routines, r'.id = c := by
  unfold callee? at called
  split at called
  · rename_i op
    have fits := (valid.routines r routine i mem).2
    grind [operand_eq,Shaped.routine_of_kindOf,Valid.unique]
  · cases called

end Outline

end Shading.Bytecode
