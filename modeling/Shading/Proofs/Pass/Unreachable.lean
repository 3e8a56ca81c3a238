import Mathlib.Data.List.Flatten
import Shading.Proofs.Bytecode.Deletion

/-! Skipping to the end of a block by counting constructs is cutting each block of the tree after its
first terminator. What is cut was visible in that block only, so that a module stays valid without it. -/
namespace Shading.Bytecode
open List Pass

variable {b : Block} {tests : Bool}

namespace Block

def reach : Block → Block
  | .done => .done
  | .plain i rest => .plain i (if i.op.isTerminator then .done else rest.reach)
  | .ifThen c yes rest => .ifThen c yes.reach rest.reach
  | .ifElse c yes no rest => .ifElse c yes.reach no.reach rest.reach
  | .loop t body continuing rest => .loop t body.reach continuing.reach rest.reach

def ends : Block → Bool
  | .done => false
  | .plain i rest => i.op.isTerminator || rest.ends
  | .ifThen _ _ rest | .ifElse _ _ _ rest | .loop _ _ _ rest => rest.ends

theorem skipBlock_plain (depth : Nat) (rest : List Instruction) {i : Instruction} (plain : i.op.isPlain = true)
    (test : depth = 0 → i.op ≠ .loopCondition) :
    skipBlock depth (i :: rest) = skipBlock depth rest := by
  obtain ⟨op,operands⟩ := i
  cases depth with
  | zero => cases op <;> first | rfl | exact absurd rfl (test rfl) | cases plain
  | succ depth => cases op <;> first | rfl | cases plain

theorem skipBlock_code (proper : b.Proper tests) :
    ∀ {depth : Nat} (rest : List Instruction), (depth = 0 → tests = false) →
      skipBlock depth (b.code ++ rest) = skipBlock depth rest := by
  induction b generalizing tests with
  | done => exact fun _ _ => rfl
  | plain i b ih =>
    intro depth rest outermost
    obtain ⟨plain,test,proper⟩ := proper
    grind [code,skipBlock_plain]
  | ifThen c yes b ihYes ih =>
    intro depth rest outermost
    simp [code,skipBlock,ihYes proper.1,ih proper.2 _ outermost]
  | ifElse c yes no b ihYes ihNo ih =>
    intro depth rest outermost
    simp [code,skipBlock,ihYes proper.1,ihNo proper.2.1,ih proper.2.2 _ outermost]
  | loop t body continuing b ihBody ihContinuing ih =>
    intro depth rest outermost
    simp [code,skipBlock,ihBody proper.1,ihContinuing proper.2.1,ih proper.2.2 _ outermost]

/-- What follows a block is kept, or skipped to the end of the block around. -/
theorem keepReached_code (proper : b.Proper tests) :
    ∀ rest : List Instruction, keepReached (b.code ++ rest) =
      b.reach.code ++ if b.ends then skipBlock 0 rest else keepReached rest := by
  have ending : ∀ (ends : Bool) (i : Instruction) (rest : List Instruction),
      endsBlock i.op = true → i.op.isTerminator = false →
        (if ends then skipBlock 0 (i :: rest) else keepReached (i :: rest)) =
          i :: keepReached rest := by
    rintro ends ⟨op,operands⟩ rest last going
    cases ends <;> cases op <;> first | rfl | cases last
  induction b generalizing tests with
  | done => exact fun _ => rfl
  | plain i b ih =>
    intro rest
    rw [code,cons_append,keepReached,reach,ends]
    cases going : i.op.isTerminator with
    | true =>
      have cut := proper.2.2
      rw [going,Bool.not_true,Bool.and_false] at cut
      simp [code,skipBlock_code cut]
    | false => simp [code,ih proper.2.2]
  | ifThen c yes b ihYes ih =>
    intro rest
    have last := ending yes.ends ⟨.endIf,[]⟩ (b.code ++ rest) rfl rfl
    simp only [code,reach,ends,cons_append,List.append_assoc]
    rw [keepReached,ihYes proper.1,last,ih proper.2]
    rfl
  | ifElse c yes no b ihYes ihNo ih =>
    intro rest
    have last := ending no.ends ⟨.endIf,[]⟩ (b.code ++ rest) rfl rfl
    have other := ending yes.ends ⟨.orElse,[]⟩ (no.code ++ ⟨.endIf,[]⟩ :: (b.code ++ rest)) rfl rfl
    simp only [code,reach,ends,cons_append,List.append_assoc]
    rw [keepReached,ihYes proper.1,other,ihNo proper.2.1,last,ih proper.2.2]
    rfl
  | loop t body continuing b ihBody ihContinuing ih =>
    intro rest
    have last := ending continuing.ends ⟨.endLoop,[]⟩ (b.code ++ rest) rfl rfl
    have other := ending body.ends ⟨.loopContinue,[]⟩
      (continuing.code ++ ⟨.endLoop,[]⟩ :: (b.code ++ rest)) rfl rfl
    simp only [code,reach,ends,cons_append,List.append_assoc]
    rw [keepReached,ihBody proper.1,other,ihContinuing proper.2.1,last,ih proper.2.2]
    rfl

theorem reach_sublist (b : Block) : b.reach.code.Sublist b.code := by
  induction b with
  | done => exact Sublist.refl _
  | plain i b ih =>
    rw [reach,code,code]
    split
    · exact (nil_sublist _).cons_cons i
    · exact ih.cons_cons i
  | ifThen c yes b ihYes ih => exact (ihYes.append (ih.cons_cons _)).cons_cons _
  | ifElse c yes no b ihYes ihNo ih =>
    simp only [reach,code,cons_append,List.append_assoc]
    exact (ihYes.append ((ihNo.append (ih.cons_cons _)).cons_cons _)).cons_cons _
  | loop t body continuing b ihBody ihContinuing ih =>
    simp only [reach,code,cons_append,List.append_assoc]
    exact (ihBody.append ((ihContinuing.append (ih.cons_cons _)).cons_cons _)).cons_cons _

theorem Proper.reach (proper : b.Proper tests) : b.reach.Proper tests := by
  induction b generalizing tests with
  | done => trivial
  | plain i b ih =>
    refine ⟨proper.1,proper.2.1,?_⟩
    split
    · trivial
    · exact ih proper.2.2
  | ifThen c yes b ihYes ih => exact ⟨ihYes proper.1,ih proper.2⟩
  | ifElse c yes no b ihYes ihNo ih => exact ⟨ihYes proper.1,ihNo proper.2.1,ih proper.2.2⟩
  | loop t body continuing b ihBody ihContinuing ih =>
    exact ⟨ihBody proper.1,ihContinuing proper.2.1,ih proper.2.2⟩

theorem Scoped.reach : ∀ {visible : List Id}, b.Scoped visible → b.reach.Scoped visible := by
  induction b with
  | done => exact id
  | plain i b ih =>
    refine fun inside => ⟨inside.1,?_⟩
    split
    · trivial
    · exact ih inside.2
  | ifThen c yes b ihYes ih => exact fun inside => ⟨inside.1,ihYes inside.2.1,ih inside.2.2⟩
  | ifElse c yes no b ihYes ihNo ih =>
    exact fun inside => ⟨inside.1,ihYes inside.2.1,ihNo inside.2.2.1,ih inside.2.2.2⟩
  | loop t body continuing b ihBody ihContinuing ih =>
    exact fun inside => ⟨ihBody inside.1,ihContinuing inside.2.1,ih inside.2.2⟩

theorem Jumps.reach {inLoop : Bool} (jumps : b.Jumps inLoop) : b.reach.Jumps inLoop := by
  induction b generalizing inLoop with
  | done => trivial
  | plain i b ih =>
    refine ⟨jumps.1,?_⟩
    split
    · trivial
    · exact ih jumps.2
  | ifThen c yes b ihYes ih => exact ⟨ihYes jumps.1,ih jumps.2⟩
  | ifElse c yes no b ihYes ihNo ih => exact ⟨ihYes jumps.1,ihNo jumps.2.1,ih jumps.2.2⟩
  | loop t body continuing b ihBody ihContinuing ih =>
    exact ⟨ihBody jumps.1,ihContinuing jumps.2.1,ih jumps.2.2⟩

end Block

def Routine.reach (r : Routine) : Routine := { r with body := r.body.reach }

theorem Routine.Shaped.reach {r : Routine} (shaped : r.Shaped) : r.reach.Shaped :=
  ⟨shaped.head,shaped.defines,shaped.params,shaped.body.reach⟩

theorem Routine.reach_sublist (r : Routine) : r.reach.code.Sublist r.code :=
  (((Sublist.refl _).append r.body.reach_sublist).cons_cons _).append (Sublist.refl _)

theorem keepReached_going {code rest : List Instruction}
    (going : ∀ i ∈ code, i.op.isTerminator = false) :
    keepReached (code ++ rest) = code ++ keepReached rest := by
  induction code with
  | nil => rfl
  | cons i code ih =>
    rw [forall_mem_cons] at going
    rw [cons_append,keepReached,going.1,ih going.2]
    rfl

theorem keepReached_routine {r : Routine} (shaped : r.Shaped) (rest : List Instruction) :
    keepReached (r.code ++ rest) = r.reach.code ++ keepReached rest := by
  have first : ∀ i ∈ r.head :: r.params, i.op.isTerminator = false := by
    refine forall_mem_cons.mpr ⟨by rw [shaped.head]; rfl,fun i mem => ?_⟩
    rw [shaped.params i mem]
    rfl
  have split : r.code ++ rest =
      (r.head :: r.params) ++ (r.body.code ++ ⟨.functionEnd,[]⟩ :: rest) := by
    simp [Routine.code]
  rw [split,keepReached_going first,Block.keepReached_code shaped.body]
  have last : (if r.body.ends then skipBlock 0 (⟨.functionEnd,[]⟩ :: rest)
      else keepReached (⟨.functionEnd,[]⟩ :: rest)) = ⟨.functionEnd,[]⟩ :: keepReached rest := by
    cases r.body.ends <;> rfl
  rw [last]
  simp [Routine.code,Routine.reach]

namespace Outline

variable {t : Outline}

def reach (t : Outline) : Outline := { t with routines := t.routines.map Routine.reach }

theorem Shaped.reach (shaped : t.Shaped) : t.reach.Shaped := by
  refine ⟨shaped.outside,fun r mem => ?_⟩
  obtain ⟨r,here,rfl⟩ := mem_map.mp mem
  exact (shaped.routines r here).reach

theorem Shaped.keepReached_code (shaped : t.Shaped) : keepReached t.code = t.reach.code := by
  have first : ∀ i ∈ t.outside, i.op.isTerminator = false := by
    rintro ⟨op,operands⟩ mem
    have := shaped.outside _ mem
    cases op <;> first | rfl | cases this
  have rest : keepReached (t.routines.flatMap Routine.code) =
      (t.routines.map Routine.reach).flatMap Routine.code := by
    have all := shaped.routines
    generalize t.routines = routines at all
    induction routines with
    | nil => rfl
    | cons r routines ih =>
      rw [forall_mem_cons] at all
      rw [flatMap_cons,keepReached_routine all.1,ih all.2]
      rfl
  rw [code,keepReached_going first,rest]
  rfl

theorem reach_sublist : t.reach.code.Sublist t.code := by
  refine (Sublist.refl _).append ?_
  rw [Outline.reach,flatMap_map]
  exact Sublist.flatMap_right _ fun r _ => r.reach_sublist

theorem Valid.dropUnreachable_code (valid : t.Valid) (shaped : t.Shaped) :
    (dropUnreachable t.code).map Outcome.code = .ok t.reach.prune.code := by
  rw [dropUnreachable,shaped.keepReached_code]
  dsimp only
  split
  · rename_i length
    have all : t.reach.code = t.code := reach_sublist.eq_of_length length
    have pruned := shaped.reach.dropStaleAnnotations_code
    rw [all,shaped.dropStaleAnnotations_code,valid.prune_eq] at pruned
    rw [← pruned]
    rfl
  · rw [shaped.reach.dropStaleAnnotations_code]
    rfl

theorem Valid.reach_trims (valid : t.Valid) (shaped : t.Shaped) (inside : t.Scoped) :
    t.reach.Trims t := by
  have members : ∀ {r}, r ∈ t.reach.routines → ∃ r' ∈ t.routines, r'.reach = r :=
    fun mem => mem_map.mp mem
  have ids : ∀ r ∈ t.routines, r.id ∈ results t.reach.code := by
    intro r routine
    refine results_subset (mem_map_of_mem routine) ?_
    rw [Routine.results_code (shaped.routines r routine).reach]
    exact mem_cons_self
  refine ⟨rfl,shaped.reach,reach_sublist,fun r mem i here => ?_,fun r mem => ?_,?_,?_⟩
  · obtain ⟨r,routine,rfl⟩ := members mem
    exact ⟨r,routine,r.reach_sublist.subset here⟩
  · obtain ⟨r,routine,rfl⟩ := members mem
    exact (valid.jumps r routine).reach
  · refine closed_of_scoped (fun r mem => ?_) (fun r mem => ?_) fun r mem i here c called => ?_
    · obtain ⟨r,routine,rfl⟩ := members mem
      exact inside.heads r routine
    · obtain ⟨r,routine,rfl⟩ := members mem
      exact (inside.bodies r routine).reach
    grind [Valid.routine_of_callee,Routine.reach_sublist]
  · intro i mem op
    have function := valid.annotations i mem
    grind [Instruction.Annotates,Shaped.routine_of_kindOf,Valid.unique]

end Outline

end Shading.Bytecode
