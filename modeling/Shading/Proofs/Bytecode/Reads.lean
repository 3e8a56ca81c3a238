import Shading.Proofs.Bytecode.Encoding
import Shading.Proofs.Pass.Folding
import Shading.Proofs.Pass.LiveFunctions
import Shading.Proofs.Pass.Segments

/-! Of an instruction that has the operands that it needs, no operand is read out of range. Its result and
the ids that it refers to stand at distinct places among its operands; and the passes and the check of a
module do the same whatever words lie behind the operands. -/
namespace Shading.Bytecode
open List Pass Instruction

variable {i : Instruction} {code : List Instruction}

/-- The places at which operands are read without a look at their number. -/
def Opcode.reads : Opcode → List Nat
  | .entryPoint | .debugName | .typeVoid | .typeBool | .typeFloat | .typeFunction | .ifThen | .loop
  | .loopCondition | .retValue => [0]
  | .typeInt | .constantComposite | .function | .store | .construct => [0, 1]
  | .typePointer => [0, 2]
  | .var | .load | .accessChain | .builtin | .call => [1, 2]
  | .localSize | .decorate | .typeVector | .typeMatrix | .typeArray | .constant | .functionParameter
  | .swizzle => [0, 1, 2]
  | .extract => [1, 2, 3]
  | .typeSampler | .unary => [0, 1, 2, 3]
  | .select => [1, 2, 3, 4]
  | .binary => [0, 1, 2, 3, 4]
  | _ => []

/-- The place from which all operands are read, if there is one. -/
def Opcode.tail? : Opcode → Option Nat
  | .constantComposite | .construct => some 2
  | .accessChain | .swizzle | .builtin | .call => some 3
  | _ => none

namespace Instruction

/-- The places of the ids of other instructions. -/
def referencePositions (i : Instruction) : List Nat :=
  let from_ (start : Nat) := List.range' start (i.operands.length - start)
  match i.op with
  | .debugName | .entryPoint | .decorate | .ifThen | .loopCondition | .retValue | .constant | .var
  | .functionParameter => [0]
  | .typeVector | .typeMatrix | .typeArray => [1]
  | .typePointer => [2]
  | .function | .load | .swizzle => [0, 2]
  | .store => [0, 1]
  | .unary => [0, 3]
  | .binary => [0, 3, 4]
  | .extract => [0, 2, 3]
  | .select => [0, 2, 3, 4]
  | .typeFunction => from_ 1
  | .constantComposite | .construct | .accessChain | .call => 0 :: from_ 2
  | .builtin => 0 :: from_ 3
  | _ => []

theorem mem_referencePositions (full : i.Full) (p : Nat) :
    p ∈ i.referencePositions ↔ i.refersAt p = true ∧ p < i.operands.length := by
  obtain ⟨op,operands⟩ := i
  have full : op.minOperands ≤ operands.length := full
  cases op <;> simp [referencePositions,refersAt,Opcode.minOperands] at full ⊢ <;> omega

theorem positions_nodup (i : Instruction) : (i.resultPosition?.toList ++ i.referencePositions).Nodup := by
  obtain ⟨op,operands⟩ := i
  cases op <;>
    simp [resultPosition?,Opcode.hasResultType,Opcode.isType,referencePositions,nodup_range']

theorem resultPosition_lt (full : i.Full) {p : Nat} (here : i.resultPosition? = some p) :
    p < i.operands.length := by
  obtain ⟨op,operands⟩ := i
  have full : op.minOperands ≤ operands.length := full
  cases op <;>
    simp [resultPosition?,Opcode.hasResultType,Opcode.isType,Opcode.minOperands] at full here ⊢ <;> omega

theorem reads_lt (full : i.Full) : (∀ p ∈ i.op.reads, p < i.operands.length) ∧
    ∀ p ∈ i.op.tail?, p ≤ i.operands.length := by
  have low : (∀ p ∈ i.op.reads, p < i.op.minOperands) ∧ ∀ p ∈ i.op.tail?, p ≤ i.op.minOperands := by
    cases i.op <;> decide
  exact ⟨fun p mem => Nat.lt_of_lt_of_le (low.1 p mem) full,fun p mem => Nat.le_trans (low.2 p mem) full⟩

variable (ws : List UInt32) {n : Nat}

theorem operand_beyond (full : i.Full) (here : n ∈ i.op.reads) : @operand ⟨ws⟩ i n = i.operand n := by
  rw [operand_eq]
  exact getD_append _ _ _ _ ((reads_lt full).1 n here)

theorem operandsFrom_beyond (full : i.Full) (here : n ∈ i.op.tail?) :
    @operandsFrom ⟨ws⟩ i n = i.operandsFrom n := by
  have inside := (reads_lt full).2 n here
  unfold operandsFrom
  rw [if_pos inside,if_pos inside]

example : @operand ⟨[9]⟩ ⟨.load, [3, 7]⟩ 2 = 9 := rfl

end Instruction

variable (ws : List UInt32)

section Checking

theorem operandFlaws_beyond (full : i.Full) (inFunction : Bool) :
    @operandFlaws ⟨ws⟩ code inFunction i = operandFlaws code inFunction i := by
  unfold operandFlaws
  split <;> rename_i op <;> simp [operand_beyond ws full,op,Opcode.reads]

theorem orderFindings_beyond (all : List Instruction) : ∀ (code : List Instruction) (index : Nat)
    (defined : List Id) (n : Nesting), (∀ i ∈ code, i.Full) →
    @orderFindings ⟨ws⟩ all index defined n code = orderFindings all index defined n code := by
  intro code
  induction code with
  | nil => exact fun _ _ _ _ => rfl
  | cons i code ih =>
    intro index defined n full
    rw [forall_mem_cons] at full
    simp only [orderFindings,ih _ _ _ full.2,operandFlaws_beyond ws full.1]

theorem findings_beyond (m : Module) : @Module.findings ⟨ws⟩ m = m.findings := by
  unfold Module.findings
  cases m.header with
  | error f => rfl
  | ok h =>
    cases read : m.instructions with
    | error f => rfl
    | ok code => simp only [findings,orderFindings_beyond ws _ _ _ _ _ (Module.full_of_instructions read)]

end Checking

section Folding

variable {s : Folding}

theorem tables_beyond (full : i.Full) : @Folding.learn ⟨ws⟩ s i = s.learn i ∧
    @Folding.chosen? ⟨ws⟩ s i = s.chosen? i ∧ @Folding.eval? ⟨ws⟩ s i = s.eval? i := by
  obtain ⟨op,operands⟩ := i
  have full : op.minOperands ≤ operands.length := full
  rcases operands with _ | ⟨_,_ | ⟨_,_ | ⟨_,_ | ⟨_,_ | ⟨_,_⟩⟩⟩⟩⟩ <;> cases op <;>
    first | exact ⟨rfl,rfl,rfl⟩ | (cases ws <;> exact ⟨rfl,rfl,rfl⟩) | simp [Opcode.minOperands] at full

theorem full_renameIds {f : Id → Id} (full : i.Full) : (renameIds f i).Full := by
  simpa [Full] using full

theorem step_beyond (full : i.Full) : @Folding.step ⟨ws⟩ s i = s.step i := by
  have renamed : (s.rename i).Full := full_renameIds full
  simp only [Folding.step,tables_beyond ws renamed]
  generalize s.rename i = j
  cases chosen : (s.learn j).chosen? j with
  | some v =>
    obtain ⟨ty,r,c,x,y,rest,cond,rfl,-⟩ := Folding.chosen?_eq_some.mp chosen
    rfl
  | none =>
    cases value : (s.learn j).eval? j with
    | none => rfl
    | some c =>
      obtain ⟨ty,r,w,x,y,rest,op,cx,cy,rfl,-⟩ | ⟨ty,r,w,x,rest,op,cx,rfl,-⟩ |
        ⟨ty,r,x,cx,kind,rfl,-⟩ := Folding.eval?_eq_some.mp value
      all_goals rfl

theorem run_beyond : ∀ {s : Folding}, (∀ i ∈ code, i.Full) → @Folding.run ⟨ws⟩ s code = s.run code := by
  induction code with
  | nil => exact fun _ => rfl
  | cons i code ih =>
    intro s full
    rw [forall_mem_cons] at full
    simp only [Folding.run,step_beyond ws full.1,ih full.2]

theorem foldScalars_beyond (full : ∀ i ∈ code, i.Full) : @foldScalars ⟨ws⟩ code = foldScalars code := by
  simp only [foldScalars,run_beyond ws full]

end Folding

section DeadCode

theorem sweep_beyond (full : ∀ i ∈ code, i.Full) : @sweep ⟨ws⟩ code = sweep code := by
  have read {i : Instruction} (mem : i ∈ code) (op : i.op = .store) :
      @operand ⟨ws⟩ i 0 = i.operand 0 :=
    operand_beyond ws (full i mem) (by simp [op,Opcode.reads])
  have targets : @storeTargets ⟨ws⟩ code = storeTargets code :=
    map_congr_left fun i mem => read (mem_filter.mp mem).1 (by simpa using (mem_filter.mp mem).2)
  unfold sweep
  rw [targets]
  refine filter_congr fun i mem => ?_
  unfold needed
  split
  · rename_i op
    rw [read mem op]
  · rfl

theorem sweepAll_beyond (full : ∀ i ∈ code, i.Full) : @sweepAll ⟨ws⟩ code = sweepAll code := by
  fun_induction sweepAll code with
  | case1 code shrinks ih =>
    rw [@sweepAll.eq_def ⟨ws⟩ code,sweep_beyond ws full,dif_pos shrinks]
    exact ih fun i mem => full i (mem_filter.mp mem).1
  | case2 code whole => rw [@sweepAll.eq_def ⟨ws⟩ code,sweep_beyond ws full,dif_neg whole]

end DeadCode

theorem run_pass_beyond (p : Pass) (full : ∀ i ∈ code, i.Full) : @Pass.run ⟨ws⟩ p code = p.run code := by
  cases p with
  | fold => exact foldScalars_beyond ws full
  | deadCode =>
    show @dropDeadCode ⟨ws⟩ code = dropDeadCode code
    simp only [dropDeadCode,sweepAll_beyond ws full]
  | _ => rfl

theorem full_dropStaleAnnotations (full : ∀ i ∈ code, i.Full) : ∀ i ∈ dropStaleAnnotations code, i.Full :=
  fun i mem => full i (mem_filter.mp mem).1

section Fold

variable {s : Folding}

theorem full_intern (ty : Id) (c : Const) (added : ∀ j ∈ s.added, j.Full) :
    ∀ j ∈ (s.intern ty c).2.added, j.Full := by
  unfold Folding.intern
  split
  · exact added
  · refine forall_mem_append.mpr ⟨added,fun j mem => ?_⟩
    rw [mem_singleton.mp mem]
    exact Nat.le_refl 3

theorem full_step (full : i.Full) (added : ∀ j ∈ s.added, j.Full) :
    (∀ j ∈ (s.step i).1.toList, j.Full) ∧ ∀ j ∈ (s.step i).2.added, j.Full := by
  have kept : ∀ j ∈ (some (s.rename i)).toList, j.Full := by
    intro j mem
    rw [mem_singleton.mp mem]
    exact full_renameIds full
  have learned : ∀ j ∈ (s.learn (s.rename i)).added, j.Full := by
    rw [Folding.learn_frame.2.1]
    exact added
  simp only [Folding.step]
  split
  · exact ⟨by simp,learned⟩
  · split
    · exact ⟨kept,learned⟩
    · split
      · exact ⟨by simp,full_intern _ _ learned⟩
      · exact ⟨kept,learned⟩

theorem full_fold : ∀ {s : Folding}, (∀ i ∈ code, i.Full) → (∀ i ∈ s.added, i.Full) →
    (∀ i ∈ (s.run code).1, i.Full) ∧ ∀ i ∈ (s.run code).2.added, i.Full := by
  induction code with
  | nil => exact fun _ added => ⟨by simp [Folding.run],added⟩
  | cons i code ih =>
    intro s full added
    rw [forall_mem_cons] at full
    obtain ⟨kept,added⟩ := full_step full.1 added
    obtain ⟨later,added⟩ := ih full.2 added
    exact ⟨forall_mem_append.mpr ⟨kept,later⟩,added⟩

theorem full_insertConstants {added : List Instruction} (new : ∀ i ∈ added, i.Full) (full : ∀ i ∈ code, i.Full) :
    ∀ i ∈ insertConstants added code, i.Full := by
  induction code with
  | nil => exact new
  | cons i code ih =>
    rw [insertConstants]
    rw [forall_mem_cons] at full
    split
    · exact forall_mem_append.mpr ⟨new,forall_mem_cons.mpr full⟩
    · exact forall_mem_cons.mpr ⟨full.1,ih full.2⟩

end Fold

section

variable (full : ∀ i ∈ code, i.Full)
include full

theorem full_sweepAll : ∀ i ∈ sweepAll code, i.Full := by
  fun_induction sweepAll code with
  | case1 code shrinks ih => exact ih fun i mem => full i (mem_filter.mp mem).1
  | case2 code whole => exact full

/-- Every pass leaves instructions that have the operands that they need. -/
theorem full_run {p : Pass} {r : Outcome} (ran : p.run code = .ok r) : ∀ i ∈ r.code, i.Full := by
  cases p with
  | deadFunctions =>
    have ran : dropDeadFunctions code = .ok r := ran
    unfold dropDeadFunctions at ran
    split at ran
    · cases ran
    · obtain ⟨ps,read,ran⟩ := Except.bind_eq_ok.mp ran
      dsimp only at ran
      split at ran
      · cases ran
        exact full
      · cases ran
        refine full_dropStaleAnnotations fun i mem => full i ?_
        rw [partition_eq_filter_filter] at mem
        obtain ⟨part,kept,here⟩ := mem_flatMap.mp mem
        rw [← (parts_eq_ok.mp read).2]
        exact mem_flatMap.mpr ⟨part,(mem_filter.mp kept).1,here⟩
  | unreachable =>
    have ran : dropUnreachable code = .ok r := ran
    unfold dropUnreachable at ran
    dsimp only at ran
    split at ran <;> cases ran
    · exact full
    · exact full_dropStaleAnnotations fun i mem => full i (keepReached_sublist.1.subset mem)
  | fold =>
    have ran : foldScalars code = .ok r := ran
    obtain ⟨kept,added⟩ := full_fold (s := { nextId := maxId code + 1 }) full (by simp)
    unfold foldScalars at ran
    dsimp only at ran
    split at ran <;> cases ran
    · exact kept
    · exact full_insertConstants added kept
  | deadCode =>
    have ran : dropDeadCode code = .ok r := ran
    unfold dropDeadCode at ran
    dsimp only at ran
    split at ran <;> cases ran
    · exact full
    · exact full_dropStaleAnnotations (full_sweepAll full)
  | localNames =>
    obtain ⟨ps,-,made⟩ := Except.bind_eq_ok.mp (show dropLocalNames code = .ok r from ran)
    cases made
    exact fun i mem => full i (mem_filter.mp mem).1
  | compact =>
    have ran : renumber code = .ok r := ran
    unfold renumber at ran
    split at ran
    · cases ran
    · cases ran
      intro i mem
      obtain ⟨j,here,rfl⟩ := mem_map.mp mem
      exact full_renameIds (full j here)

variable {source : String} {ps : List Pass}

theorem full_runPasses {out : List Instruction} (ran : (runPasses source ps code).Gives out) :
    ∀ i ∈ out, i.Full := by
  induction ps generalizing code with
  | nil => exact Reporting.gives_pure.mp ran ▸ full
  | cons p ps ih =>
    obtain ⟨_,-,ran⟩ := ran.of_bind
    obtain ⟨_,-,ran⟩ := ran.of_bind
    cases passed : p.run code with
    | error f =>
      rw [passed] at ran
      obtain ⟨_,-,failed⟩ := ran.of_bind
      exact absurd failed Reporting.not_gives_throw
    | ok r =>
      rw [passed] at ran
      refine ih (full_run full passed) ?_
      cases said : r.note with
      | none => simpa only [said] using ran
      | some text =>
        simp only [said] at ran
        obtain ⟨_,-,ran⟩ := ran.of_bind
        exact ran

theorem runPasses_beyond : @runPasses ⟨ws⟩ source ps code = runPasses source ps code := by
  induction ps generalizing code with
  | nil => rfl
  | cons p ps ih =>
    simp only [runPasses,run_pass_beyond ws p full]
    cases passed : p.run code with
    | error f => rfl
    | ok r => simp only [ih (full_run full passed)]

theorem decorations_beyond : @decorations ⟨ws⟩ code = decorations code := by
  refine map_congr_left fun i mem => ?_
  obtain ⟨mem,op⟩ := mem_filter.mp mem
  have read {n : Nat} (here : n ∈ [0,1,2]) : @operand ⟨ws⟩ i n = i.operand n :=
    operand_beyond ws (full i mem) (by rwa [eq_of_beq op])
  rw [read (by decide),read (by decide),read (by decide)]

end

theorem bind_congr_of_gives {ε α β : Type} {work : Reporting ε α} {f g : α → Reporting ε β}
    (same : ∀ a, work.Gives a → f a = g a) : (work >>= f) = work >>= g := by
  refine ExceptT.ext (StateT.ext fun j => ?_)
  rw [ExceptT.run_bind,ExceptT.run_bind,StateT.run_bind,StateT.run_bind]
  cases first : work.run.run j with
  | mk outcome t =>
    cases outcome with
    | error e => rfl
    | ok a =>
      show (f a).run.run t = (g a).run.run t
      rw [same a ⟨j,t,first⟩]

theorem optimize_beyond (m : Module) (full : Bool) (source : String) :
    @optimize ⟨ws⟩ m full source = optimize m full source := by
  unfold optimize
  cases read : decode m with
  | error f => rfl
  | ok decoded =>
    obtain ⟨h,code⟩ := decoded
    have whole : ∀ i ∈ code, i.Full := by
      obtain ⟨_,-,read⟩ := Except.bind_eq_ok.mp read
      obtain ⟨_,instructions,read⟩ := Except.bind_eq_ok.mp read
      cases read
      exact Module.full_of_instructions instructions
    simp only [runPasses_beyond ws whole,decorations_beyond ws whole,findings_beyond]
    refine bind_congr_of_gives fun optimized ran => ?_
    rw [decorations_beyond ws (full_runPasses whole ran)]

end Shading.Bytecode
