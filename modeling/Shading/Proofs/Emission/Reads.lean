import Shading.Proofs.Bytecode.Reads
import Shading.Proofs.Emission.ControlTree
import Shading.Proofs.Emission.Document

/-! What is read of a module to write its text lies among the operands of its instructions. -/
namespace Shading.Emission
open Bytecode Bytecode.Instruction List

variable {i : Instruction} {code : List Instruction} (ws : List UInt32)

namespace Tables

variable {t : Tables}

theorem declareTy_beyond (isType : i.op.isType = true) (full : i.Full) :
    @declareTy ⟨ws⟩ t i = t.declareTy i := by
  have read {n : Nat} (here : n ∈ i.op.reads) := operand_beyond ws full here
  have first : 0 ∈ i.op.reads := by
    cases op : i.op <;> first | decide | (rw [op] at isType; cases isType)
  have declared : @declaredTy ⟨ws⟩ t i = t.declaredTy i := by
    unfold declaredTy
    split <;> rename_i op <;> simp [read,op,Opcode.reads]
  have pointing : @pointing? ⟨ws⟩ i = pointing? i := by
    unfold pointing?
    split
    · rename_i op
      rw [read first,read (by rw [op]; decide)]
    · rfl
  simp only [declareTy,declared,pointing,read first]

theorem learn_beyond (full : i.Full) : @learn ⟨ws⟩ t i = t.learn i := by
  unfold learn
  split
  case h_8 =>
    split
    · exact declareTy_beyond ws ‹_› full
    · rfl
  all_goals rename_i op
  all_goals simp [operand_beyond ws full,operandsFrom_beyond ws full,op,Opcode.reads,Opcode.tail?]

theorem scan_beyond (full : i.Full) : @scan ⟨ws⟩ t i = t.scan i := by
  unfold scan
  simp only [learn_beyond ws full]
  split <;> rename_i op <;> simp [operand_beyond ws full,op,Opcode.reads]

theorem ofCode_beyond (target : Target) (full : ∀ i ∈ code, i.Full) :
    @ofCode ⟨ws⟩ target code = ofCode target code := by
  have scanned : ∀ (code : List Instruction) (t : Tables), (∀ i ∈ code, i.Full) →
      code.foldlM (@scan ⟨ws⟩) t = code.foldlM scan t := by
    intro code
    induction code with
    | nil => exact fun _ _ => rfl
    | cons i code ih =>
      intro t full
      rw [forall_mem_cons] at full
      simp only [foldlM_cons,scan_beyond ws full.1,ih _ full.2]
  simp only [ofCode,scanned code {} full]

end Tables

section Blocks

theorem opens?_beyond (full : i.Full) : @opens? ⟨ws⟩ i = opens? i := by
  unfold opens?
  split <;> rename_i op <;> simp [operand_beyond ws full,op,Opcode.reads]

theorem next_beyond (o : Open) (block : List Node) (full : i.Full) :
    @Open.next ⟨ws⟩ o block i = o.next block i := by
  unfold Open.next
  split <;> rename_i op <;> simp [operand_beyond ws full,op,Opcode.reads]

theorem controlTree_beyond (function : String) (full : ∀ i ∈ code, i.Full) :
    @controlTree ⟨ws⟩ function code = controlTree function code := by
  have built : ∀ (code : List Instruction) (stack : List (Open × List Node)) (block : List Node),
      (∀ i ∈ code, i.Full) →
        @buildBlock ⟨ws⟩ function stack block code = buildBlock function stack block code := by
    intro code
    induction code with
    | nil => rintro (_ | _) _ _ <;> rfl
    | cons i code ih =>
      intro stack block full
      rw [forall_mem_cons] at full
      cases stack with
      | nil => simp only [buildBlock,opens?_beyond ws full.1,ih _ _ full.2]
      | cons top stack => simp only [buildBlock,opens?_beyond ws full.1,next_beyond ws _ _ full.1,ih _ _ full.2]
  exact built code [] [] full

end Blocks

section Bodies

variable {s : Scene}

theorem valueTerm_beyond (full : i.Full) : @valueTerm ⟨ws⟩ s i = valueTerm s i := by
  unfold valueTerm
  split <;> rename_i op <;> simp [binaryTerm,unaryTerm,constructTerm,swizzleTerm,extractTerm,selectTerm,
    builtinTerm,operand_beyond ws full,operandsFrom_beyond ws full,op,Opcode.reads,Opcode.tail?]

theorem writeInstruction_beyond (full : i.Full) : @writeInstruction ⟨ws⟩ s i = writeInstruction s i := by
  have read {n : Nat} (here : n ∈ i.op.reads) := operand_beyond ws full here
  unfold writeInstruction
  split
  case h_11 =>
    rw [valueTerm_beyond ws full]
    by_cases typed : i.op.hasResultType = true
    · have result : 1 ∈ i.op.reads := by
        cases op : i.op <;> first | decide | (rw [op] at typed; cases typed)
      rw [read result]
    · rw [valueTerm_of_no_result (by simpa using typed)]
      rfl
  all_goals rename_i op
  all_goals simp [writeCall,read,operandsFrom_beyond ws full,op,Opcode.reads,Opcode.tail?]

mutual

theorem writeNode_beyond : ∀ n : Node, (∀ i ∈ n.plains, i.Full) → @writeNode ⟨ws⟩ s n = writeNode s n
  | .plain i, full => writeInstruction_beyond ws (full i (mem_singleton_self i))
  | .if_ cond yes no, full => by
    rw [Node.plains,forall_mem_append] at full
    simp only [writeNode,writeNodes_beyond yes full.1,writeNodes_beyond no full.2]
  | .loop tail header cond body continuing tailCond, full => by
    rw [Node.plains,forall_mem_append,forall_mem_append] at full
    simp only [writeNode,writeNodes_beyond header full.1,writeNodes_beyond body full.2.1,
      writeNodes_beyond continuing full.2.2]

theorem writeNodes_beyond : ∀ ns : List Node, (∀ i ∈ plainsOf ns, i.Full) →
    @writeNodes ⟨ws⟩ s ns = writeNodes s ns
  | [], _ => rfl
  | n :: ns, full => by
    rw [plainsOf_cons,forall_mem_append] at full
    simp only [writeNodes,writeNode_beyond n full.1,writeNodes_beyond ns full.2]

end

theorem lift_bind_congr {α β : Type} {x : Except Fault α} {f g : α → Write β} (same : ∀ a, x = .ok a → f a = g a) :
    ((liftM x : Write α) >>= f) = liftM x >>= g := by
  cases x with
  | error e => rfl
  | ok a => exact same a rfl

theorem writeFunction_beyond (name : String) {f : Function} (full : ∀ i ∈ f.body, i.Full) :
    @writeFunction ⟨ws⟩ s name f = writeFunction s name f := by
  unfold writeFunction
  rw [controlTree_beyond ws name full]
  refine bind_congr fun params => lift_bind_congr fun nodes built => ?_
  rw [writeNodes_beyond ws nodes fun i mem => full i ((controlTree_plains built).subset mem)]

theorem writeFunctions_beyond (c : Context) (g : Globals) (used : List String) (names : Table String) :
    ∀ fs : List (String × Function), (∀ f ∈ fs, ∀ i ∈ f.2.body, i.Full) →
      @writeFunctions ⟨ws⟩ c g used names fs = writeFunctions c g used names fs := by
  intro fs
  induction fs with
  | nil => exact fun _ => rfl
  | cons f fs ih =>
    intro full
    rw [forall_mem_cons] at full
    simp only [writeFunctions,writeFunction_beyond ws f.1 full.1,ih full.2]

theorem mem_assignFunctionNames {c : Context} {used : List String} {fs : List Function} :
    ∀ f ∈ (c.assignFunctionNames used fs).1, f.2 ∈ fs := by
  induction fs generalizing used with
  | nil => exact fun f mem => nomatch mem
  | cons f fs ih => exact forall_mem_cons.mpr ⟨mem_cons_self,fun g mem => mem_cons_of_mem _ (ih g mem)⟩

theorem Context.document_beyond {c : Context} (full : ∀ f ∈ c.tables.functions, ∀ i ∈ f.body, i.Full) :
    @Context.document ⟨ws⟩ c = c.document := by
  refine bind_congr fun g => ?_
  have named : ∀ f ∈ (c.assignFunctionNames g.used c.tables.functions).1, f.2 ∈ c.tables.functions :=
    mem_assignFunctionNames
  cases given : c.assignFunctionNames g.used c.tables.functions with
  | mk fs used =>
    rw [given] at named
    simp only [writeFunctions_beyond ws _ _ _ _ fs fun f mem => full f.2 (named f mem)]

theorem bind_congr_of_ok {ε α β : Type} {x : Except ε α} {f g : α → Except ε β}
    (same : ∀ a, x = .ok a → f a = g a) : (x >>= f) = x >>= g := by
  cases x with
  | error e => rfl
  | ok a => exact same a rfl

theorem document_beyond (m : Module) (target : Target) : @document ⟨ws⟩ m target = document m target := by
  refine bind_congr fun h => bind_congr_of_ok fun code read => ?_
  have full := Module.full_of_instructions (Except.mapError_eq_ok.mp read)
  rw [Tables.ofCode_beyond ws target full]
  refine bind_congr fun _ => bind_congr_of_ok fun made scanned => ?_
  obtain ⟨tables,entry⟩ := made
  have inside := Tables.scan_bodies (Tables.ofCode_scanned scanned)
  exact Context.document_beyond ws fun f mem i here => full i (inside f (mem_append_left _ mem) here)

theorem emit_beyond (m : Module) (version : Nat) (es : Bool) : @emit ⟨ws⟩ m version es = emit m version es := by
  simp only [emit,document_beyond]

end Bodies

/-- Nothing is read out of range. The result and the ids of other instructions stand at distinct places
among the operands of every instruction that is read from words, and so does each operand that is read without
a look at their number; and whatever words lie behind the operands, a module is optimized, checked and written
in the same way. -/
theorem reads_in_range :
    (∀ offset w rest i, Instruction.decode offset w rest = .ok i →
      (i.resultPosition?.toList ++ i.referencePositions).Nodup ∧
      (∀ p ∈ i.resultPosition?.toList ++ i.referencePositions, p < i.operands.length) ∧
      (∀ p, p ∈ i.referencePositions ↔ i.refersAt p = true ∧ p < i.operands.length) ∧
      (∀ p ∈ i.op.reads, p < i.operands.length) ∧ ∀ p ∈ i.op.tail?, p ≤ i.operands.length) ∧
    ∀ ws m, (∀ full source, @optimize ⟨ws⟩ m full source = optimize m full source) ∧
      @Module.findings ⟨ws⟩ m = m.findings ∧
      ∀ version es, @emit ⟨ws⟩ m version es = emit m version es := by
  refine ⟨fun offset w rest i read => ?_,fun ws m =>
    ⟨optimize_beyond ws m,findings_beyond ws m,emit_beyond ws m⟩⟩
  have full := Module.full_of_decode read
  refine ⟨positions_nodup i,forall_mem_append.mpr ⟨fun p here => ?_,fun p here => ?_⟩,
    mem_referencePositions full,reads_lt full⟩
  · exact resultPosition_lt full (Option.mem_toList.mp here)
  · exact ((mem_referencePositions full p).mp here).2

theorem chain_reads_in_range :
    Instruction.decode 0 0x0005002a [3, 7, 5, 9] = .ok ⟨.accessChain, [3, 7, 5, 9]⟩ ∧
      ((∀ p ∈ [1, 0, 2, 3], p < 4) ∧ (∀ p ∈ [1, 2], p < 4) ∧ ∀ p ∈ some 3, p ≤ 4) ∧
      @optimize ⟨[9]⟩ ⟨[0x58534c47, 65536, 0, 1, 0, 65605]⟩ true "a" =
        optimize ⟨[0x58534c47, 65536, 0, 1, 0, 65605]⟩ true "a" := by
  have read : Instruction.decode 0 0x0005002a [3,7,5,9] = .ok ⟨.accessChain,[3,7,5,9]⟩ := rfl
  obtain ⟨-,inside,-,reads,tail⟩ := reads_in_range.1 0 0x0005002a [3,7,5,9] _ read
  exact ⟨read,⟨inside,reads,tail⟩,(reads_in_range.2 [9] _).1 true "a"⟩

end Shading.Emission
