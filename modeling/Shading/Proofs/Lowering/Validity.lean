import Shading.Proofs.Lowering.ProgramProgress

/-! What was written coherently is a valid module. -/
namespace Shading.Lowering
open List Bytecode Typed Pass Instruction

def State.front (s : State) (about : List Instruction) : List Instruction :=
  about ++ s.names.toList ++ s.decorations.toList

theorem State.outside_outline (s : State) (p : Program) (id : Id) (rs : List Routine) :
    (s.outline p id rs).outside = s.front (aboutProgram p id) ++ s.decls.toList := rfl

def isRemark : Opcode → Bool
  | .source | .localSize | .entryPoint | .debugName | .decorate => true
  | _ => false

section Remarks

variable {i : Instruction}

section

variable (remark : isRemark i.op = true)
include remark

theorem result?_of_isRemark : i.result? = none := by
  obtain ⟨op,operands⟩ := i
  cases op <;> first | rfl | cases remark

theorem fits_of_isRemark {kind : Id → Option Opcode} {inFunction : Bool} :
    i.Fits kind inFunction := by
  obtain ⟨op,operands⟩ := i
  cases op <;> first
    | exact absurd remark Bool.false_ne_true
    | exact ⟨by simp [resultType?,Opcode.hasResultType],trivial⟩

theorem references_of_isRemark (states : i.op.isNote = false) : i.references = [] := by
  obtain ⟨op,operands⟩ := i
  cases op <;> first
    | exact absurd remark Bool.false_ne_true
    | exact absurd states.symm Bool.false_ne_true
    | simp [references,refersAt]

end

theorem op_of_text? (text : i.text?.isSome = true) : i.op = .debugName := by
  unfold text? at text
  split at text
  · assumption
  · cases text

end Remarks

section Modules

variable {p : Program} {id : Id} {s : State} {rs : List Routine}

section

variable (coherent : s.Coherent [] 0)
include coherent

theorem State.Coherent.mem_front {i : Instruction} (mem : i ∈ s.front (aboutProgram p id)) :
    ((i.op = .source ∨ i.op = .localSize) ∨ i = ⟨.entryPoint, [id]⟩ ∨
      (i.op = .debugName ∧ i.text?.isSome = true) ∨
      i.op = .decorate ∧ Defines s.written (· == .var) (i.operand 0) ∧
        (Decoration.ofCode? i.decorationCode.toNat).isSome = true) ∧ i.Full := by
  rw [State.front,mem_append,mem_append] at mem
  rcases mem with (about | named) | decorated
  · rw [aboutProgram,mem_append] at about
    grind [Full,Opcode.minOperands,Option.map_eq_some_iff]
  · obtain ⟨full,text⟩ := coherent.names i named
    exact ⟨.inr (.inr (.inl ⟨op_of_text? text,text⟩)),full⟩
  · obtain ⟨op,full,target,code⟩ := coherent.decorations i decorated
    exact ⟨.inr (.inr (.inr ⟨op,target.mono (subset_append_left _ _),code⟩)),full⟩

theorem State.Coherent.isRemark {i : Instruction} (mem : i ∈ s.front (aboutProgram p id)) :
    isRemark i.op = true := by
  rcases (coherent.mem_front mem).1 with (op | op) | rfl | ⟨op,-⟩ | ⟨op,-⟩ <;> first | rfl | (rw [op]; rfl)

theorem State.Coherent.results_front : results (s.front (aboutProgram p id)) = [] :=
  results_eq_nil fun _ mem => result?_of_isRemark (coherent.isRemark mem)

theorem State.Coherent.filter_entryPoint :
    ((s.outside (aboutProgram p id)).filter fun i => i.op == .entryPoint) = [⟨.entryPoint, [id]⟩] := by
  have about : (aboutProgram p id).filter (fun i => i.op == .entryPoint) = [⟨.entryPoint,[id]⟩] := by
    cases size : p.localSize <;> simp [aboutProgram,size]
  have names : s.names.toList.filter (fun i => i.op == .entryPoint) = [] :=
    filter_eq_nil_iff.mpr fun i mem => by simp [op_of_text? (coherent.names i mem).2]
  have decorations : s.decorations.toList.filter (fun i => i.op == .entryPoint) = [] :=
    filter_eq_nil_iff.mpr fun i mem => by simp [(coherent.decorations i mem).1]
  have decls : s.decls.toList.filter (fun i => i.op == .entryPoint) = [] := by
    refine filter_eq_nil_iff.mpr fun i mem entry => ?_
    have states := coherent.stated i mem
    rw [beq_iff_eq.mp entry] at states
    cases states
  simp only [State.outside,filter_append,about,names,decorations,decls,append_nil]

end

variable (same : s.code.toList = rs.flatMap Routine.code)
include same

theorem State.code_outline :
    (s.outline p id rs).code = s.front (aboutProgram p id) ++ s.written := by
  rw [Outline.code,State.outside_outline,← same,State.written,List.append_assoc]

section

variable (coherent : s.Coherent [] 0)
include coherent

theorem State.Coherent.results_outline : results (s.outline p id rs).code = results s.written := by
  rw [State.code_outline same,results_append,coherent.results_front,nil_append]

/-- The structure of what was written is that of a valid module, if its ids are few enough. -/
theorem State.Coherent.valid (entry : Defines s.written (· == .function) id)
    (shaped : (s.outline p id rs).Shaped) (inside : (s.outline p id rs).Scoped)
    (few : (s.outline p id rs).code.length < 2 ^ 32 - 1) : (s.outline p id rs).Valid ∧
      ∀ x ∈ results (s.outline p id rs).code, x < s.nextId := by
  have defined : results (s.outline p id rs).code = results s.written := coherent.results_outline same
  have written : s.written ⊆ (s.outline p id rs).code := by
    rw [State.code_outline same]
    exact subset_append_right _ _
  have within : ∀ r ∈ rs, ∀ i ∈ r.code, i ∈ s.code.toList := fun r mem i here => by
    rw [same]
    exact mem_flatMap.mpr ⟨r,mem,here⟩
  have outer : results (s.outline p id rs).outside = s.known := by
    rw [State.outside_outline,results_append,coherent.results_front,nil_append,State.known]
  obtain ⟨unique,nonzero,below⟩ := coherent.numbered.apart (by
    rw [nil_append,← defined]
    exact Nat.lt_of_le_of_lt (length_filterMap_le _ _) few)
  rw [nil_append,← defined] at unique nonzero below
  have ordered : Ordered [] (s.outline p id rs).code := by
    rw [Outline.code,State.outside_outline,List.append_assoc]
    refine ordered_append.mpr ⟨.of_closed fun i mem states => ?_,?_⟩
    · simp [references_of_isRemark (coherent.isRemark mem) states]
    · rw [coherent.results_front,nil_append]
      refine ordered_append.mpr ⟨coherent.ordered,?_⟩
      have heads := inside.heads
      have bodies := inside.bodies
      rw [outer] at heads bodies
      rw [append_nil]
      exact ordered_routines heads bodies (Subset.refl _) (same ▸ coherent.called)
  refine ⟨⟨unique,nonzero,ordered,fun i mem => ?_,fun i mem => ?_,fun r mem i here => ?_,
    jumps_routines shaped.routines (same ▸ coherent.looped),?_⟩,below⟩
  · rw [State.outside_outline,mem_append] at mem
    rcases mem with front | declared
    · rcases (coherent.mem_front front).1 with (op | op) | rfl | ⟨op,text⟩ |
        ⟨op,target,decoration⟩
      · exact Outline.annotates_of_isNote_false (by rw [op]; rfl)
      · exact Outline.annotates_of_isNote_false (by rw [op]; rfl)
      · exact (entry.mono written).kindOf_eq unique
      · rw [Annotates,op]
        refine ⟨?_,text⟩
        obtain ⟨d,listed,result,-⟩ := inside.named i (mem_append_left _ front) op
        rw [kindOf_of_mem unique listed result]
        rfl
      · rw [Annotates,op]
        exact ⟨(target.mono written).kindOf_eq unique,decoration⟩
    · exact Outline.annotates_of_isNote_false (coherent.stated i declared)
  · rw [State.outside_outline,mem_append] at mem
    rcases mem with front | declared
    · exact fits_of_isRemark (coherent.isRemark front)
    · exact ((coherent.outside i declared).mono written).fits unique
  · exact ((coherent.inside i (within r mem i here)).mono written).fits unique
  · rw [coherent.filter_entryPoint]
    rfl

theorem State.Coherent.full : ∀ i ∈ (s.outline p id rs).code, i.Full := by
  rw [State.code_outline same,State.written]
  simp only [forall_mem_append]
  exact ⟨fun i mem => (coherent.mem_front mem).2,fun i mem => (coherent.outside i mem).full,
    fun i mem => (coherent.inside i mem).full⟩

end

end Modules

theorem lowerProgram_run {p : Program} {code : List Instruction} {s : State}
    (ran : (lowerCode p).run {} = .ok (code, s)) : (lowerProgram p).run' {} =
      match Module.assemble (.new p.stage s.nextId) code with
      | .ok m => .ok m
      | .error f => .error (.encoding f) := by
  rw [StateT.run'_eq,lowerProgram_eq,Lower.run_bind_of_ok ran,Lower.run_get_bind]
  cases Module.assemble (.new p.stage s.nextId) code <;> rfl

/-- The code of such a program can be written, and nothing but the length of an instruction keeps it from
being a module. -/
theorem Lowerable.lower {p : Program} (low : Lowerable p) :
    ∃ code, (lowerCode p).run' {} = .ok code ∧ (code.length < 2 ^ 32 - 1 →
      ((∃ m, (Lowering.lower p).Always m) ↔ ∀ i ∈ code, i.Short)) := by
  obtain ⟨code,s,ran,coherent,entries⟩ := lowerCode_does low
  refine ⟨code,by rw [StateT.run'_eq,ran]; rfl,fun few => ?_⟩
  have ranProgram := lowerProgram_run ran
  obtain ⟨id,rs,same,rfl,⟨entry,isEntry,handed⟩,-,shaped,inside⟩ :=
    lowerCode_outline low.scoping ran
  have valid := coherent.valid same (entries entry isEntry id handed) shaped inside few
  constructor
  · rintro ⟨m,always⟩
    have given := always.gives
    unfold Lowering.lower at given
    rw [ranProgram] at given
    cases assembled : Module.assemble (.new p.stage s.nextId) (s.outline p id rs).code with
    | error f =>
      rw [assembled] at given
      exact absurd given Reporting.not_gives_throw
    | ok m => exact (Module.assemble_eq_ok.mp assembled).1
  · intro short
    obtain ⟨m,assembled⟩ :
        ∃ m, Module.assemble (.new p.stage s.nextId) (s.outline p id rs).code = .ok m :=
      ⟨_,Module.assemble_eq_ok.mpr ⟨short,rfl⟩⟩
    have current : (Header.new p.stage s.nextId).Current := rfl
    have decoded := (decode_assemble current assembled).mpr ⟨rfl,rfl,coherent.full same⟩
    have clean : m.findings = [] :=
      Module.findings_eq_nil_iff.mpr ⟨_,_,decoded,(Outline.findings_eq_nil_iff shaped _).mpr valid⟩
    refine ⟨m,?_⟩
    grind [lower,Reporting.always_note,Reporting.Always.bind,Reporting.always_pure]

end Shading.Lowering
