import Shading.Bytecode.Validity
import Shading.Proofs.Bytecode.Block

/-! A module as a list of what stands outside of functions and a list of functions with structured
bodies. The validity of such a module is a list of conditions without an order of traversal, and they hold
exactly if nothing is found wrong with its code. -/
namespace Shading.Bytecode
open List Pass Opcode Block

variable {tests : Bool} {b : Block} {bound : Id} {r : Routine}

/-- A function with a structured body. -/
structure Routine where
  head : Instruction
  params : List Instruction
  body : Block
  deriving DecidableEq, Repr

namespace Routine

def id (r : Routine) : Id := r.head.operand 1

def code (r : Routine) : List Instruction :=
  r.head :: (r.params ++ r.body.code) ++ [⟨.functionEnd, []⟩]

/-- Each instruction stands in its place. -/
structure Shaped (r : Routine) : Prop where
  head : r.head.op = .function
  defines : r.head.result? = some r.id
  params : ∀ i ∈ r.params, i.op = .functionParameter
  body : r.body.Proper false

end Routine

/-- Stands before all functions. -/
def Opcode.isOutside (op : Opcode) : Bool :=
  op.isDeclaration || op.isNote || op == .var || op == .source || op == .localSize

/-- A module in its structure. -/
structure Outline where
  outside : List Instruction
  routines : List Routine
  deriving DecidableEq, Repr

namespace Outline

def code (t : Outline) : List Instruction := t.outside ++ t.routines.flatMap Routine.code

structure Shaped (t : Outline) : Prop where
  outside : ∀ i ∈ t.outside, i.op.isOutside = true
  routines : ∀ r ∈ t.routines, r.Shaped

end Outline

def kindOf (code : List Instruction) (id : Id) : Option Opcode := (definition? code id).map Instruction.op

namespace Instruction

/-- The type of the result is a type, and pointers are pointers, by what operations define the ids. -/
def Fits (kind : Id → Option Opcode) (inFunction : Bool) (i : Instruction) : Prop :=
  (∀ t ∈ i.resultType?, (kind t).any isType = true ∧
    (i.op.isPointer = true → kind t = some .typePointer)) ∧
  match i.op with
  | .var => ∃ c, i.storage? = some c ∧ (inFunction = true ↔ c = .function)
  | .load | .accessChain => (kind (i.operand 2)).any isPointer = true
  | .store => (kind (i.operand 0)).any isPointer = true
  | .call => kind (i.operand 2) = some .function
  | _ => True

/-- An annotation has a target of the right kind. -/
def Annotates (kind : Id → Option Opcode) (i : Instruction) : Prop :=
  match i.op with
  | .entryPoint => kind (i.operand 0) = some .function
  | .decorate => kind (i.operand 0) = some .var ∧ (Decoration.ofCode? i.decorationCode.toNat).isSome = true
  | .debugName => (kind (i.operand 0)).isSome = true ∧ i.text?.isSome = true
  | _ => True

end Instruction

def Ordered : List Id → List Instruction → Prop
  | _, [] => True
  | defined, i :: rest =>
    (i.op.isNote = false → i.references ⊆ defined) ∧
      Ordered (i.result?.toList ++ defined) rest

def Block.Jumps : Bool → Block → Prop
  | _, .done => True
  | inLoop, .plain i rest =>
    (i.op = .breakLoop ∨ i.op = .continueLoop → inLoop = true) ∧ rest.Jumps inLoop
  | inLoop, .ifThen _ yes rest => yes.Jumps inLoop ∧ rest.Jumps inLoop
  | inLoop, .ifElse _ yes no rest => yes.Jumps inLoop ∧ no.Jumps inLoop ∧ rest.Jumps inLoop
  | inLoop, .loop _ body continuing rest =>
    body.Jumps true ∧ continuing.Jumps true ∧ rest.Jumps inLoop

/-- Every id is defined once and before its use, by an operation that fits its uses. -/
structure Outline.Valid (t : Outline) : Prop where
  unique : (results t.code).Nodup
  nonzero : 0 ∉ results t.code
  ordered : Ordered [] t.code
  annotations : ∀ i ∈ t.outside, i.Annotates (kindOf t.code)
  outside : ∀ i ∈ t.outside, i.Fits (kindOf t.code) false
  routines : ∀ r ∈ t.routines, ∀ i ∈ r.code, i.Fits (kindOf t.code) true
  jumps : ∀ r ∈ t.routines, r.body.Jumps false
  entry : (t.outside.filter fun i => i.op == .entryPoint).length = 1

def Opcode.isNamed : Opcode → Bool
  | .function | .var | .functionParameter => true
  | _ => false

/-- Ids are mentioned where they are visible, what is decorated stands outside of functions, and names
belong to functions, variables and parameters. -/
structure Outline.Scoped (t : Outline) : Prop where
  heads : ∀ r ∈ t.routines, ∀ i ∈ r.head :: r.params, i.references ⊆ results t.outside
  bodies : ∀ r ∈ t.routines, r.body.Scoped (results r.params ++ results t.outside)
  decorated : ∀ i ∈ t.outside, i.op = .decorate → i.operand 0 ∈ results t.outside
  named : ∀ i ∈ t.outside, i.op = .debugName →
    ∃ d ∈ t.code, d.result? = some (i.operand 0) ∧ d.op.isNamed = true

theorem definedBy_eq (code : List Instruction) (id : Id) (test : Opcode → Bool) :
    definedBy code id test = (kindOf code id).any test := by
  simp only [definedBy,kindOf]
  cases definition? code id <;> rfl

variable {i : Instruction}

theorem flaws_eq_nil_iff {code : List Instruction} {inFunction : Bool} :
    typeFlaws code i = [] ∧ operandFlaws code inFunction i = [] ↔
      i.Fits (kindOf code) inFunction := by
  refine and_congr ?_ ?_
  · unfold typeFlaws
    cases i.resultType? with
    | none => simp
    | some t =>
      have pointer : (kindOf code t).any (· == .typePointer) = true ↔
          kindOf code t = some .typePointer := by
        cases kindOf code t <;> simp
      grind [definedBy_eq]
  · unfold operandFlaws
    simp only [definedBy_eq]
    split
    · grind
    · simp_all
    · simp_all
    · simp_all
    · rename_i op
      have function : (kindOf code (i.operand 2)).any (· == .function) = true ↔
          kindOf code (i.operand 2) = some .function := by
        cases kindOf code (i.operand 2) <;> simp
      simp [op,← function]
    · split <;> simp_all

theorem annotationFlaws_eq_nil_iff {code : List Instruction}
    (annotates : i.op.isNote = true) :
    annotationFlaws code i = [] ↔ i.Annotates (kindOf code) := by
  unfold annotationFlaws Instruction.Annotates kindOf
  obtain ⟨op,operands⟩ := i
  cases op <;> simp only [isNote,Bool.false_eq_true] at annotates
  all_goals
    dsimp only
    cases definition? code (Instruction.operand _ 0) <;> simp [Option.isSome_iff_ne_none]

/-- Where an instruction may stand, but for annotations. -/
def Placed (code : List Instruction) : Nesting → List Instruction → Prop
  | n, [] => n.inFunction = false
  | n, i :: rest =>
    if i.op.isNote then Placed code n rest
    else operandFlaws code n.inFunction i = [] ∧ (n.step i.op).1 = [] ∧ Placed code (n.step i.op).2 rest

theorem referenceFlaws_eq_nil_iff {defined : List Id} :
    referenceFlaws defined i = [] ↔ i.references ⊆ defined := by
  simp [referenceFlaws,filter_eq_nil_iff,subset_def]

theorem orderFindings_eq_nil_iff {code : List Instruction} :
    ∀ (rest : List Instruction) (index : Nat) (defined : List Id) (n : Nesting),
      orderFindings code index defined n rest = [] ↔
        (∀ i ∈ rest, if i.op.isNote then annotationFlaws code i = []
          else typeFlaws code i = []) ∧ Ordered defined rest ∧ Placed code n rest := by
  intro rest
  induction rest with
  | nil =>
    intro index defined n
    simp [orderFindings,Ordered,Placed]
  | cons i rest ih =>
    intro index defined n
    rw [orderFindings,forall_mem_cons,Ordered,Placed]
    cases annotates : i.op.isNote with
    | true =>
      have none : i.result? = none := by
        obtain ⟨op,operands⟩ := i
        cases op <;> first | rfl | cases annotates
      grind [append_eq_nil_iff,map_eq_nil_iff]
    | false =>
      simp only [Bool.false_eq_true,if_false,append_eq_nil_iff,map_eq_nil_iff,ih,
        referenceFlaws_eq_nil_iff]
      grind

theorem definitionFindings_eq_nil_iff :
    ∀ (code : List Instruction) (index : Nat) (seen : List Id),
      definitionFindings bound index seen code = [] ↔
        (∀ id ∈ results code, id ≠ 0 ∧ id < bound ∧ id ∉ seen) ∧ (results code).Nodup := by
  intro code
  induction code with
  | nil => simp [definitionFindings,results]
  | cons i rest ih =>
    intro index seen
    rw [definitionFindings]
    cases result : i.result? with
    | none => simp [ih,results,result]
    | some id =>
      have cons : results (i :: rest) = id :: results rest := by simp [results,result]
      rw [cons]
      simp only [append_eq_nil_iff,ih,forall_mem_cons,nodup_cons]
      grind

/-- The open construct is a part of a loop, as it has to be for a condition of going on. -/
def Nesting.Tests (tests : Bool) (stack : List Construct) : Prop :=
  tests = true → ∃ c rest, stack = c :: rest ∧ c.isLoop = true

variable {op : Opcode}

theorem Nesting.step_plain {stack : List Construct} (plain : op.isPlain = true)
    (open_ : Nesting.Tests tests stack) (test : op = .loopCondition → tests = true) :
    (Nesting.step ⟨true, stack⟩ op).2 = ⟨true, stack⟩ ∧ ((Nesting.step ⟨true, stack⟩ op).1 = [] ↔
        (op = .breakLoop ∨ op = .continueLoop → stack.any Construct.isLoop = true)) := by
  cases op <;> simp only [isPlain,Bool.false_eq_true] at plain
  case loopCondition =>
    obtain ⟨c,rest,rfl,loop⟩ := open_ (test rfl)
    cases c <;> simp_all [Nesting.step,Nesting.control,isDeclaration,isType,Construct.isLoop]
  all_goals
    simp [Nesting.step,Nesting.control,isDeclaration,isType]

theorem Opcode.isNote_of_isPlain (plain : op.isPlain = true) : op.isNote = false := by
  cases op <;> first | rfl | cases plain

section Nested

variable {code rest : List Instruction} {stack : List Construct}

theorem placed_control {op : Opcode} {operands : List UInt32} {n : Nesting}
    (states : op.isNote = false) (sound : operandFlaws code true ⟨op, operands⟩ = [])
    (step : Nesting.step ⟨true, stack⟩ op = ([], n)) :
    Placed code ⟨true, stack⟩ (⟨op, operands⟩ :: rest) ↔ Placed code n rest := by
  rw [Placed]
  simp only [states,Bool.false_eq_true,if_false,sound,step,true_and]

@[simp] theorem placed_ifThen {c : Id} :
    Placed code ⟨true, stack⟩ (⟨.ifThen, [c]⟩ :: rest) ↔ Placed code ⟨true, .ifThen :: stack⟩ rest :=
  placed_control rfl rfl rfl

@[simp] theorem placed_orElse : Placed code ⟨true, .ifThen :: stack⟩ (⟨.orElse, []⟩ :: rest) ↔
      Placed code ⟨true, .orElse :: stack⟩ rest :=
  placed_control rfl rfl rfl

@[simp] theorem placed_endIf {c : Construct} (choice : c = .ifThen ∨ c = .orElse) :
    Placed code ⟨true, c :: stack⟩ (⟨.endIf, []⟩ :: rest) ↔ Placed code ⟨true, stack⟩ rest := by
  rcases choice with rfl | rfl
  · exact placed_control rfl rfl rfl
  · exact placed_control rfl rfl rfl

@[simp] theorem placed_loop {w : UInt32} :
    Placed code ⟨true, stack⟩ (⟨.loop, [w]⟩ :: rest) ↔ Placed code ⟨true, .loop :: stack⟩ rest :=
  placed_control rfl rfl rfl

@[simp] theorem placed_loopContinue :
    Placed code ⟨true, .loop :: stack⟩ (⟨.loopContinue, []⟩ :: rest) ↔
      Placed code ⟨true, .continuing :: stack⟩ rest :=
  placed_control rfl rfl rfl

@[simp] theorem placed_endLoop : Placed code ⟨true, .continuing :: stack⟩ (⟨.endLoop, []⟩ :: rest) ↔
      Placed code ⟨true, stack⟩ rest :=
  placed_control rfl rfl rfl

end Nested

/-- The code of a block stands well in a function if its jumps do, and leaves all constructs closed. -/
theorem placed_block {code : List Instruction} (proper : b.Proper tests) :
    ∀ {stack : List Construct} {rest : List Instruction}, Nesting.Tests tests stack →
      (Placed code ⟨true, stack⟩ (b.code ++ rest) ↔
        (∀ i ∈ b.code, operandFlaws code true i = []) ∧ b.Jumps (stack.any Construct.isLoop) ∧
          Placed code ⟨true, stack⟩ rest) := by
  have loop : ∀ (c : Construct) (stack : List Construct), c.isLoop = true →
      Nesting.Tests true (c :: stack) := fun c stack loop _ => ⟨c,stack,rfl,loop⟩
  have none : ∀ stack : List Construct, Nesting.Tests false stack := fun _ h => absurd h (by simp)
  induction b generalizing tests with
  | done => simp [Block.code,Jumps]
  | plain i b ih =>
    intro stack rest open_
    obtain ⟨plain,test,proper⟩ := proper
    have step := Nesting.step_plain plain open_ test
    have open' : Nesting.Tests (tests && !i.op.isTerminator) stack :=
      fun h => open_ (by simp only [Bool.and_eq_true] at h; exact h.1)
    rw [Block.code,cons_append,Placed,isNote_of_isPlain plain]
    grind [Jumps]
  | ifThen c yes b ihYes ih =>
    intro stack rest open_
    simp only [Block.code,cons_append,List.append_assoc,placed_ifThen,ihYes proper.1 (none _),
      placed_endIf,true_or,ih proper.2 open_,forall_mem_cons,forall_mem_append,
      Jumps,any_cons,Construct.isLoop,Bool.false_or]
    simp [operandFlaws,and_assoc,and_left_comm]
  | ifElse c yes no b ihYes ihNo ih =>
    intro stack rest open_
    simp only [Block.code,cons_append,List.append_assoc,placed_ifThen,ihYes proper.1 (none _),
      placed_orElse,ihNo proper.2.1 (none _),placed_endIf,or_true,ih proper.2.2 open_,
      forall_mem_cons,forall_mem_append,Jumps,any_cons,Construct.isLoop,Bool.false_or]
    simp [operandFlaws,and_assoc,and_left_comm]
  | loop t body continuing b ihBody ihContinuing ih =>
    intro stack rest open_
    simp only [Block.code,cons_append,List.append_assoc,placed_loop,
      ihBody proper.1 (loop .loop _ rfl),placed_loopContinue,
      ihContinuing proper.2.1 (loop .continuing _ rfl),placed_endLoop,ih proper.2.2 open_,
      forall_mem_cons,forall_mem_append,Jumps,any_cons,Construct.isLoop,Bool.true_or]
    simp [operandFlaws,and_assoc,and_left_comm]

theorem placed_params {code rest : List Instruction} :
    ∀ {params : List Instruction}, (∀ i ∈ params, i.op = .functionParameter) →
      (Placed code ⟨true, []⟩ (params ++ rest) ↔ Placed code ⟨true, []⟩ rest)
  | [], _ => by simp
  | i :: params, shaped => by
    have op := shaped i mem_cons_self
    have ih : Placed code ⟨true,[]⟩ (params ++ rest) ↔ Placed code ⟨true,[]⟩ rest :=
      placed_params fun i m => shaped i (.tail _ m)
    simp [Placed,op,ih,isNote,operandFlaws,Nesting.step,Nesting.control,isDeclaration,isType]

theorem placed_routine {code rest : List Instruction} (shaped : r.Shaped) :
    Placed code {} (r.code ++ rest) ↔
      (∀ i ∈ r.code, operandFlaws code true i = []) ∧ r.body.Jumps false ∧ Placed code {} rest := by
  have none : Nesting.Tests false [] := fun h => absurd h (by simp)
  have heads : ∀ i ∈ r.head :: r.params, operandFlaws code true i = [] := by
    grind [operandFlaws,Routine.Shaped.head,Routine.Shaped.params]
  have last : Placed code ⟨true,[]⟩ (⟨.functionEnd,[]⟩ :: rest) ↔ Placed code {} rest := by
    simp [Placed,isNote,operandFlaws,Nesting.step,isDeclaration,isType]
  have first : Placed code {} (r.head :: (r.params ++ (r.body.code ++ ⟨.functionEnd,[]⟩ :: rest))) ↔
      Placed code ⟨true,[]⟩ (r.params ++ (r.body.code ++ ⟨.functionEnd,[]⟩ :: rest)) := by
    simp [Placed,shaped.head,isNote,operandFlaws,Nesting.step,isDeclaration,isType]
  have split : r.code ++ rest = r.head :: (r.params ++ (r.body.code ++ ⟨.functionEnd,[]⟩ :: rest)) := by
    simp [Routine.code]
  have members : (∀ i ∈ r.code, operandFlaws code true i = []) ↔
      ∀ i ∈ r.body.code, operandFlaws code true i = [] := by
    grind [operandFlaws,Routine.code]
  rw [split,first,placed_params shaped.params,placed_block shaped.body none,last,members]
  rfl

theorem placed_routines {code : List Instruction} :
    ∀ {routines : List Routine}, (∀ r ∈ routines, r.Shaped) →
      (Placed code {} (routines.flatMap Routine.code) ↔
        (∀ r ∈ routines, ∀ i ∈ r.code, operandFlaws code true i = []) ∧
          ∀ r ∈ routines, r.body.Jumps false)
  | [], _ => by simp [Placed]
  | r :: routines, shaped => by
    rw [forall_mem_cons] at shaped
    rw [flatMap_cons,placed_routine shaped.1,placed_routines shaped.2]
    simp only [forall_mem_cons]
    simp only [and_assoc,and_left_comm]

theorem Nesting.step_outside (outside : op.isOutside = true) (states : op.isNote = false) :
    Nesting.step {} op = ([], {}) := by
  cases op <;> revert outside states <;> decide

theorem placed_outside {code rest : List Instruction} :
    ∀ {outside : List Instruction}, (∀ i ∈ outside, i.op.isOutside = true) →
      (Placed code {} (outside ++ rest) ↔
        (∀ i ∈ outside, operandFlaws code false i = []) ∧ Placed code {} rest)
  | [], _ => by simp
  | i :: outside, shaped => by
    rw [forall_mem_cons] at shaped
    have ih : Placed code {} (outside ++ rest) ↔
        (∀ i ∈ outside, operandFlaws code false i = []) ∧ Placed code {} rest := placed_outside shaped.2
    grind [Placed,isNote,operandFlaws,Nesting.step_outside]

def Opcode.isBody : Opcode → Bool
  | .ifThen | .orElse | .endIf | .loop | .loopContinue | .endLoop => true
  | op => op.isPlain

theorem Block.Proper.isBody (proper : b.Proper tests) : ∀ i ∈ b.code, i.op.isBody = true := by
  have plain : ∀ op : Opcode, op.isPlain = true → op.isBody = true := by
    intro op
    cases op <;> decide
  induction b generalizing tests with
  | done => simp [Block.code]
  | plain i b ih => exact forall_mem_cons.mpr ⟨plain _ proper.1,ih proper.2.2⟩
  | ifThen c yes b ihYes ih =>
    simp only [Block.code,cons_append,forall_mem_cons,forall_mem_append]
    exact ⟨rfl,ihYes proper.1,rfl,ih proper.2⟩
  | ifElse c yes no b ihYes ihNo ih =>
    simp only [Block.code,cons_append,List.append_assoc,forall_mem_cons,forall_mem_append]
    exact ⟨rfl,ihYes proper.1,rfl,ihNo proper.2.1,rfl,ih proper.2.2⟩
  | loop t body continuing b ihBody ihContinuing ih =>
    simp only [Block.code,cons_append,List.append_assoc,forall_mem_cons,forall_mem_append]
    exact ⟨rfl,ihBody proper.1,rfl,ihContinuing proper.2.1,rfl,ih proper.2.2⟩

theorem Opcode.isNote_of_isBody (body : op.isBody = true) : op.isNote = false := by
  cases op <;> revert body <;> decide

theorem Routine.Shaped.states (shaped : r.Shaped) : ∀ i ∈ r.code, i.op.isNote = false := by
  simp only [Routine.code,cons_append,List.append_assoc,forall_mem_cons,forall_mem_append]
  grind [isNote,Routine.Shaped.head,isNote_of_isBody,Routine.Shaped.body,
    Proper.isBody,Routine.Shaped.params]

/-- Each instruction by itself and its place are right, and ids are defined before their uses. -/
def Flawless (code : List Instruction) : Prop :=
  (∀ i ∈ code, if i.op.isNote then annotationFlaws code i = [] else typeFlaws code i = []) ∧
    Ordered [] code ∧ Placed code {} code

/-- Nothing is found wrong exactly if ids are defined once, below the bound and before their uses, and each
instruction by itself and its place are right. -/
theorem findings_eq_nil_iff {code : List Instruction} : findings bound code = [] ↔
    ((∀ id ∈ results code, id ≠ 0 ∧ id < bound) ∧ (results code).Nodup) ∧
      Flawless code ∧ code.countP (fun i => i.op == .entryPoint) = 1 := by
  rw [findings,append_eq_nil_iff,append_eq_nil_iff,definitionFindings_eq_nil_iff,orderFindings_eq_nil_iff]
  simp [entryFindings,Flawless,and_assoc]

namespace Outline

variable {t : Outline}

variable {i : Instruction}

theorem mem_code : i ∈ t.code ↔ i ∈ t.outside ∨ ∃ r ∈ t.routines, i ∈ r.code := by
  simp [code]

theorem typeFlaws_of_isNote {code : List Instruction} (annotates : i.op.isNote = true) :
    typeFlaws code i = [] := by
  obtain ⟨op,operands⟩ := i
  cases op <;> first | rfl | cases annotates

theorem annotates_of_isNote_false {kind : Id → Option Opcode}
    (states : i.op.isNote = false) : i.Annotates kind := by
  unfold Instruction.Annotates
  split <;> first | trivial | simp_all [isNote]

section

variable (shaped : t.Shaped)
include shaped

/-- What is wanted of each instruction by itself. -/
theorem forall_flaws_eq_nil_iff {code : List Instruction} :
    ((∀ i ∈ t.code, if i.op.isNote then annotationFlaws code i = []
        else typeFlaws code i = []) ∧
      (∀ i ∈ t.outside, operandFlaws code false i = []) ∧
        ∀ r ∈ t.routines, ∀ i ∈ r.code, operandFlaws code true i = []) ↔
    (∀ i ∈ t.outside, i.Annotates (kindOf code)) ∧ (∀ i ∈ t.outside, i.Fits (kindOf code) false) ∧
        ∀ r ∈ t.routines, ∀ i ∈ r.code, i.Fits (kindOf code) true := by
  have inside : ∀ r ∈ t.routines, ∀ i ∈ r.code, i.op.isNote = false :=
    fun r mem => (shaped.routines r mem).states
  constructor
  · rintro ⟨flawless,outside,routines⟩
    refine ⟨fun i mem => ?_,fun i mem => flaws_eq_nil_iff.mp ⟨?_,outside i mem⟩,
      fun r mem i here => flaws_eq_nil_iff.mp ⟨?_,routines r mem i here⟩⟩
    · grind [mem_code,annotationFlaws_eq_nil_iff,annotates_of_isNote_false]
    · grind [mem_code,typeFlaws_of_isNote]
    · simpa [inside r mem i here] using flawless i (mem_code.mpr (.inr ⟨r,mem,here⟩))
  · rintro ⟨annotations,outside,routines⟩
    refine ⟨fun i mem => ?_,fun i mem => (flaws_eq_nil_iff.mpr (outside i mem)).2,
      fun r mem i here => (flaws_eq_nil_iff.mpr (routines r mem i here)).2⟩
    split
    · grind [annotationFlaws_eq_nil_iff,mem_code]
    · rcases mem_code.mp mem with here | ⟨r,mem,here⟩
      · exact (flaws_eq_nil_iff.mpr (outside i here)).1
      · exact (flaws_eq_nil_iff.mpr (routines r mem i here)).1

theorem Shaped.countP_entryPoint :
    t.code.countP (fun i => i.op == .entryPoint) =
      (t.outside.filter fun i => i.op == .entryPoint).length := by
  have none : (t.routines.flatMap Routine.code).countP (fun i => i.op == .entryPoint) = 0 := by
    refine countP_eq_zero.mpr fun i mem entry => ?_
    obtain ⟨r,mem,here⟩ := mem_flatMap.mp mem
    have := (shaped.routines r mem).states i here
    simp only [beq_iff_eq] at entry
    simp [entry,isNote] at this
  rw [code,countP_append,none,countP_eq_length_filter,Nat.add_zero]

theorem Shaped.valid_iff : t.Valid ↔ ((results t.code).Nodup ∧ 0 ∉ results t.code) ∧
    Flawless t.code ∧ t.code.countP (fun i => i.op == .entryPoint) = 1 := by
  have placed : Placed t.code {} t.code ↔ _ := placed_outside shaped.outside
  rw [Flawless,placed,placed_routines shaped.routines,shaped.countP_entryPoint]
  constructor
  · intro valid
    obtain ⟨flawless,outside,routines⟩ :=
      (forall_flaws_eq_nil_iff shaped).mpr ⟨valid.annotations,valid.outside,valid.routines⟩
    exact ⟨⟨valid.unique,valid.nonzero⟩,⟨flawless,valid.ordered,outside,routines,valid.jumps⟩,valid.entry⟩
  · rintro ⟨⟨unique,nonzero⟩,⟨flawless,ordered,outside,routines,jumps⟩,entry⟩
    obtain ⟨annotations,outside,routines⟩ :=
      (forall_flaws_eq_nil_iff shaped).mp ⟨flawless,outside,routines⟩
    exact ⟨unique,nonzero,ordered,annotations,outside,routines,jumps,entry⟩

/-- Nothing is found wrong with the code of a module exactly if it is valid and its ids are below the
bound. -/
theorem findings_eq_nil_iff (bound : Id) :
    findings bound t.code = [] ↔ t.Valid ∧ ∀ id ∈ results t.code, id < bound := by
  rw [Bytecode.findings_eq_nil_iff,shaped.valid_iff]
  constructor
  · rintro ⟨⟨ids,unique⟩,right⟩
    exact ⟨⟨⟨unique,fun zero => (ids 0 zero).1 rfl⟩,right⟩,fun id mem => (ids id mem).2⟩
  · rintro ⟨⟨⟨unique,nonzero⟩,right⟩,below⟩
    exact ⟨⟨fun id mem => ⟨ne_of_mem_of_not_mem mem nonzero,below id mem⟩,unique⟩,right⟩

end

end Outline

theorem Outline.Shaped.mem_body {t : Outline} (shaped : t.Shaped) (mem : i ∈ t.code)
    (outside : i.op.isOutside = false) (head : i.op ≠ .function) (param : i.op ≠ .functionParameter)
    (last : i.op ≠ .functionEnd) : ∃ r ∈ t.routines, i ∈ r.body.code := by
  rcases Outline.mem_code.mp mem with here | ⟨r,routine,here⟩
  · rw [shaped.outside i here] at outside
    cases outside
  grind [Routine.code,Outline.Shaped.routines,Routine.Shaped.head,Routine.Shaped.params]

end Shading.Bytecode
