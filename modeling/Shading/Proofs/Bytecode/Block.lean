import Shading.Bytecode.Pass.Basic

/-! Structured code as a tree. `Block.code` writes a tree down as instructions and `Block.ofCode?` reads
it back, from the last instruction to the first. An id is visible from its definition to the end of the
block that defines it. -/
namespace Shading.Bytecode
open List

variable {i : Instruction} {id : Id} {tests : Bool}

/-- What runs one after the other, with the constructs that are closed in it. -/
inductive Block where
  | done
  | plain (i : Instruction) (rest : Block)
  | ifThen (cond : Id) (yes rest : Block)
  | ifElse (cond : Id) (yes no rest : Block)
  /-- A loop, its body and what runs before the next turn. Conditions of going on are plain. -/
  | loop (tail : Bool) (body continuing rest : Block)
  deriving DecidableEq, Repr

namespace Instruction

/-- The ids that are mentioned, but for the function that is called. -/
def mentions (i : Instruction) : List Id :=
  (i.operands.zipIdx.filter fun (_, p) => i.refersAt p && !(i.op == .call && p == 2)).map Prod.fst

theorem mem_references :
    id ∈ i.references ↔ ∃ p, i.operands[p]? = some id ∧ i.refersAt p = true := by
  simp [references,mem_zipIdx_iff_getElem?]

theorem mem_mentions : id ∈ i.mentions ↔
      ∃ p, i.operands[p]? = some id ∧ i.refersAt p = true ∧ (i.op = .call → p ≠ 2) := by
  simp [mentions,mem_zipIdx_iff_getElem?,Decidable.imp_iff_not_or]

theorem mem_references_iff : id ∈ i.references ↔ id ∈ i.mentions ∨ i.callee? = some id := by
  rw [mem_references,mem_mentions]
  constructor
  · grind [callee?]
  · grind [callee?,refersAt]

end Instruction

namespace Block

def one (i : Instruction) : Block := .plain i .done

def append : Block → Block → Block
  | .done, b => b
  | .plain i rest, b => .plain i (rest.append b)
  | .ifThen c yes rest, b => .ifThen c yes (rest.append b)
  | .ifElse c yes no rest, b => .ifElse c yes no (rest.append b)
  | .loop t body continuing rest, b => .loop t body continuing (rest.append b)

instance : Append Block := ⟨append⟩

def code : Block → List Instruction
  | .done => []
  | .plain i rest => i :: rest.code
  | .ifThen c yes rest => ⟨.ifThen, [c]⟩ :: yes.code ++ ⟨.endIf, []⟩ :: rest.code
  | .ifElse c yes no rest =>
    ⟨.ifThen, [c]⟩ :: yes.code ++ ⟨.orElse, []⟩ :: no.code ++ ⟨.endIf, []⟩ :: rest.code
  | .loop t body continuing rest =>
    ⟨.loop, [if t then 1 else 0]⟩ :: body.code ++ ⟨.loopContinue, []⟩ :: continuing.code ++
      ⟨.endLoop, []⟩ :: rest.code

@[simp] theorem done_append (b : Block) : .done ++ b = b := rfl

@[simp] theorem plain_append (i : Instruction) (a b : Block) :
    .plain i a ++ b = .plain i (a ++ b) := rfl

@[simp] theorem ifThen_append (c : Id) (yes a b : Block) :
    .ifThen c yes a ++ b = .ifThen c yes (a ++ b) := rfl

@[simp] theorem ifElse_append (c : Id) (yes no a b : Block) :
    .ifElse c yes no a ++ b = .ifElse c yes no (a ++ b) := rfl

@[simp] theorem loop_append (t : Bool) (body continuing a b : Block) :
    .loop t body continuing a ++ b = .loop t body continuing (a ++ b) := rfl

@[simp] theorem append_done (b : Block) : b ++ .done = b := by
  induction b with
  | done => rfl
  | plain i rest ih => simp [ih]
  | ifThen c yes rest _ ih => simp [ih]
  | ifElse c yes no rest _ _ ih => simp [ih]
  | loop t body continuing rest _ _ ih => simp [ih]

theorem append_assoc (a b c : Block) : a ++ b ++ c = a ++ (b ++ c) := by
  induction a with
  | done => rfl
  | plain i rest ih => simp [ih]
  | ifThen d yes rest _ ih => simp [ih]
  | ifElse d yes no rest _ _ ih => simp [ih]
  | loop t body continuing rest _ _ ih => simp [ih]

@[simp] theorem code_append (a b : Block) : (a ++ b).code = a.code ++ b.code := by
  induction a with
  | done => rfl
  | plain i rest ih => simp [code,ih]
  | ifThen c yes rest _ ih => simp [code,ih]
  | ifElse c yes no rest _ _ ih => simp [code,ih]
  | loop t body continuing rest _ _ ih => simp [code,ih]

/-- The ids that are defined in the block itself, the latest one first. -/
def top : Block → List Id
  | .done => []
  | .plain i rest => rest.top ++ i.result?.toList
  | .ifThen _ _ rest | .ifElse _ _ _ rest | .loop _ _ _ rest => rest.top

@[simp] theorem top_append (a b : Block) : (a ++ b).top = b.top ++ a.top := by
  induction a with
  | done => simp [top]
  | plain i rest ih => simp [top,ih]
  | ifThen c yes rest _ ih => simp [top,ih]
  | ifElse c yes no rest _ _ ih => simp [top,ih]
  | loop t body continuing rest _ _ ih => simp [top,ih]

/-- Only visible ids are mentioned. -/
def Scoped : Block → List Id → Prop
  | .done, _ => True
  | .plain i rest, visible => i.mentions ⊆ visible ∧ rest.Scoped (i.result?.toList ++ visible)
  | .ifThen c yes rest, visible => c ∈ visible ∧ yes.Scoped visible ∧ rest.Scoped visible
  | .ifElse c yes no rest, visible =>
    c ∈ visible ∧ yes.Scoped visible ∧ no.Scoped visible ∧ rest.Scoped visible
  | .loop _ body continuing rest, visible =>
    body.Scoped visible ∧ continuing.Scoped visible ∧ rest.Scoped visible

theorem Scoped.mono {b : Block} : ∀ {visible wider : List Id}, b.Scoped visible →
    visible ⊆ wider → b.Scoped wider := by
  induction b with
  | done => exact fun _ _ => trivial
  | plain i rest ih =>
    exact fun inside le => ⟨Subset.trans inside.1 le,ih inside.2 (append_subset.mpr
      ⟨subset_append_left _ _,Subset.trans le (subset_append_right _ _)⟩)⟩
  | ifThen c yes rest ihYes ih =>
    exact fun inside le => ⟨le inside.1,ihYes inside.2.1 le,ih inside.2.2 le⟩
  | ifElse c yes no rest ihYes ihNo ih =>
    exact fun inside le => ⟨le inside.1,ihYes inside.2.1 le,ihNo inside.2.2.1 le,ih inside.2.2.2 le⟩
  | loop t body continuing rest ihBody ihContinuing ih =>
    exact fun inside le => ⟨ihBody inside.1 le,ihContinuing inside.2.1 le,ih inside.2.2 le⟩

theorem scoped_append {a b : Block} {visible : List Id} :
    (a ++ b).Scoped visible ↔ a.Scoped visible ∧ b.Scoped (a.top ++ visible) := by
  induction a generalizing visible with
  | done => simp [Scoped,top]
  | plain i rest ih => simp [Scoped,top,ih,and_assoc]
  | ifThen c yes rest _ ih => simp [Scoped,top,ih,and_assoc]
  | ifElse c yes no rest _ _ ih => simp [Scoped,top,ih,and_assoc]
  | loop t body continuing rest _ _ ih => simp [Scoped,top,ih,and_assoc]

def All (p : Instruction → Prop) : Block → Prop
  | .done => True
  | .plain i rest => p i ∧ rest.All p
  | .ifThen _ yes rest => yes.All p ∧ rest.All p
  | .ifElse _ yes no rest => yes.All p ∧ no.All p ∧ rest.All p
  | .loop _ body continuing rest => body.All p ∧ continuing.All p ∧ rest.All p

theorem all_append {p : Instruction → Prop} {a b : Block} : (a ++ b).All p ↔ a.All p ∧ b.All p := by
  induction a with
  | done => simp [All]
  | plain i rest ih => simp [All,ih,and_assoc]
  | ifThen c yes rest _ ih => simp [All,ih,and_assoc]
  | ifElse c yes no rest _ _ ih => simp [All,ih,and_assoc]
  | loop t body continuing rest _ _ ih => simp [All,ih,and_assoc]

end Block

/-- Stands in a body without opening or closing anything. -/
def Opcode.isPlain : Opcode → Bool
  | .var | .load | .store | .accessChain | .binary | .unary | .construct | .swizzle | .extract
  | .select | .builtin | .call | .loopCondition | .breakLoop | .continueLoop | .ret | .retValue
  | .kill => true
  | _ => false

def Opcode.isCalm (op : Opcode) : Bool := op.isPlain && !op.isTerminator && op != .loopCondition

namespace Block

/-- Constructs are written as constructs, and conditions of going on (where there may be any) stand in
the parts of a loop, before all that ends them. -/
def Proper : Bool → Block → Prop
  | _, .done => True
  | tests, .plain i rest =>
    i.op.isPlain = true ∧ (i.op = .loopCondition → tests = true) ∧
      rest.Proper (tests && !i.op.isTerminator)
  | tests, .ifThen _ yes rest => yes.Proper false ∧ rest.Proper tests
  | tests, .ifElse _ yes no rest => yes.Proper false ∧ no.Proper false ∧ rest.Proper tests
  | tests, .loop _ body continuing rest =>
    body.Proper true ∧ continuing.Proper true ∧ rest.Proper tests

def Calm (b : Block) : Prop := b.All fun i => i.op.isCalm = true

variable {a b : Block}

theorem Calm.proper_append (calm : a.Calm) (rest : b.Proper tests) : (a ++ b).Proper tests := by
  induction a generalizing tests b with
  | done => exact rest
  | plain i a ih =>
    obtain ⟨here,calm⟩ := calm
    simp only [Opcode.isCalm,Bool.and_eq_true,Bool.not_eq_true',bne_iff_ne,ne_eq] at here
    obtain ⟨⟨plain,going⟩,noTest⟩ := here
    refine ⟨plain,fun test => absurd test noTest,?_⟩
    rw [going,Bool.not_false,Bool.and_true]
    exact ih calm rest
  | ifThen c yes a ihYes ih =>
    exact ⟨by simpa using ihYes (b := .done) calm.1 trivial,ih calm.2 rest⟩
  | ifElse c yes no a ihYes ihNo ih =>
    exact ⟨by simpa using ihYes (b := .done) calm.1 trivial,
      by simpa using ihNo (b := .done) calm.2.1 trivial,ih calm.2.2 rest⟩
  | loop t body continuing a ihBody ihContinuing ih =>
    exact ⟨by simpa using ihBody (b := .done) calm.1 trivial,
      by simpa using ihContinuing (b := .done) calm.2.1 trivial,ih calm.2.2 rest⟩

theorem Calm.proper (calm : b.Calm) : b.Proper tests := by
  simpa using calm.proper_append (b := .done) trivial

theorem Proper.append (first : a.Proper false) (second : b.Proper false) :
    (a ++ b).Proper false := by
  induction a with
  | done => exact second
  | plain i a ih => exact ⟨first.1,first.2.1,ih first.2.2⟩
  | ifThen c yes a _ ih => exact ⟨first.1,ih first.2⟩
  | ifElse c yes no a _ _ ih => exact ⟨first.1,first.2.1,ih first.2.2⟩
  | loop t body continuing a _ _ ih => exact ⟨first.1,first.2.1,ih first.2.2⟩

theorem Proper.weaken (proper : b.Proper false) (tests : Bool) : b.Proper tests := by
  induction b generalizing tests with
  | done => trivial
  | plain i rest ih =>
    exact ⟨proper.1,fun test => absurd (proper.2.1 test) (by simp),ih proper.2.2 _⟩
  | ifThen c yes rest _ ih => exact ⟨proper.1,ih proper.2 _⟩
  | ifElse c yes no rest _ _ ih => exact ⟨proper.1,proper.2.1,ih proper.2.2 _⟩
  | loop t body continuing rest _ _ ih => exact ⟨proper.1,proper.2.1,ih proper.2.2 _⟩

/-- Code from the end on: the block that is open, and after it those that closed others. -/
def read : List Instruction → Option (Block × List (Opcode × Block))
  | [] => some (.done, [])
  | i :: rest =>
    match read rest with
    | none => none
    | some (open_, closed) =>
      match i.op, closed with
      | .endIf, _ | .orElse, _ | .loopContinue, _ | .endLoop, _ =>
        some (.done, (i.op, open_) :: closed)
      | .ifThen, (.endIf, after) :: closed => some (.ifThen (i.operand 0) open_ after, closed)
      | .ifThen, (.orElse, no) :: (.endIf, after) :: closed =>
        some (.ifElse (i.operand 0) open_ no after, closed)
      | .ifThen, _ => none
      | .loop, (.loopContinue, continuing) :: (.endLoop, after) :: closed =>
        some (.loop (i.operand 0 != 0) open_ continuing after, closed)
      | .loop, _ => none
      | _, _ => some (.plain i open_, closed)

def ofCode? (code : List Instruction) : Option Block :=
  match read code with
  | some (b, []) => some b
  | _ => none

theorem read_plain {rest : List Instruction} (plain : i.op.isPlain = true) :
    read (i :: rest) = (read rest).map fun (b, closed) => (.plain i b, closed) := by
  rw [read]
  cases read rest with
  | none => rfl
  | some r =>
    obtain ⟨b,closed⟩ := r
    obtain ⟨op,operands⟩ := i
    cases op <;> first | rfl | cases plain

theorem read_code_append (proper : b.Proper tests) : ∀ rest : List Instruction,
      read (b.code ++ rest) = (read rest).map fun (a, closed) => (b ++ a, closed) := by
  induction b generalizing tests with
  | done => exact fun rest => by simp [code]
  | plain i b ih =>
    intro rest
    rw [code,cons_append,read_plain proper.1,ih proper.2.2,Option.map_map]
    rfl
  | ifThen c yes b ihYes ih =>
    intro rest
    simp only [code,cons_append,List.append_assoc]
    rw [read,ihYes proper.1,read,ih proper.2]
    cases read rest <;> simp [Instruction.operand_eq]
  | ifElse c yes no b ihYes ihNo ih =>
    intro rest
    simp only [code,cons_append,List.append_assoc]
    rw [read,ihYes proper.1,read,ihNo proper.2.1,read,ih proper.2.2]
    cases read rest <;> simp [Instruction.operand_eq]
  | loop t body continuing b ihBody ihContinuing ih =>
    intro rest
    simp only [code,cons_append,List.append_assoc]
    rw [read,ihBody proper.1,read,ihContinuing proper.2.1,read,ih proper.2.2]
    cases read rest <;> cases t <;> simp [Instruction.operand_eq]

theorem ofCode?_code (proper : b.Proper tests) : ofCode? b.code = some b := by
  have read := read_code_append proper []
  rw [append_nil] at read
  simp [ofCode?,read,Block.read]

end Block

end Shading.Bytecode
