import Shading.Proofs.Bytecode.Definitions
import Shading.Proofs.Typed.Types

/-! What code says of an id from outside: the type that it stands for, its name and its decorations. All
of it survives a renaming of ids. -/
namespace Shading.Bytecode
open List Pass Instruction

variable {f : Id → Id}

/-- The id is that of the type, by the declarations in the code. -/
inductive Denotes (code : List Instruction) : Id → Ty → Prop where
  | void {id : Id} : ⟨.typeVoid, [id]⟩ ∈ code → Denotes code id .void
  | bool {id : Id} : ⟨.typeBool, [id]⟩ ∈ code → Denotes code id .bool
  | int {id : Id} : ⟨.typeInt, [id, 1]⟩ ∈ code → Denotes code id .int
  | uint {id : Id} : ⟨.typeInt, [id, 0]⟩ ∈ code → Denotes code id .uint
  | float {id : Id} : ⟨.typeFloat, [id]⟩ ∈ code → Denotes code id .float
  | vector {id e : Id} {k : Scalar} {n : Nat} : ⟨.typeVector, [id, e, .ofNat n]⟩ ∈ code →
      Denotes code e (.scalar k) → Denotes code id (.vector k n)
  | matrix {id e : Id} {c r : Nat} : ⟨.typeMatrix, [id, e, .ofNat c]⟩ ∈ code →
      Denotes code e (.vector .float r) → Denotes code id (.matrix c r)
  | sampler {id : Id} {s : Sampler} :
      ⟨.typeSampler, [id, .ofNat s.dim.code, if s.shadow then 1 else 0, .ofNat s.kind.code]⟩ ∈ code →
      Denotes code id (.sampler s)
  | array {id e : Id} {t : Ty} {n : Nat} : ⟨.typeArray, [id, e, .ofNat n]⟩ ∈ code → Denotes code e t →
      Denotes code id (.array t n)

section Types

variable {code code' : List Instruction} {id ptr : Id} {t : Ty} {storage : StorageClass}

theorem Denotes.rename (denotes : Denotes code id t)
    (kept : ∀ i ∈ code, i.op.isType = true → renameIds f i ∈ code') : Denotes code' (f id) t := by
  induction denotes with
  | void here => exact .void (kept _ here rfl)
  | bool here => exact .bool (kept _ here rfl)
  | int here => exact .int (kept _ here rfl)
  | uint here => exact .uint (kept _ here rfl)
  | float here => exact .float (kept _ here rfl)
  | vector here _ ih => exact .vector (kept _ here rfl) ih
  | matrix here _ ih => exact .matrix (kept _ here rfl) ih
  | sampler here => exact .sampler (kept _ here rfl)
  | array here _ ih => exact .array (kept _ here rfl) ih

theorem Denotes.mono (denotes : Denotes code id t) (more : code ⊆ code') : Denotes code' id t :=
  denotes.rename (f := fun x => x) fun i mem _ => by
    have same : renameIds (fun x => x) i = i := renameIds_id
    rw [same]
    exact more mem

def Points (code : List Instruction) (ptr : Id) (storage : StorageClass) (t : Ty) : Prop :=
  ∃ e, ⟨.typePointer, [ptr, .ofNat storage.code, e]⟩ ∈ code ∧ Denotes code e t

theorem Points.rename (points : Points code ptr storage t)
    (kept : ∀ i ∈ code, i.op.isType = true → renameIds f i ∈ code') :
    Points code' (f ptr) storage t := by
  obtain ⟨e,here,denotes⟩ := points
  exact ⟨f e,kept _ here rfl,denotes.rename kept⟩

theorem Points.mono (points : Points code ptr storage t) (more : code ⊆ code') :
    Points code' ptr storage t := by
  obtain ⟨e,here,denotes⟩ := points
  exact ⟨e,more here,denotes.mono more⟩

end Types

/-- What an annotation says of its target. -/
structure Note where
  op : Opcode
  words : List UInt32
  deriving DecidableEq, Repr

namespace Note

def name? (n : Note) : Option String := if n.op = .debugName then (decodeText n.words).toOption else none

/-- The value of a decoration of the kind. -/
def decoration? (d : Decoration) (n : Note) : Option UInt32 :=
  if n.op = .decorate ∧ Decoration.ofCode? (n.words.getD 0 0).toNat = some d then some (n.words.getD 1 0)
  else none

end Note

def Instruction.isNoteOn (x : Id) (i : Instruction) : Bool :=
  (i.op == .debugName || i.op == .decorate) && i.operands.head? == some x

/-- The names and decorations of an id, in order. -/
def notesOn (code : List Instruction) (x : Id) : List Note :=
  (code.filter (isNoteOn x)).map fun i => ⟨i.op, i.operands.tail⟩

section Notes

variable {code a b : List Instruction} {x : Id}

theorem notesOn_append : notesOn (a ++ b) x = notesOn a x ++ notesOn b x := by
  simp [notesOn]

theorem notesOn_eq_nil (none : ∀ i ∈ code, i.op ≠ .debugName ∧ i.op ≠ .decorate) : notesOn code x = [] := by
  rw [notesOn,map_eq_nil_iff,filter_eq_nil_iff]
  intro i mem
  simp [isNoteOn,none i mem]

theorem notesOn_filter {p : Instruction → Bool} (kept : ∀ i ∈ code, i.isNoteOn x = true → p i = true) :
    notesOn (code.filter p) x = notesOn code x := by
  rw [notesOn,notesOn,filter_filter]
  refine congrArg _ (filter_congr fun i mem => ?_)
  cases note : i.isNoteOn x with
  | true => simp [kept i mem note]
  | false => simp

theorem renameIds_note {op : Opcode} (isNote : op = .debugName ∨ op = .decorate) (y : Id)
    (ws : List UInt32) : renameIds f ⟨op, y :: ws⟩ = ⟨op, f y :: ws⟩ := by
  have literal : ws.mapIdx (fun _ w => w) = ws := by
    apply ext_getElem?
    intro n
    rw [getElem?_mapIdx,Option.map_id_fun',id]
  rcases isNote with rfl | rfl <;>
    simp [renameIds,refersAt,resultPosition?,Opcode.hasResultType,Opcode.isType,literal]

theorem isNote_of_isNoteOn {i : Instruction} (note : i.isNoteOn x = true) :
    (i.op = .debugName ∨ i.op = .decorate) ∧ i.operands.head? = some x := by
  simpa only [isNoteOn,Bool.and_eq_true,Bool.or_eq_true,beq_iff_eq] using note

theorem notesOn_rename
    (apart : ∀ i ∈ code, ∀ y, (i.op = .debugName ∨ i.op = .decorate) → i.operands.head? = some y → f y = f x → y = x) :
    notesOn (code.map (renameIds f)) (f x) = notesOn code x := by
  have same : ∀ i ∈ code, (renameIds f i).isNoteOn (f x) = i.isNoteOn x := by
    intro i mem
    by_cases op : i.op = .debugName ∨ i.op = .decorate
    · have first := apart i mem
      obtain ⟨_,operands⟩ := i
      cases operands with
      | nil => rfl
      | cons y ws =>
        grind [isNoteOn,renameIds_note]
    grind [isNoteOn,renameIds_op]
  have tails : ∀ i ∈ code.filter (isNoteOn x),
      (⟨(renameIds f i).op,(renameIds f i).operands.tail⟩ : Note) = ⟨i.op,i.operands.tail⟩ := by
    intro i mem
    obtain ⟨op,head⟩ := isNote_of_isNoteOn (mem_filter.mp mem).2
    obtain ⟨ws,operands⟩ := head?_eq_some_iff.mp head
    obtain ⟨_,_⟩ := i
    subst operands
    rw [renameIds_note op]
    rfl
  have filtered : code.filter (isNoteOn (f x) ∘ renameIds f) =
      code.filter (isNoteOn x) := filter_congr same
  rw [notesOn,filter_map,map_map,filtered]
  exact map_congr_left tails

end Notes

end Shading.Bytecode
