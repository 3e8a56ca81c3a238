import Shading.Proofs.Bytecode.Presentation
import Shading.Proofs.Lowering.Declarations

/-! Work on expressions, statements and functions only adds to what was written, declares no globals, and
leaves the tables of globals and functions alone. Ids of types are declared as what they stand for. -/
namespace Shading.Lowering
open List Bytecode

/-- The ids in the tables are declared as the types and pointer types that they are kept for. -/
structure State.Described (s : State) : Prop where
  types : ∀ e ∈ s.types, Denotes s.decls.toList e.2 e.1
  pointers : ∀ e ∈ s.pointers, ⟨.typePointer, [e.2, .ofNat e.1.1.code, e.1.2]⟩ ∈ s.decls.toList

/-- More is written after what was written; globals and functions keep their ids, and no global is
added. -/
structure State.Continues (s s' : State) : Prop where
  code : s.code.toList <+: s'.code.toList
  globals : s'.globals = s.globals
  functions : s'.functions = s.functions
  names : s.names.toList <+: s'.names.toList
  decorations : s'.decorations = s.decorations
  decls : ∃ new, s'.decls.toList = s.decls.toList ++ new ∧ ∀ i ∈ new, i.op ≠ .var
  described : s.Described → s'.Described

namespace State.Continues

variable {s t u : State}

theorem trans (first : s.Continues t) (second : t.Continues u) : s.Continues u where
  code := first.code.trans second.code
  globals := second.globals.trans first.globals
  functions := second.functions.trans first.functions
  names := first.names.trans second.names
  decorations := second.decorations.trans first.decorations
  decls := by
    grind [decls]
  described start := second.described (first.described start)

theorem declared (more : s.Continues t) : s.decls.toList ⊆ t.decls.toList := by
  obtain ⟨new,declared,-⟩ := more.decls
  rw [declared]
  exact subset_append_left _ _

theorem of_same (code : s.code.toList <+: t.code.toList) (names : s.names.toList <+: t.names.toList)
    (same : t.decls = s.decls ∧ t.decorations = s.decorations ∧ t.types = s.types ∧
      t.pointers = s.pointers ∧ t.globals = s.globals ∧ t.functions = s.functions) :
    s.Continues t := by
  obtain ⟨decls,decorations,types,pointers,globals,functions⟩ := same
  refine ⟨code,globals,functions,names,decorations,⟨[],by simp [decls],by simp⟩,
    fun described => ⟨?_,?_⟩⟩
  · rw [types,decls]
    exact described.types
  · rw [pointers,decls]
    exact described.pointers

theorem refl (s : State) : s.Continues s :=
  of_same prefix_rfl prefix_rfl ⟨rfl,rfl,rfl,rfl,rfl,rfl⟩

end State.Continues

def Adds {α : Type} (work : Lower α) : Prop :=
  ∀ s a s', work.run s = .ok (a, s') → s.Continues s'

namespace Adds

variable {α β : Type} {work : Lower α}

theorem of_pure {a : α} : Adds (pure a) := by
  intro s a s' ran
  cases ran
  exact .refl s

theorem of_throw {e : Fault} : Adds (throw e : Lower α) := by
  intro s a s' ran
  cases ran

theorem bind {next : α → Lower β} (first : Adds work) (second : ∀ a, Adds (next a)) :
    Adds (work >>= next) := by
  intro s b s' ran
  obtain ⟨a,t,ranFirst,ranSecond⟩ := Lower.run_bind_eq_ok.mp ran
  exact (first s a t ranFirst).trans (second a t b s' ranSecond)

theorem of_get : Adds (get : Lower State) := by
  intro s a s' ran
  cases ran
  exact .refl s

theorem of_modify {f : State → State} (adds : ∀ s : State, s.Continues (f s)) : Adds (modify f : Lower Unit) := by
  intro s a s' ran
  cases ran
  exact adds s

theorem of_forM {f : α → Lower Unit} (one : ∀ a, Adds (f a)) : ∀ l : List α, Adds (l.forM f)
  | [] => .of_pure
  | a :: l => .bind (one a) fun _ => of_forM one l

theorem of_table {f : State → State}
    (same : ∀ s : State, (f s).code = s.code ∧ (f s).names = s.names ∧
      (f s).decls = s.decls ∧ (f s).decorations = s.decorations ∧
      (f s).types = s.types ∧ (f s).pointers = s.pointers ∧ (f s).globals = s.globals ∧
      (f s).functions = s.functions) :
    Adds (modify f : Lower Unit) := by
  grind [of_modify,State.Continues.of_same]

theorem fresh : Adds fresh := by
  intro s a s' ran
  cases ran
  exact .of_same prefix_rfl prefix_rfl ⟨rfl,rfl,rfl,rfl,rfl,rfl⟩

theorem emit (op : Opcode) (operands : List UInt32) : Adds (emit op operands) :=
  .of_modify fun _ => .of_same (by simp) prefix_rfl ⟨rfl,rfl,rfl,rfl,rfl,rfl⟩

theorem addName (target : Id) (text : String) : Adds (addName target text) := by
  grind [addName,of_pure,of_modify,State.Continues.of_same]

end Adds

theorem State.Described.enters {s t : State} (entered : s.Enters t) (described : s.Described) : t.Described := by
  have more : s.decls.toList ⊆ t.decls.toList := by
    obtain ⟨i,-,-,declared⟩ := entered.line
    simp [declared]
  have types (e : Ty × Id) (mem : e ∈ s.types) : Denotes t.decls.toList e.2 e.1 :=
    (described.types e mem).mono more
  have pointers (e : (StorageClass × Id) × Id) (mem : e ∈ s.pointers) :
      ⟨.typePointer,[e.2,.ofNat e.1.1.code,e.1.2]⟩ ∈ t.decls.toList :=
    more (described.pointers e mem)
  cases entered with
  | @type _ op operands line =>
    have here : ⟨op,s.nextId :: operands⟩ ∈ (s.declared op (s.nextId :: operands)).decls.toList := by
      simp [State.declared]
    refine ⟨forall_mem_cons.mpr ⟨?_,types⟩,pointers⟩
    cases line with
    | void => exact .void here
    | bool => exact .bool here
    | int => exact .int here
    | uint => exact .uint here
    | float => exact .float here
    | vector known => exact .vector here (types _ known)
    | matrix known => exact .matrix here (types _ known)
    | sampler => exact .sampler here
    | array known => exact .array here (types _ known)
  | pointer => exact ⟨types,forall_mem_cons.mpr ⟨by simp [State.declared],pointers⟩⟩
  | signature | constant => exact ⟨types,pointers⟩

theorem State.Tabulates.continues {s t : State} (steps : s.Tabulates t) : s.Continues t := by
  have same := steps.tabulated
  obtain ⟨new,declared,declares⟩ := same.decls
  refine ⟨by rw [same.code],same.globals,same.functions,by rw [same.names],same.decorations,
    ⟨new,declared,fun i mem var => ?_⟩,steps.keeps State.Described.enters⟩
  have := declares i mem
  rw [var] at this
  cases this

namespace Adds

theorem of_finds {α : Type} {work : Lower α} {P : α → State → Prop} (finds : ∀ s, Finds s work P) : Adds work := by
  intro s a s' ran
  obtain ⟨b,t,ran',steps,-⟩ := finds s
  cases ran.symm.trans ran'
  exact steps.continues

theorem localVariable (ty : Ty) : Adds (localVariable ty) := by
  unfold Lowering.localVariable
  rw [← bind_assoc]
  exact .bind (.of_finds fun _ => pointerTo_finds _ ty) fun _ => .bind .fresh fun _ =>
    .bind (.emit _ _) fun _ => .of_pure

end Adds

end Shading.Lowering
