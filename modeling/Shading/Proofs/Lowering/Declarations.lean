import Shading.Proofs.Bytecode.Block
import Shading.Proofs.Lowering.Tables

/-! Ids of types, constants and globals are declared when they are handed out, and handing them out writes
no code. -/
namespace Shading.Lowering
open List Bytecode

variable {i : Instruction}

def State.known (s : State) : List Id := Pass.results s.decls.toList

/-- The ids that may have names: functions, variables and parameters. -/
def State.nameable (s : State) : List Id :=
  s.functions.map Prod.snd ++ Pass.results ((s.decls.toList ++ s.code.toList).filter fun i =>
    i.op == .var || i.op == .functionParameter)

/-- Every id that was handed out for a type, a constant or a global is declared, and each list of the
module holds instructions of its kind. -/
structure State.Tidy (s : State) : Prop where
  types : ∀ e ∈ s.types, e.2 ∈ s.known
  pointers : ∀ e ∈ s.pointers, e.2 ∈ s.known
  functionTypes : ∀ e ∈ s.functionTypes, e.2 ∈ s.known
  constants : ∀ e ∈ s.constants, e.2 ∈ s.known
  globals : ∀ e ∈ s.globals, e.2.1 ∈ s.known
  decls : ∀ i ∈ s.decls.toList, i.op.isDeclaration = true ∨ i.op = .var
  names : ∀ i ∈ s.names.toList, i.op = .debugName ∧ i.operand 0 ∈ s.nameable
  decorations : ∀ i ∈ s.decorations.toList, i.op = .decorate ∧ i.operand 0 ∈ s.known

/-- What work leaves alone that declares types and constants only, and that what it gives is declared. -/
structure Declared (s : State) (gives : List Id) (s' : State) : Prop where
  code : s'.code = s.code
  frame : s'.frame = s.frame
  functions : s'.functions = s.functions
  known : s.known ⊆ s'.known
  tidy : s'.Tidy
  gives : gives ⊆ s'.known

/-- Work that declares types, constants and globals. -/
def Declares {α : Type} (work : Lower α) (gives : α → List Id) : Prop :=
  ∀ s a s', s.Tidy → work.run s = .ok (a, s') → Declared s (gives a) s'

namespace Declares

variable {α β : Type} {work : Lower α} {f : α → List Id} {g : β → List Id}

theorem of_pure {a : α} (none : f a = []) : Declares (pure a) f := by
  intro s b s' tidy ran
  cases ran
  exact ⟨rfl,rfl,rfl,Subset.refl _,tidy,by simp [none]⟩

theorem bind {next : α → Lower β} (first : Declares work f) (second : ∀ a, Declares (next a) g) :
    Declares (work >>= next) g := by
  intro s b s' tidy ran
  obtain ⟨a,t,ranFirst,ranSecond⟩ := Lower.run_bind_eq_ok.mp ran
  have one := first s a t tidy ranFirst
  have two := second a t b s' one.tidy ranSecond
  exact ⟨two.code.trans one.code,two.frame.trans one.frame,two.functions.trans one.functions,
    Subset.trans one.known two.known,two.tidy,two.gives⟩

theorem fresh : Declares fresh fun _ => [] := by
  intro s a s' tidy ran
  cases ran
  exact ⟨rfl,rfl,rfl,Subset.refl _,{ tidy with },by simp⟩

end Declares

variable {s : State}

theorem State.known_push : ({ s with decls := s.decls.push i } : State).known =
      s.known ++ i.result?.toList := by
  cases h : i.result? <;> simp [State.known,Pass.results,h]

theorem State.nameable_subset {t : State} (functions : s.functions ⊆ t.functions)
    (decls : s.decls.toList ⊆ t.decls.toList)
    (code : s.code.toList ⊆ t.code.toList) : s.nameable ⊆ t.nameable := by
  refine append_subset.mpr ⟨?_,?_⟩
  · exact Subset.trans (map_subset _ functions) (subset_append_left _ _)
  · refine Subset.trans ?_ (subset_append_right _ _)
    refine filterMap_subset _ (filter_subset _ (append_subset.mpr ⟨?_,?_⟩))
    · exact Subset.trans decls (subset_append_left _ _)
    · exact Subset.trans code (subset_append_right _ _)

theorem State.Tidy.push (tidy : s.Tidy) (declares : i.op.isDeclaration = true ∨ i.op = .var) :
    ({ s with decls := s.decls.push i } : State).Tidy := by
  have grows : s.known ⊆ ({ s with decls := s.decls.push i } : State).known := by
    rw [State.known_push]
    exact subset_append_left _ _
  have named : s.nameable ⊆ ({ s with decls := s.decls.push i } : State).nameable :=
    State.nameable_subset (Subset.refl _) (by simp) (Subset.refl _)
  refine ⟨fun e m => grows (tidy.types e m),fun e m => grows (tidy.pointers e m),
    fun e m => grows (tidy.functionTypes e m),fun e m => grows (tidy.constants e m),
    fun e m => grows (tidy.globals e m),?_,fun e m => ⟨(tidy.names e m).1,named (tidy.names e m).2⟩,
    fun e m => ⟨(tidy.decorations e m).1,grows (tidy.decorations e m).2⟩⟩
  grind [State.Tidy.decls]

def State.wrote (s : State) (i : Instruction) : State := { s with code := s.code.push i }

theorem State.Tidy.wrote (tidy : s.Tidy) (i : Instruction) : (s.wrote i).Tidy := by
  have named : s.nameable ⊆ (s.wrote i).nameable :=
    State.nameable_subset (Subset.refl _) (Subset.refl _) (by simp [State.wrote])
  exact { tidy with names := fun e m => ⟨(tidy.names e m).1,named (tidy.names e m).2⟩ }

theorem emit_eq_ok {op : Opcode} {operands : List UInt32} {s' : State} {a : Unit}
    (ran : (emit op operands).run s = .ok (a, s')) : s' = s.wrote ⟨op, operands⟩ := by
  cases ran
  rfl

@[simp] theorem State.wrote_code (s : State) (i : Instruction) :
    (s.wrote i).code.toList = s.code.toList ++ [i] := by simp [wrote]

@[simp] theorem State.wrote_frame (s : State) (i : Instruction) : (s.wrote i).frame = s.frame := rfl

theorem State.Tidy.enters {t : State} (entered : s.Enters t) (tidy : s.Tidy) : t.Tidy := by
  obtain ⟨i,declares,result,declared⟩ := entered.line
  have tidy' : State.Tidy { s with decls := t.decls } := by
    rw [declared]
    exact tidy.push (.inl declares)
  have defined : s.nextId ∈ t.known := by simp [State.known,declared,Pass.results,result]
  cases entered with
  | type => exact { tidy' with types := forall_mem_cons.mpr ⟨defined,tidy'.types⟩ }
  | pointer => exact { tidy' with pointers := forall_mem_cons.mpr ⟨defined,tidy'.pointers⟩ }
  | signature => exact { tidy' with functionTypes := forall_mem_cons.mpr ⟨defined,tidy'.functionTypes⟩ }
  | constant => exact { tidy' with constants := forall_mem_cons.mpr ⟨defined,tidy'.constants⟩ }

theorem Declares.of_finds {α : Type} {work : Lower α} {P : α → State → Prop} {f : α → List Id}
    (finds : ∀ s, Finds s work P) (given : ∀ {a s}, s.Tidy → P a s → f a ⊆ s.known) : Declares work f := by
  intro s a s' tidy ran
  obtain ⟨b,t,ran',steps,found⟩ := finds s
  cases ran.symm.trans ran'
  have tidy' := steps.keeps State.Tidy.enters tidy
  have same := steps.tabulated
  obtain ⟨new,declared,-⟩ := same.decls
  refine ⟨same.code,same.frame,same.functions,?_,tidy',given tidy' found⟩
  simp [State.known,Pass.results,declared]

theorem tyId_declares (t : Ty) : Declares (tyId t) fun id => [id] :=
  .of_finds (fun _ => tyId_finds t) fun tidy found => by simpa using tidy.types _ found

theorem pointerTo_declares (storage : StorageClass) (t : Ty) : Declares (pointerTo storage t) fun id => [id] :=
  .of_finds (fun _ => pointerTo_finds storage t) fun tidy found => by
    obtain ⟨pointee,-,pointed⟩ := found
    simpa using tidy.pointers _ pointed

theorem constantId_declares (c : Const) : Declares (constantId c) fun id => [id] :=
  .of_finds (fun _ => constantId_finds c) fun tidy found => by simpa using tidy.constants _ (mem_of_lookup found)

theorem headTys_declares (f : Typed.Function) : Declares (headTys f) fun r => r.1 :: r.2.2 :: r.2.1 :=
  .of_finds (fun _ => headTys_finds f) fun tidy found => by
    have typed := tidy.functionTypes _ found.type
    refine cons_subset.mpr ⟨tidy.types _ found.returns,cons_subset.mpr ⟨typed,?_⟩⟩
    intro id mem
    obtain ⟨q,-,pointee,-,pointed⟩ := exists_of_forall₂ found.params.flip mem
    exact tidy.pointers _ pointed

end Shading.Lowering
