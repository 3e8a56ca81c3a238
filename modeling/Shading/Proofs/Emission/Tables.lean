import Shading.Emission.Tables
import Shading.Proofs.Bytecode.Definitions
import Shading.Proofs.Bytecode.Encoding

/-! What the tables of a module hold, in terms of its code. Each instruction adds what it says; only the
functions depend on what stands around it. -/
namespace Shading.Emission
open List Bytecode Pass

variable {α : Type}

namespace Tables

variable {t t' : Tables} {i : Instruction} {code : List Instruction}

def naming? (i : Instruction) : Option (Id × String) := i.text?.map fun text => (i.operand 0, text)

def decorating? (i : Instruction) : Option (Id × Decoration × UInt32) :=
  if i.op = .decorate then
    (Decoration.ofCode? (i.operand 1).toNat).map fun d => (i.operand 0, d, i.operand 2)
  else none

def composing? (i : Instruction) : Option (Id × Id × List Id) :=
  if i.op = .constantComposite then some (i.operand 1, i.operand 0, i.operandsFrom 2) else none

/-- What is added by an instruction that opens or closes no function and is no parameter. -/
structure Learned (t : Tables) (i : Instruction) (t' : Tables) : Prop where
  names : t'.names = t.names ++ (naming? i).toList
  decorations : t'.decorations = t.decorations ++ (decorating? i).toList
  pointers : t'.pointers = (pointing? i).toList ++ t.pointers
  composites : t'.composites = (composing? i).toList ++ t.composites
  types : ∃ said, t.declaredTy i = .ok said ∧ t'.types = (t.addTy (i.operand 0) said).types
  constants : t'.constants = t.constants ∨
    i.op = .constant ∧ ∃ c, t'.constants = (i.operand 1, c) :: t.constants
  globals : t'.globals = t.globals ∧ (i.op = .var → t.current ≠ none) ∨
    i.op = .var ∧ t.current = none ∧ ∃ storage, StorageClass.ofCode? (i.operand 2).toNat = some storage ∧
      t'.globals = t.globals ++ [(i.operand 1, storage)]
  resultTypes : t'.resultTypes = t.resultTypes
  functions : t'.functions = t.functions
  current : t'.current = t.current

theorem naming?_of_ne (other : i.op ≠ .debugName) : naming? i = none := by
  simp [naming?,Instruction.text?,other]

theorem declaredTy_of_ne (other : i.op.isType = false) : t.declaredTy i = .ok none := by
  unfold declaredTy
  split <;> first | rfl | (rename_i op; rw [op] at other; cases other)

theorem Learned.of_other {entry : Option Id} {localSize : Option (UInt32 × UInt32 × UInt32)}
    (noType : i.op.isType = false) (noName : i.op ≠ .debugName) (noDecoration : i.op ≠ .decorate)
    (noComposite : i.op ≠ .constantComposite) (noGlobal : i.op = .var → t.current ≠ none) :
    Learned t i { t with entry, localSize } where
  names := by simp [naming?_of_ne noName]
  decorations := by simp [decorating?,noDecoration]
  pointers := by
    have noPointer : i.op ≠ .typePointer := fun op => by rw [op] at noType; cases noType
    simp [pointing?,noPointer]
  composites := by simp [composing?,noComposite]
  types := ⟨none,declaredTy_of_ne noType,rfl⟩
  constants := .inl rfl
  globals := .inl ⟨rfl,noGlobal⟩
  resultTypes := rfl
  functions := rfl
  current := rfl

theorem declareTy_learned (isType : i.op.isType = true) (ran : t.declareTy i = .ok t') :
    Learned t i t' := by
  obtain ⟨said,declared,made⟩ := Except.bind_eq_ok.mp ran
  cases made
  have noName : i.op ≠ .debugName := fun op => by rw [op] at isType; cases isType
  have noDecoration : i.op ≠ .decorate := fun op => by rw [op] at isType; cases isType
  have noComposite : i.op ≠ .constantComposite := fun op => by rw [op] at isType; cases isType
  have noGlobal : i.op = .var → t.current ≠ none := fun op => by rw [op] at isType; cases isType
  have types : ∃ said', t.declaredTy i = .ok said' ∧
      (t.addTy (i.operand 0) said).types = (t.addTy (i.operand 0) said').types := ⟨said,declared,rfl⟩
  cases said <;>
    exact ⟨by simp [addTy,naming?_of_ne noName],by simp [addTy,decorating?,noDecoration],rfl,
      by simp [addTy,composing?,noComposite],types,.inl rfl,.inl ⟨rfl,noGlobal⟩,rfl,rfl,rfl⟩

theorem learn_learned (ran : t.learn i = .ok t') : Learned t i t' := by
  have untyped {op : Opcode} (isOp : i.op = op) (noType : op.isType = false) :
      ∃ said, t.declaredTy i = .ok said ∧ t.types = (t.addTy (i.operand 0) said).types :=
    ⟨none,declaredTy_of_ne (isOp ▸ noType),rfl⟩
  unfold learn at ran
  split at ran
  case h_1 op | h_2 op =>
    cases ran
    exact .of_other (by rw [op]; rfl) (by simp [op]) (by simp [op]) (by simp [op]) (by simp [op])
  case h_3 op =>
    cases ran
    cases known : i.text? <;>
      exact ⟨by simp [naming?,known],by simp [decorating?,op],by simp [pointing?,op],
        by simp [composing?,op],untyped op rfl,.inl rfl,.inl ⟨rfl,by simp [op]⟩,rfl,rfl,rfl⟩
  case h_4 op =>
    cases ran
    cases known : Decoration.ofCode? (i.operand 1).toNat <;>
      exact ⟨by simp [naming?_of_ne,op],by simp [decorating?,op,known],by simp [pointing?,op],
        by simp [composing?,op],untyped op rfl,.inl rfl,.inl ⟨rfl,by simp [op]⟩,rfl,rfl,rfl⟩
  case h_5 op =>
    obtain ⟨_,-,ran⟩ := Except.bind_eq_ok.mp ran
    obtain ⟨_,-,ran⟩ := Except.bind_eq_ok.mp ran
    cases ran
    exact ⟨by simp [naming?_of_ne,op],by simp [decorating?,op],by simp [pointing?,op],
      by simp [composing?,op],untyped op rfl,.inr ⟨op,_,rfl⟩,.inl ⟨rfl,by simp [op]⟩,rfl,rfl,rfl⟩
  case h_6 op =>
    cases ran
    exact ⟨by simp [naming?_of_ne,op],by simp [decorating?,op],by simp [pointing?,op],
      by simp [composing?,op],untyped op rfl,.inl rfl,.inl ⟨rfl,by simp [op]⟩,rfl,rfl,rfl⟩
  case h_7 op =>
    split at ran
    case isTrue outside =>
      obtain ⟨storage,known,ran⟩ := Except.bind_eq_ok.mp ran
      cases ran
      exact ⟨by simp [naming?_of_ne,op],by simp [decorating?,op],by simp [pointing?,op],
        by simp [composing?,op],untyped op rfl,.inl rfl,
        .inr ⟨op,by simpa using outside,storage,require_eq_ok.mp known,rfl⟩,rfl,rfl,rfl⟩
    case isFalse inside =>
      cases ran
      exact .of_other (by rw [op]; rfl) (by simp [op]) (by simp [op]) (by simp [op])
        fun _ => by simpa using inside
  case h_8 noName noDecoration _ noComposite noVar =>
    split at ran
    case isTrue isType => exact declareTy_learned isType ran
    case isFalse notType =>
      cases ran
      exact .of_other (by simpa using notType) noName noDecoration noComposite fun op => absurd op noVar

/-- What one more instruction does. -/
inductive Scanned (t : Tables) (i : Instruction) : Tables → Prop where
  | opens (op : i.op = .function) :
    Scanned t i { t.typed i with current := some { id := i.operand 1, returnTy := i.operand 0 } }
  | param {f : Function} {mode : ParamMode} (op : i.op = .functionParameter) (inside : t.current = some f) :
    Scanned t i { t.typed i with
      current := some { f with params := f.params ++ [⟨i.operand 0, i.operand 1, mode⟩], body := [] } }
  | closes {f : Function} (op : i.op = .functionEnd) (inside : t.current = some f) :
    Scanned t i { t.typed i with functions := t.functions ++ [f], current := none }
  | other {l : Tables} (opens : i.op ≠ .function) (param : i.op ≠ .functionParameter)
      (closes : i.op ≠ .functionEnd) (learned : Learned (t.typed i) i l) : Scanned t i (l.addToBody i)

theorem scan_scanned (ran : t.scan i = .ok t') : Scanned t i t' := by
  unfold scan at ran
  dsimp only at ran
  split at ran
  case h_1 op =>
    cases ran
    exact .opens op
  case h_2 op =>
    split at ran
    case h_1 => cases ran
    case h_2 f inside =>
      obtain ⟨mode,-,ran⟩ := Except.bind_eq_ok.mp ran
      cases ran
      exact .param op inside
  case h_3 op =>
    split at ran
    case h_1 => cases ran
    case h_2 f inside =>
      cases ran
      exact .closes op inside
  case h_4 opens param closes =>
    obtain ⟨l,learned,ran⟩ := Except.bind_eq_ok.mp ran
    cases ran
    exact .other opens param closes (learn_learned learned)

theorem scan_induction (holds : List Instruction → Tables → Prop) (start : holds [] {})
    (step : ∀ {before t i t'}, holds before t → Scanned t i t' → holds (before ++ [i]) t')
    {t : Tables} (ran : code.foldlM scan {} = .ok t) : holds code t := by
  have run : ∀ (code before : List Instruction) (t₀ : Tables), holds before t₀ →
      code.foldlM scan t₀ = .ok t → holds (before ++ code) t := by
    intro code
    induction code with
    | nil =>
      intro before t₀ held ran
      cases ran
      simpa using held
    | cons i code ih =>
      intro before t₀ held ran
      rw [foldlM_cons] at ran
      obtain ⟨t₁,scanned,ran⟩ := Except.bind_eq_ok.mp ran
      simpa using ih (before ++ [i]) t₁ (step held (scan_scanned scanned)) ran
  exact run code [] {} start ran

theorem ofCode_scanned {target : Target} {entry : Id} (made : ofCode target code = .ok (t, entry)) :
    code.foldlM scan {} = .ok t := by
  obtain ⟨t',ran,next⟩ := Except.bind_eq_ok.mp made
  obtain ⟨_,-,next⟩ := Except.bind_eq_ok.mp next
  obtain ⟨_,-,done⟩ := Except.bind_eq_ok.mp next
  cases done
  exact ran

section Contents

variable {code : List Instruction}

/-- Most tables are lists of what each instruction says. -/
structure Lists (code : List Instruction) (t : Tables) : Prop where
  names : t.names = code.filterMap naming?
  decorations : t.decorations = code.filterMap decorating?
  pointers : t.pointers = (code.filterMap pointing?).reverse
  composites : t.composites = (code.filterMap composing?).reverse
  resultTypes : t.resultTypes = (code.filterMap typing?).reverse

variable {f : Instruction → Option α} {before : List Instruction}

theorem filterMap_snoc : (before ++ [i]).filterMap f = before.filterMap f ++ (f i).toList := by
  cases said : f i <;> simp [said]

theorem filterMap_snoc_reverse :
    ((before ++ [i]).filterMap f).reverse = (f i).toList ++ (before.filterMap f).reverse := by
  cases said : f i <;> simp [said]

theorem Lists.step (held : Lists before t) (scanned : Scanned t i t') :
    Lists (before ++ [i]) t' := by
  have bare {op : Opcode} (isOp : i.op = op) (noType : op.isType = false) (noName : op ≠ .debugName)
      (noDecoration : op ≠ .decorate) (noComposite : op ≠ .constantComposite) (noVar : op ≠ .var) :
      Learned (t.typed i) i (t.typed i) :=
    .of_other (isOp ▸ noType) (isOp ▸ noName) (isOp ▸ noDecoration) (isOp ▸ noComposite)
      fun isVar => absurd isVar (isOp ▸ noVar)
  have extend {l : Tables} (learned : Learned (t.typed i) i l) : Lists (before ++ [i]) l := by
    constructor
    · rw [filterMap_snoc,learned.names,typed,held.names]
    · rw [filterMap_snoc,learned.decorations,typed,held.decorations]
    · rw [filterMap_snoc_reverse,learned.pointers,typed,held.pointers]
    · rw [filterMap_snoc_reverse,learned.composites,typed,held.composites]
    · rw [filterMap_snoc_reverse,learned.resultTypes,typed,held.resultTypes]
  cases scanned with
  | opens op | param op | closes op =>
    exact { extend (bare op rfl (by simp) (by simp) (by simp) (by simp)) with }
  | other _ _ _ learned => exact { extend learned with }

theorem scan_lists (ran : code.foldlM scan {} = .ok t) : Lists code t :=
  scan_induction Lists ⟨rfl,rfl,rfl,rfl,rfl⟩ Lists.step ran

theorem scan_constants (ran : code.foldlM scan {} = .ok t) :
    ∀ p ∈ t.constants, ∃ i ∈ code, i.op = .constant ∧ i.operand 1 = p.1 := by
  refine scan_induction
    (fun code t => ∀ p ∈ t.constants, ∃ i ∈ code, i.op = .constant ∧ i.operand 1 = p.1)
    (by simp) ?_ ran
  intro before t i t' held scanned p mem
  have old (mem : p ∈ t.constants) : ∃ d ∈ before ++ [i], d.op = .constant ∧ d.operand 1 = p.1 := by
    obtain ⟨d,inside,defines⟩ := held p mem
    exact ⟨d,by simp [inside],defines⟩
  cases scanned with
  | opens => exact old mem
  | param => exact old mem
  | closes => exact old mem
  | other _ _ _ learned =>
    rcases learned.constants with same | ⟨op,c,more⟩
    · exact old (same ▸ mem)
    · rcases mem_cons.mp (more ▸ mem) with rfl | mem
      · exact ⟨i,by simp,op,rfl⟩
      · exact old mem

def innerIds (f : Function) : List Id := f.params.map Param.id ++ results f.body

def functionIds (f : Function) : List Id := f.id :: innerIds f

def met (t : Tables) : List Function := t.functions ++ t.current.toList

def defined (t : Tables) : List Id := t.globals.map Prod.fst ++ t.met.flatMap functionIds

theorem results_singleton : results [i] = i.result?.toList := by
  rw [results_cons]
  exact append_nil _

theorem one_lt_minOperands {op : Opcode} (typed : op.hasResultType = true) : 1 < op.minOperands := by
  cases op <;> first | decide | cases typed

theorem result?_of_full (full : i.Full) (typed : i.op.hasResultType = true) :
    i.result? = some (i.operand 1) := by
  have long : 1 < i.operands.length := Nat.lt_of_lt_of_le (one_lt_minOperands typed) full
  simp [Instruction.result?,Instruction.resultPosition?,typed,Instruction.operand_eq,long]

/-- One more instruction adds at most its own id. -/
theorem Scanned.defined (full : i.Full) (scanned : Scanned t i t') :
    t'.defined.Subperm (t.defined ++ i.result?.toList) := by
  have result {op : Opcode} (isOp : i.op = op) (typed : op.hasResultType = true) :
      i.result?.toList = [i.operand 1] := by rw [result?_of_full full (isOp ▸ typed)]; rfl
  cases scanned with
  | opens op =>
    rw [result op rfl]
    -- a function whose end was not met is forgotten
    have kept : (t.globals.map Prod.fst ++ t.functions.flatMap functionIds).Sublist t.defined := by
      simp [Tables.defined,met]
    simpa [Tables.defined,met,typed,functionIds,innerIds,results] using (kept.append_right [i.operand 1]).subperm
  | @param f mode op inside =>
    rw [result op rfl]
    have kept : (t.globals.map Prod.fst ++ (t.functions.flatMap functionIds ++
        f.id :: f.params.map Param.id)).Sublist t.defined := by
      simp [Tables.defined,met,inside,functionIds,innerIds]
    simpa [Tables.defined,met,typed,functionIds,innerIds,results] using (kept.append_right [i.operand 1]).subperm
  | @closes f op inside =>
    have same : Tables.defined { t.typed i with functions := t.functions ++ [f], current := none } = t.defined := by
      simp [Tables.defined,met,typed,inside]
    rw [same]
    exact (sublist_append_left _ _).subperm
  | @other l _ _ _ learned =>
    cases inside : t.current with
    | none =>
      have others : (l.addToBody i).met = t.met := by
        simp [met,addToBody,learned.functions,learned.current,typed,inside]
      rcases learned.globals with ⟨same,-⟩ | ⟨op,-,storage,-,more⟩
      · have globals : (l.addToBody i).globals = t.globals := same
        rw [Tables.defined,globals,others]
        exact (sublist_append_left _ _).subperm
      · have globals : (l.addToBody i).globals = t.globals ++ [(i.operand 1, storage)] := more
        rw [result op rfl,Tables.defined,globals,others,map_append,Tables.defined,
          List.append_assoc,List.append_assoc]
        exact (perm_append_comm.append_left _).subperm
    | some f =>
      have globals : (l.addToBody i).globals = t.globals := by
        rcases learned.globals with ⟨same,-⟩ | ⟨-,outside,-⟩
        · exact same
        · cases inside.symm.trans outside
      have others : (l.addToBody i).met = t.functions ++ [{ f with body := f.body ++ [i] }] := by
        simp [met,addToBody,learned.functions,learned.current,typed,inside]
      rw [Tables.defined,globals,others]
      simpa [Tables.defined,met,inside,functionIds,innerIds,results_append,results_singleton] using
        List.Subperm.refl _

theorem scan_defined (full : ∀ i ∈ code, i.Full) (ran : code.foldlM scan {} = .ok t) :
    t.defined.Subperm (results code) := by
  refine scan_induction
    (fun code t => (∀ i ∈ code, i.Full) → t.defined.Subperm (results code)) (fun _ => ?_) ?_ ran full
  · exact nil_subperm
  · intro before t i t' held scanned full
    rw [forall_mem_append,forall_mem_singleton] at full
    rw [results_append,results_singleton]
    exact (scanned.defined full.2).trans ((subperm_append_right _).mpr (held full.1))

theorem perm_functionIds (fs : List Function) :
    (fs.flatMap functionIds).Perm (fs.map Function.id ++ fs.flatMap innerIds) := by
  induction fs with
  | nil => simp
  | cons f fs ih =>
    grind [functionIds]

theorem scan_bodies (ran : code.foldlM scan {} = .ok t) : ∀ f ∈ t.met, f.body ⊆ code := by
  refine scan_induction (fun code t => ∀ f ∈ t.met, f.body ⊆ code) (by simp [met]) ?_ ran
  intro before t i t' held scanned f mem
  have old (mem : f ∈ t.met) : f.body ⊆ before ++ [i] :=
    Subset.trans (held f mem) (subset_append_left _ _)
  cases scanned with
  | opens =>
    grind [met,typed]
  | @param g mode op inside =>
    grind [met,typed]
  | @closes g op inside => exact old (by simpa [met,typed,inside] using mem)
  | @other l _ _ _ learned =>
    simp only [met,addToBody,learned.functions,learned.current,typed,mem_append,
      Option.mem_toList,Option.map_eq_some_iff] at mem
    grind [met]

end Contents

end Tables

end Shading.Emission
