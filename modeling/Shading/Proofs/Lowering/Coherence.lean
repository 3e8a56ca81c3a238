import Shading.Proofs.Bytecode.Building
import Shading.Proofs.Bytecode.Text
import Shading.Proofs.Lowering.Declarations

/-! What is kept while a module is written, so that it is valid in the end: ids are handed out in order,
tables give ids of the right kinds, and every instruction takes what it needs. Work that does this and never
fails is put together from smaller work of that kind. -/
namespace Shading.Lowering
open List Bytecode Pass Instruction Opcode State

variable {i : Instruction} {op : Opcode} {ty : Ty} {storage : StorageClass}

/-- The ids are the first ones, each of them once, and the next one comes after them. -/
def Numbered (ids : List Id) (next : Id) : Prop :=
  ∃ n : Nat, next = .ofNat (n + 1) ∧ ids.Perm ((List.range n).map fun k => .ofNat (k + 1))

namespace Numbered

variable {ids ids' : List Id} {next : Id}

section

variable (numbered : Numbered ids next)
include numbered

theorem perm (same : ids'.Perm ids) : Numbered ids' next :=
  let ⟨n,start,ranged⟩ := numbered
  ⟨n,start,same.trans ranged⟩

theorem fresh (more : ids'.Perm (next :: ids)) : Numbered ids' (next + 1) := by
  obtain ⟨n,rfl,ranged⟩ := numbered
  refine ⟨n + 1,by simp,more.trans ?_⟩
  rw [range_succ,map_append]
  exact (perm_append_singleton _ _).symm.trans (ranged.append_right _)

theorem apart (few : ids.length < 2 ^ 32 - 1) : ids.Nodup ∧ 0 ∉ ids ∧ ∀ id ∈ ids, id < next := by
  obtain ⟨n,rfl,ranged⟩ := numbered
  have count : ids.length = n := by simpa using ranged.length_eq
  have value {k : Nat} (below : k < n + 1) : (UInt32.ofNat k).toNat = k :=
    UInt32.toNat_ofNat_of_lt' (by rw [UInt32.size]; omega)
  have found {id : Id} (mem : id ∈ ids) : ∃ k < n, id = .ofNat (k + 1) := by
    obtain ⟨k,below,rfl⟩ := mem_map.mp (ranged.mem_iff.mp mem)
    exact ⟨k,mem_range.mp below,rfl⟩
  refine ⟨ranged.nodup_iff.mpr ?_,fun zero => ?_,fun id mem => ?_⟩
  · grind [List.Nodup.map_on]
  · obtain ⟨k,below,same⟩ := found zero
    have := congrArg UInt32.toNat same
    rw [value (by omega)] at this
    simp at this
  grind [UInt32.lt_iff_toNat_lt,UInt32.toNat_ofNat_of_lt']

end

end Numbered

def State.written (s : State) : List Instruction := s.decls.toList ++ s.code.toList

/-- The state can be completed to a valid module: `waiting` are the ids that were handed out for functions
that are not written yet, and `loops` tells how many loops are open. -/
structure State.Coherent (waiting : List Id) (loops : Nat) (s : State) : Prop where
  types : ∀ e ∈ s.types, Defines s.decls.toList isType e.2
  pointers : ∀ e ∈ s.pointers, Defines s.decls.toList (· == .typePointer) e.2
  globals : ∀ e ∈ s.globals, Defines s.decls.toList (· == .var) e.2.1
  params : ∀ id ∈ s.frame.params, Defines s.written isPointer id
  locals : ∀ e ∈ s.frame.locals, Defines s.written isPointer e.2
  stated : ∀ i ∈ s.decls.toList, i.op.isNote = false
  ordered : Ordered [] s.decls.toList
  outside : ∀ i ∈ s.decls.toList, i.Takes s.written false
  inside : ∀ i ∈ s.code.toList, i.Takes s.written true
  called : Called s.known s.code.toList
  looped : loopsAfter 0 s.code.toList = some loops
  names : ∀ i ∈ s.names.toList, i.Full ∧ i.text?.isSome = true
  decorations : ∀ i ∈ s.decorations.toList, i.op = .decorate ∧ i.Full ∧
    Defines s.decls.toList (· == .var) (i.operand 0) ∧
      (Decoration.ofCode? i.decorationCode.toNat).isSome = true
  numbered : Numbered (waiting ++ results s.written) s.nextId

/-- More was written, and what is known of globals and functions is as before. -/
structure State.Extends (s s' : State) : Prop where
  decls : s.decls.toList <+: s'.decls.toList
  code : s.code.toList <+: s'.code.toList
  globals : s'.globals = s.globals
  functions : s'.functions = s.functions

/-- More was written in a function: new locals may be known. -/
structure State.Grows (s s' : State) : Prop extends s.Extends s' where
  params : s'.frame.params = s.frame.params
  declared : s'.frame.declared = s.frame.declared
  locals : ∃ new, s'.frame.locals = new ++ s.frame.locals

namespace State

variable {s t u : State}

theorem Extends.refl (s : State) : s.Extends s := ⟨prefix_rfl,prefix_rfl,rfl,rfl⟩

theorem Extends.trans (first : s.Extends t) (second : t.Extends u) : s.Extends u where
  decls := first.decls.trans second.decls
  code := first.code.trans second.code
  globals := second.globals.trans first.globals
  functions := second.functions.trans first.functions

theorem Extends.written (more : s.Extends t) : s.written ⊆ t.written :=
  append_subset.mpr ⟨Subset.trans more.decls.subset (subset_append_left _ _),
    Subset.trans more.code.subset (subset_append_right _ _)⟩

theorem Grows.refl (s : State) : s.Grows s := ⟨.refl s,rfl,rfl,[],rfl⟩

theorem Tabulated.grows (same : s.Tabulated t) : s.Grows t := by
  obtain ⟨new,declared,-⟩ := same.decls
  exact ⟨⟨⟨new,declared.symm⟩,by rw [same.code],same.globals,same.functions⟩,by rw [same.frame],
    by rw [same.frame],[],by rw [same.frame,nil_append]⟩

theorem Grows.trans (first : s.Grows t) (second : t.Grows u) : s.Grows u where
  toExtends := first.toExtends.trans second.toExtends
  params := second.params.trans first.params
  declared := second.declared.trans first.declared
  locals := by
    grind [Grows.locals]

end State

def Does {α : Type} (waiting : List Id) (loops : Nat) (s : State) (work : Lower α) (loops' : Nat)
    (gives : α → State → Prop) : Prop :=
  s.Coherent waiting loops → ∃ a s', work.run s = .ok (a, s') ∧ s'.Coherent waiting loops' ∧
    s.Grows s' ∧ gives a s'

section Primitives

variable {α β : Type} {w : List Id} {d d' d'' : Nat} {s : State} {id : Id} {t : State}
  {w' : List Id}

namespace Does

variable {work : Lower α} {Q Q' : α → State → Prop} {R : β → State → Prop}

theorem of_pure {a : α} (given : Q a s) : Does w d s (pure a) d Q :=
  fun coherent => ⟨a,s,rfl,coherent,.refl s,given⟩

theorem bind {next : α → Lower β} (first : Does w d s work d' Q)
    (second : ∀ a t, s.Grows t → Q a t → Does w d' t (next a) d'' R) :
    Does w d s (work >>= next) d'' R := by
  intro coherent
  obtain ⟨a,t,ran,coherent',grows,given⟩ := first coherent
  obtain ⟨b,u,ran',coherent'',grows',given'⟩ := second a t grows given coherent'
  exact ⟨b,u,(Lower.run_bind_of_ok ran).trans ran',coherent'',grows.trans grows',given'⟩

theorem imp (h : Does w d s work d' Q) (weaker : ∀ a t, s.Grows t → Q a t → Q' a t) :
    Does w d s work d' Q' := by
  intro coherent
  obtain ⟨a,t,ran,coherent',grows,given⟩ := h coherent
  exact ⟨a,t,ran,coherent',grows,weaker a t grows given⟩

theorem using_ (h : s.Coherent w d → Does w d s work d' Q) : Does w d s work d' Q :=
  fun coherent => h coherent coherent

theorem of_get {next : State → Lower α} (h : Does w d s (next s) d' Q) :
    Does w d s (get >>= next) d' Q := h

end Does

section

variable (coherent : s.Coherent w d)
include coherent

theorem State.Coherent.perm (same : w'.Perm w) : s.Coherent w' d :=
  { coherent with numbered := coherent.numbered.perm (same.append_right _) }

theorem State.Coherent.write {next : Id} (takes : i.Takes s.written true)
    (steps : loopsAfter d [i] = some d')
    (numbered : Numbered (w' ++ (results s.written ++ i.result?.toList)) next) :
    ({ s with nextId := next, code := s.code.push i } : State).Coherent w' d' := by
  have more : s.written ⊆ ({ s with nextId := next, code := s.code.push i } : State).written := by
    simp only [written,Array.toList_push,← List.append_assoc]
    exact subset_append_left _ _
  refine { coherent with
    params := fun id m => (coherent.params id m).mono more
    locals := fun e m => (coherent.locals e m).mono more
    outside := fun j m => (coherent.outside j m).mono more
    inside := fun j m => ?_
    called := ?_
    looped := ?_
    numbered := ?_ }
  · rw [Array.toList_push,mem_append,mem_singleton] at m
    rcases m with old | rfl
    · exact (coherent.inside j old).mono more
    · exact takes.mono more
  · rw [Array.toList_push]
    refine called_append.mpr ⟨coherent.called,fun f calls => ?_,trivial⟩
    have defined := (takes.callee? calls).mem_results
    rw [written,results_append,mem_append] at defined
    exact mem_append.mpr defined.symm
  · rw [Array.toList_push,loopsAfter_append,coherent.looped]
    exact steps
  · have same : results ({ s with nextId := next, code := s.code.push i } : State).written =
        results s.written ++ i.result?.toList := by
      have one : results [i] = i.result?.toList := by
        rw [results_cons]
        exact append_nil _
      simp only [written,Array.toList_push,results_append,List.append_assoc,one]
    rw [same]
    exact numbered

theorem State.Coherent.declare (takes : i.Takes s.written false) (refers : i.references ⊆ s.known)
    (defines : i.result? = some s.nextId) :
    ({ s with nextId := s.nextId + 1, decls := s.decls.push i } : State).Coherent w d := by
  generalize after : ({ s with nextId := s.nextId + 1, decls := s.decls.push i } : State) = t
  have decls : t.decls.toList = s.decls.toList ++ [i] := by simp [← after]
  have code : t.code = s.code := by simp [← after]
  have lists : s.decls.toList ⊆ t.decls.toList := by
    rw [decls]
    exact subset_append_left _ _
  have more : s.written ⊆ t.written := by
    grind [written]
  have known : s.known ⊆ t.known := by
    rw [State.known,State.known,decls,results_append]
    exact subset_append_left _ _
  subst after
  refine { coherent with
    types := fun e m => (coherent.types e m).mono lists
    pointers := fun e m => (coherent.pointers e m).mono lists
    globals := fun e m => (coherent.globals e m).mono lists
    params := fun id m => (coherent.params id m).mono more
    locals := fun e m => (coherent.locals e m).mono more
    stated := fun j m => ?_
    ordered := ?_
    outside := fun j m => ?_
    inside := fun j m => (coherent.inside j m).mono more
    called := coherent.called.mono known
    decorations := fun j m => ?_
    numbered := ?_ }
  · rw [decls,mem_append,mem_singleton] at m
    rcases m with old | rfl
    · exact coherent.stated j old
    · obtain ⟨op,operands⟩ := j
      cases op <;> first | rfl | cases defines
  · rw [decls]
    exact ordered_append.mpr ⟨coherent.ordered,fun _ => by simpa [State.known] using refers,trivial⟩
  · rw [decls,mem_append,mem_singleton] at m
    rcases m with old | rfl
    · exact (coherent.outside j old).mono more
    · exact takes.mono more
  · obtain ⟨op,full,target,code⟩ := coherent.decorations j m
    exact ⟨op,full,target.mono lists,code⟩
  · refine coherent.numbered.fresh ?_
    simp only [written,Array.toList_push,results_append,results_cons,defines]
    grind [Pass.results]

end

theorem defines_push {code : Array Instruction} {kind : Opcode → Bool}
    (defines : i.result? = some id) (right : kind i.op = true) :
    Defines (code.push i).toList kind id :=
  ⟨i,by simp,defines,right⟩

theorem State.grows_write (next : Id) (i : Instruction) :
    s.Grows { s with nextId := next, code := s.code.push i } :=
  { Grows.refl s with code := by simp }

variable {operands : List UInt32}

theorem emit_does (silent : (⟨op, operands⟩ : Instruction).result? = none)
    (takes : (⟨op, operands⟩ : Instruction).Takes s.written true)
    (steps : loopsAfter d [⟨op, operands⟩] = some d') :
    Does w d s (emit op operands) d' fun _ _ => True := by
  intro coherent
  refine ⟨(),_,rfl,?_,grows_write s.nextId _,trivial⟩
  refine coherent.write takes steps ?_
  rw [silent]
  simpa using coherent.numbered

variable {o : Id → List UInt32}

section

variable (defines : ∀ id, (⟨op, o id⟩ : Instruction).result? = some id)
  (takes : ∀ id, (⟨op, o id⟩ : Instruction).Takes s.written true)
  (steps : ∀ id, loopsAfter d [⟨op, o id⟩] = some d)
include defines takes steps

theorem define_does : Does w d s (do
      let id ← fresh
      emit op (o id)
      return id) d fun id s' => Defines s'.code.toList (· == op) id := by
  intro coherent
  refine ⟨s.nextId,_,rfl,?_,grows_write (s.nextId + 1) ⟨op,o s.nextId⟩,?_⟩
  · grind [Coherent.write,Coherent.numbered,Numbered.fresh,perm_append_singleton]
  · exact defines_push (defines _) (beq_self_eq_true op)

theorem define_bind {rest : Id → Lower β} {R : β → State → Prop}
    (after : ∀ id t, s.Grows t → Defines t.code.toList (· == op) id → Does w d t (rest id) d' R) :
    Does w d s (do
      let id ← fresh
      emit op (o id)
      rest id) d' R := by
  simpa using (define_does defines takes steps).bind after

end

abbrev State.IsType (s : State) (id : Id) : Prop := Defines s.decls.toList isType id

abbrev State.IsPointer (s : State) (id : Id) : Prop := Defines s.written isPointer id

theorem State.IsType.written (type : s.IsType id) : Defines s.written isType id :=
  type.mono (subset_append_left _ _)

theorem State.IsPointer.grows (pointer : s.IsPointer id) (grows : s.Grows t) :
    t.IsPointer id := pointer.mono grows.written

theorem TyLine.references_subset {types : List (Ty × Id)} {t : Ty} {known : List Id}
    (line : TyLine types t op operands) (inside : ∀ e ∈ types, e.2 ∈ known) (id : Id) :
    (⟨op, id :: operands⟩ : Instruction).references ⊆ known := by
  cases line with
  | vector here | matrix here | array here =>
    simpa [references,refersAt,zipIdx_cons] using inside _ here
  | _ => exact nil_subset _

theorem State.Coherent.enters (entered : s.Enters t) (coherent : s.Coherent w d) :
    t.Coherent w d := by
  have inside (e : Ty × Id) (mem : e ∈ s.types) : e.2 ∈ s.known := (coherent.types e mem).mem_results
  cases entered with
  | @type t op operands line =>
    have full : op.minOperands ≤ operands.length + 1 := by cases line <;> simp [minOperands]
    have declared := coherent.declare (i := ⟨op,s.nextId :: operands⟩)
      (takes_of_isType line.isType full)
      (line.references_subset inside s.nextId) (by cases line <;> rfl)
    exact { declared with
      types := forall_mem_cons.mpr ⟨defines_push (by cases line <;> rfl) line.isType,declared.types⟩ }
  | @pointer t pointee storage known =>
    have declared := coherent.declare (i := ⟨.typePointer,[s.nextId,.ofNat storage.code,pointee]⟩)
      (takes_of_isType rfl (by simp [minOperands]))
      (by simpa [references,refersAt,zipIdx_cons] using inside _ known) rfl
    exact { declared with pointers := forall_mem_cons.mpr ⟨defines_push rfl rfl,declared.pointers⟩ }
  | @signature types nonempty known =>
    refine { coherent.declare (i := ⟨.typeFunction,s.nextId :: types⟩) (takes_of_isType rfl ?_) ?_ rfl with }
    · have := length_pos_iff.mpr nonempty
      simp only [minOperands,length_cons]
      omega
    · intro x mem
      obtain ⟨p,at',refers⟩ := mem_references.mp mem
      cases p with
      | zero => cases refers
      | succ p =>
        rcases mem_append.mp (known (mem_of_getElem? at')) with type | pointer
        · obtain ⟨e,here,rfl⟩ := mem_map.mp type
          exact inside e here
        · obtain ⟨e,here,rfl⟩ := mem_map.mp pointer
          exact (coherent.pointers e here).mem_results
  | @constant c t known =>
    refine { coherent.declare (i := ⟨.constant,[t,s.nextId,c.bits]⟩)
      ⟨by simp [Full,minOperands],?_,trivial⟩ ?_ rfl with }
    · simpa [resultType?,hasResultType,isPointer] using IsType.written (coherent.types _ known)
    · simpa [references,refersAt,zipIdx_cons] using inside _ known

theorem Does.of_finds {work : Lower α} {P Q : α → State → Prop} (finds : Finds s work P)
    (given : ∀ {a t}, t.Coherent w d → P a t → Q a t) : Does w d s work d Q := by
  intro coherent
  obtain ⟨a,t,ran,steps,found⟩ := finds
  have coherent' := steps.keeps Coherent.enters coherent
  exact ⟨a,t,ran,coherent',steps.tabulated.grows,given coherent' found⟩

theorem tyId_does (t : Ty) : Does w d s (tyId t) d fun id s' => s'.IsType id :=
  .of_finds (tyId_finds t) fun coherent found => coherent.types _ found

theorem State.Coherent.pointer {storage : StorageClass} {t : Ty} (coherent : s.Coherent w d)
    (known : s.Pointer storage t id) : Defines s.decls.toList (· == .typePointer) id := by
  obtain ⟨pointee,-,pointed⟩ := known
  exact coherent.pointers _ pointed

theorem pointerTo_does (storage : StorageClass) (t : Ty) : Does w d s (pointerTo storage t) d
    fun id s' => Defines s'.decls.toList (· == .typePointer) id :=
  .of_finds (pointerTo_finds storage t) fun coherent found => coherent.pointer found

theorem constantId_does (c : Const) : Does w d s (constantId c) d fun _ _ => True :=
  .of_finds (constantId_finds c) fun _ _ => trivial

section

variable (typed : op.hasResultType = true)
include typed

theorem loopsAfter_of_hasResultType (operands : List UInt32) :
    loopsAfter d [⟨op, operands⟩] = some d := by
  cases op <;> first | rfl | cases typed

theorem value_does (plain : op.isPointer = false) (full : op.minOperands ≤ operands.length + 2)
    (reaches : ∀ t id, (⟨op, t :: id :: operands⟩ : Instruction).Reaches s.written true) :
    Does w d s (value op ty operands) d fun _ _ => True := by
  refine (tyId_does ty).bind fun t s' grows type => ?_
  refine (define_does (o := fun id => t :: id :: operands)
    (fun id => by simp [result?,resultPosition?,typed])
    (fun id => ⟨full,?_,(reaches t id).mono grows.written⟩)
    fun id => loopsAfter_of_hasResultType typed _).imp fun _ _ _ _ => trivial
  simpa [resultType?,typed,plain] using type.written

theorem pointer_does {o : List UInt32} (pointer : op.isPointer = true)
    (full : op.minOperands ≤ o.length + 2)
    (reaches : ∀ p id, (⟨op, p :: id :: o⟩ : Instruction).Reaches s.written true) : Does w d s (do
      let p ← pointerId storage (← tyId ty)
      let id ← fresh
      emit op (p :: id :: o)
      return id) d fun id s' => s'.IsPointer id := by
  rw [← bind_assoc]
  refine (pointerTo_does storage ty).bind fun p s₂ grows known => ?_
  have known' : Defines s₂.written (· == .typePointer) p := known.mono (subset_append_left _ _)
  refine (define_does (o := fun id => p :: id :: o)
    (fun id => by simp [result?,resultPosition?,typed])
    (fun id => ⟨full,?_,(reaches p id).mono grows.written⟩)
    fun id => loopsAfter_of_hasResultType typed _).imp fun id u _ defined => ?_
  · simp only [resultType?,typed,if_true]
    rintro _ ⟨⟩
    exact ⟨known'.imp (by simp [isType]),fun _ => known'⟩
  · exact (defined.mono (subset_append_right _ _)).imp (by simp [pointer])

end

theorem localVariable_does (ty : Ty) :
    Does w d s (localVariable ty) d fun id s' => s'.IsPointer id :=
  pointer_does (o := [.ofNat StorageClass.function.code]) rfl rfl (by decide)
    fun _ _ => ⟨.function,rfl,by simp⟩

theorem accessChain_does {base index : Id} (pointer : s.IsPointer base) :
    Does w d s (accessChain storage ty base index) d fun id s' => s'.IsPointer id :=
  pointer_does (o := [base,index]) rfl rfl (by simp [minOperands]) fun _ _ => pointer

theorem named_full (target : Id) (text : String) :
    (named target text).Full ∧ (named target text).text?.isSome = true := by
  refine ⟨?_,text?_named target text⟩
  have := length_encodeText text
  show 2 ≤ (encodeText text).length + 1
  omega

theorem addName_does (target : Id) (text : String) :
    Does w d s (addName target text) d fun _ _ => True := by
  unfold addName
  split
  · exact .of_pure trivial
  · intro coherent
    refine ⟨(),_,rfl,{ coherent with names := fun i mem => ?_ },{ Grows.refl s with },trivial⟩
    rw [Array.toList_push,mem_append,mem_singleton] at mem
    rcases mem with old | rfl
    · exact coherent.names i old
    · exact named_full target text

end Primitives

end Shading.Lowering
