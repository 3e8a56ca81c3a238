import Shading.Proofs.Bytecode.Parts
import Shading.Proofs.Lowering.Initials

/-! The variables of a lowered module are the globals of its program, in their order: each is declared with
its type and has its name and its decorations. -/
namespace Shading.Lowering
open List Bytecode Typed Instruction

variable {about : List Instruction} {p : Program} {code : List Instruction}

/-- The notes on a variable are those of the global. -/
structure Noted (g : Global) (notes : List Note) : Prop where
  named : g.name ≠ "" → '\x00' ∉ g.name.toList → notes.findSome? Note.name? = some g.name
  decorated : ∀ d, notes.findSome? (Note.decoration? d) =
    ((globalDecorations g).lookup d).map UInt32.ofNat

/-- The instruction declares the variable of the global. -/
def Presents (code : List Instruction) (g : Global) (i : Instruction) : Prop :=
  ∃ ptr id, i = ⟨.var, [ptr, id, .ofNat (storageClass g.storage).code]⟩ ∧
    Points code ptr (storageClass g.storage) g.ty ∧ Noted g (notesOn code id)

theorem Placed.head?_nameLines (p : Placed) : ∀ i ∈ p.nameLines, i.operands.head? = some p.id := by
  intro i mem
  obtain rfl := eq_of_mem_nameLines mem
  rfl

theorem Placed.head?_decorationLines (p : Placed) : ∀ i ∈ p.decorationLines, i.operands.head? = some p.id := by
  intro i mem
  obtain ⟨_,_,rfl⟩ := eq_of_mem_decorationLines mem
  rfl

theorem vars_eq_nil (noVar : ∀ i ∈ code, i.op ≠ .var) : code.filter (fun i => i.op == .var) = [] :=
  filter_eq_nil_iff.mpr fun i mem => by simpa using noVar i mem

/-- Work on globals has declared them one after the other. -/
structure DeclaresGlobals (s : State) (places : List Placed) (s' : State) : Prop where
  functions : s'.functions = s.functions
  globals : s'.globals = (places.map Placed.entry).reverse ++ s.globals
  documented : s'.Documented
  declared : s.decls.toList ⊆ s'.decls.toList
  vars : s'.decls.toList.filter (fun i => i.op == .var) =
    s.decls.toList.filter (fun i => i.op == .var) ++ places.map Placed.line
  points : ∀ p ∈ places,
    Points s'.decls.toList p.ptr (storageClass p.global.storage) p.global.ty
  names : s'.names.toList = s.names.toList ++ places.flatMap Placed.nameLines
  decorations : s'.decorations.toList = s.decorations.toList ++ places.flatMap Placed.decorationLines

variable {s : State}

theorem lowerGlobal_declares_global {g : Global} {s' : State} {a : Unit} (start : s.Documented)
    (ran : (lowerGlobal g).run s = .ok (a, s')) :
    ∃ ptr id, DeclaresGlobals s [⟨g, ptr, id⟩] s' := by
  obtain ⟨ptr,t,steps,⟨pointee,typed,pointed⟩,ran'⟩ := lowerGlobal_run g s
  cases ran.symm.trans ran'
  have upTo := steps.continues
  have documented := steps.keeps State.Documented.enters start
  have more : t.decls.toList ⊆ (t.place ⟨g,ptr,t.nextId⟩).decls.toList := by simp [State.place]
  have points : Points t.decls.toList ptr (storageClass g.storage) g.ty :=
    ⟨pointee,documented.pointers _ pointed,documented.types _ typed⟩
  refine ⟨ptr,t.nextId,upTo.functions,by simp [State.place,upTo.globals],⟨⟨fun e mem =>
    (documented.types e mem).mono more,fun e mem => more (documented.pointers e mem)⟩,
    fun found => (documented.constants found).mono more⟩,
    Subset.trans upTo.declared more,?_,forall_mem_singleton.mpr (points.mono more),
    by simp [State.place,steps.tabulated.names],by simp [State.place,upTo.decorations]⟩
  obtain ⟨new,declared,noVar⟩ := upTo.decls
  simp [State.place,declared,vars_eq_nil noVar,Placed.line]

theorem DeclaresGlobals.trans {t u : State} {ps qs : List Placed} (first : DeclaresGlobals s ps t)
    (second : DeclaresGlobals t qs u) : DeclaresGlobals s (ps ++ qs) u where
  functions := second.functions.trans first.functions
  globals := by rw [second.globals,first.globals,map_append,reverse_append,List.append_assoc]
  documented := second.documented
  declared := Subset.trans first.declared second.declared
  vars := by rw [second.vars,first.vars,map_append,List.append_assoc]
  points := forall_mem_append.mpr ⟨fun p mem => (first.points p mem).mono second.declared,
    second.points⟩
  names := by rw [second.names,first.names,flatMap_append,List.append_assoc]
  decorations := by rw [second.decorations,first.decorations,flatMap_append,List.append_assoc]

theorem lowerGlobals_declare : ∀ {gs : List Global} {s s' : State} {a : Unit}, s.Documented →
    (gs.forM lowerGlobal).run s = .ok (a, s') →
      ∃ places, places.map Placed.global = gs ∧ DeclaresGlobals s places s'
  | [], s, s', a, start, ran => by
    cases ran
    exact ⟨[],rfl,rfl,rfl,start,Subset.refl _,by simp,by simp,by simp,by simp⟩
  | g :: gs, s, s', a, start, ran => by
    obtain ⟨_,t,ranFirst,ranRest⟩ := Lower.run_bind_eq_ok.mp ran
    obtain ⟨ptr,id,first⟩ := lowerGlobal_declares_global start ranFirst
    obtain ⟨places,rfl,others⟩ := lowerGlobals_declare first.documented ranRest
    exact ⟨⟨g,ptr,id⟩ :: places,rfl,first.trans others⟩

section Notes

theorem notesOn_flatMap {α : Type} {lines : α → List Instruction} {target : α → Id}
    (own : ∀ a, ∀ i ∈ lines a, i.operands.head? = some (target a)) {as : List α}
    (distinct : (as.map target).Nodup) {a : α} (mem : a ∈ as) :
    notesOn (as.flatMap lines) (target a) = notesOn (lines a) (target a) := by
  have other {b : α} (apart : target b ≠ target a) : notesOn (lines b) (target a) = [] := by
    rw [notesOn,map_eq_nil_iff,filter_eq_nil_iff]
    intro i here
    simp [isNoteOn,own b i here,apart]
  induction as with
  | nil => cases mem
  | cons b as ih =>
    rw [map_cons,nodup_cons] at distinct
    rw [flatMap_cons,notesOn_append]
    rcases mem_cons.mp mem with rfl | later
    · have none : notesOn (as.flatMap lines) (target a) = [] := by
        grind [notesOn,filter_eq_nil_iff,isNoteOn]
      rw [none,append_nil]
    grind

theorem notesOn_nameLines (p : Placed) : notesOn p.nameLines p.id =
    if p.global.name.isEmpty then [] else [⟨.debugName, encodeText p.global.name⟩] := by
  unfold Placed.nameLines
  split
  · rfl
  · simp [notesOn,isNoteOn,named]

theorem notesOn_decorationLines (p : Placed) : notesOn p.decorationLines p.id =
    (globalDecorations p.global).map fun (d, n) => ⟨.decorate, [.ofNat d.code, .ofNat n]⟩ := by
  unfold Placed.decorationLines notesOn
  generalize globalDecorations p.global = ds
  induction ds with
  | nil => rfl
  | cons d ds ih => simpa [isNoteOn] using ih

theorem findSome?_decorations (ds : List (Decoration × Nat)) (d : Decoration) :
    (ds.map fun (d, n) => (⟨.decorate, [.ofNat d.code, .ofNat n]⟩ : Note)).findSome? (Note.decoration? d) =
      (ds.lookup d).map UInt32.ofNat := by
  induction ds with
  | nil => rfl
  | cons e ds ih =>
    obtain ⟨e,n⟩ := e
    have small : (UInt32.ofNat e.code).toNat = e.code := by cases e <;> rfl
    by_cases same : d = e
    · subst same
      simp [Note.decoration?,small]
    · have other : (d == e) = false := beq_false_of_ne same
      have none : Note.decoration? d ⟨.decorate,[.ofNat e.code,.ofNat n]⟩ = none := by
        simp [Note.decoration?,small,Ne.symm same]
      rw [map_cons,findSome?_cons,none,lookup_cons,other]
      exact ih

end Notes

theorem noted {before after : List Note} {p : Placed} (none : before = [])
    (names : ∀ n ∈ after, n.op = .debugName) :
    Noted p.global (before ++ notesOn p.nameLines p.id ++ after ++ notesOn p.decorationLines p.id) := by
  subst none
  rw [notesOn_nameLines,notesOn_decorationLines,nil_append]
  refine ⟨fun named noZero => ?_,fun d => ?_⟩
  · have read : Note.name? ⟨.debugName,encodeText p.global.name⟩ = some p.global.name := by
      simp only [Note.name?,decodeText_encodeText_of_free noZero]
      rfl
    rw [if_neg (by simpa using named),singleton_append,cons_append,findSome?_cons,read]
  · have silent : ∀ n ∈ (if p.global.name.isEmpty then [] else
        [(⟨.debugName,encodeText p.global.name⟩ : Note)]) ++ after, Note.decoration? d n = none := by
      grind [Note.decoration?]
    rw [findSome?_append,findSome?_eq_none_iff.mpr silent,Option.none_or,findSome?_decorations]

theorem State.Tidy.notesOn_outside (tidy : s.Tidy)
    (silent : ∀ i ∈ about, i.op ≠ .debugName ∧ i.op ≠ .decorate) (x : Id) :
    notesOn (s.outside about) x = notesOn s.names.toList x ++ notesOn s.decorations.toList x := by
  have declared : notesOn s.decls.toList x = [] := by
    grind [notesOn_eq_nil,State.Tidy.decls,Opcode.isDeclaration,Opcode.isType]
  simp only [State.outside,notesOn_append,notesOn_eq_nil silent,declared,nil_append,append_nil]

theorem State.Tidy.vars_outside (tidy : s.Tidy) (silent : ∀ i ∈ about, i.op ≠ .var) :
    (s.outside about).filter (fun i => i.op == .var) =
      s.decls.toList.filter fun i => i.op == .var := by
  have names : s.names.toList.filter (fun i => i.op == .var) = [] :=
    vars_eq_nil fun i mem => by simp [(tidy.names i mem).1]
  have decorations : s.decorations.toList.filter (fun i => i.op == .var) = [] :=
    vars_eq_nil fun i mem => by simp [(tidy.decorations i mem).1]
  simp only [State.outside,filter_append,vars_eq_nil silent,names,decorations,nil_append]

/-- The globals are declared one after the other, and their names come after those of functions. -/
structure State.Places (s : State) (places : List Placed) : Prop where
  tidy : s.Tidy
  globals : s.globals = (places.map Placed.entry).reverse
  vars : s.decls.toList.filter (fun i => i.op == .var) = places.map Placed.line
  points : ∀ p ∈ places,
    Points s.decls.toList p.ptr (storageClass p.global.storage) p.global.ty
  names : ∃ first rest, s.names.toList = first ++ places.flatMap Placed.nameLines ++ rest ∧
    ∀ i ∈ first, i.operand 0 ∈ s.functions.map Prod.snd
  decorations : s.decorations.toList = places.flatMap Placed.decorationLines

theorem lowerCode_places (scoping : p.Scoped) (ran : (lowerCode p).run {} = .ok (code, s)) :
    ∃ places, places.map Placed.global = p.globals ∧ s.Places places := by
  obtain ⟨s₁,s₂,entry,id,-,ranNames,ranGlobals,ranFunctions,-⟩ := lowerCode_eq_ok ran
  obtain ⟨tidy₁,next,names,new,rfl,-⟩ := nameFunctions_run initial_tidy ranNames
  have tidy₂ := (forM_declares lowerGlobal_declares p.globals _ _ s₂ tidy₁ ranGlobals).tidy
  obtain ⟨places,globals,placed⟩ := lowerGlobals_declare ⟨⟨by simp,by simp⟩,by simp⟩ ranGlobals
  obtain ⟨rs,emitted,-⟩ := lowerFunctions_emit scoping Linked.mem_calleesFirst tidy₂ ranFunctions
  have continued := Adds.of_forM (Adds.lowerFunction p) _ s₂ _ s ranFunctions
  refine ⟨places,globals,emitted.tidy,?_,?_,fun q mem => (placed.points q mem).mono
    continued.declared,?_,?_⟩
  · rw [continued.globals,placed.globals]
    exact append_nil _
  · obtain ⟨new,declared,noVar⟩ := continued.decls
    rw [declared,filter_append,vars_eq_nil noVar,append_nil,placed.vars]
    rfl
  · obtain ⟨rest,more⟩ := continued.names
    refine ⟨names.toList,rest,by rw [← more,placed.names],fun i mem => ?_⟩
    have nameable := (tidy₁.names i mem).2
    rw [continued.functions,placed.functions]
    simpa [State.nameable,Pass.results] using nameable
  · rw [continued.decorations,placed.decorations]
    rfl

theorem State.Places.presents {places : List Placed} (placed : s.Places places)
    (silent : ∀ i ∈ about, i.op ≠ .debugName ∧ i.op ≠ .decorate)
    (distinct : (places.map Placed.id).Nodup)
    (apart : ∀ p ∈ places, p.id ∉ s.functions.map Prod.snd) {p : Placed} (mem : p ∈ places) :
    Presents (s.outside about) p.global p.line := by
  obtain ⟨first,rest,names,functions⟩ := placed.names
  refine ⟨p.ptr,p.id,rfl,(placed.points p mem).mono (subset_append_right _ _),?_⟩
  have before : notesOn first p.id = [] := by
    rw [notesOn,map_eq_nil_iff,filter_eq_nil_iff]
    intro i here note
    obtain ⟨ws,operands⟩ := head?_eq_some_iff.mp (isNote_of_isNoteOn note).2
    grind [operand_eq]
  have after : ∀ n ∈ notesOn rest p.id, n.op = .debugName := by
    intro n note
    obtain ⟨i,here,rfl⟩ := mem_map.mp note
    refine (placed.tidy.names i ?_).1
    rw [names]
    exact mem_append_right _ (mem_filter.mp here).1
  rw [placed.tidy.notesOn_outside silent,names,placed.decorations,notesOn_append,notesOn_append,
    notesOn_flatMap Placed.head?_nameLines distinct mem,
    notesOn_flatMap Placed.head?_decorationLines distinct mem]
  exact noted before after

theorem lower_presents (scoping : p.Scoped) {m : Module} (lowered : (lower p).Gives m) {t : Outline}
    {h : Header} (decoded : decode m = .ok (h, t.code)) (shaped : t.Shaped) (valid : t.Valid) :
    Forall₂ (Presents t.outside) p.globals (t.outside.filter fun i => i.op == .var) := by
  obtain ⟨code,s,ranCode,assembled,-⟩ := lower_ran lowered
  have current : (Header.new p.stage s.nextId).Current := rfl
  obtain ⟨-,same,-⟩ := (decode_assemble current assembled).mp decoded
  obtain ⟨places,globals,placed⟩ := lowerCode_places scoping ranCode
  obtain ⟨entry,rs,-,rfl,-,defined,shaped',-⟩ := lowerCode_outline scoping ranCode
  obtain rfl : t = ⟨s.outside (aboutProgram p entry),rs⟩ := by
    have first := shaped.ofCode?_code
    rw [same,shaped'.ofCode?_code] at first
    exact (Option.some.inj first).symm
  have ops := aboutProgram_ops p entry
  have silent : ∀ i ∈ aboutProgram p entry, i.op ≠ .debugName ∧ i.op ≠ .decorate := fun i mem => by
    rcases ops i mem with op | op | op <;> simp [op]
  have noVar : ∀ i ∈ aboutProgram p entry, i.op ≠ .var := fun i mem => by
    rcases ops i mem with op | op | op <;> simp [op]
  have vars := placed.tidy.vars_outside noVar
  rw [placed.vars] at vars
  have ids : (places.map Placed.id).Sublist (Pass.results (s.outside (aboutProgram p entry))) := by
    have own : Pass.results (places.map Placed.line) = places.map Placed.id := by
      rw [Pass.results,filterMap_map,← filterMap_eq_map]
      rfl
    rw [← own,← vars]
    exact Sublist.filterMap _ filter_sublist
  obtain ⟨uniqueOutside,-,apart⟩ := nodup_append.mp (results_append _ _ ▸ valid.unique)
  have functions : ∀ q ∈ places, q.id ∉ s.functions.map Prod.snd := by
    grind [mem_map_of_mem,Bytecode.mem_results,Routine.code]
  grind [forall₂_map_left_iff,forall₂_map_right_iff,forall₂_same,State.Places.presents]

end Shading.Lowering
