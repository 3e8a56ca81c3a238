import Shading.Proofs.Emission.Types

/-! The variables of a module in its tables: which they are, in which order, and what was said of their
types, names and decorations. -/
namespace Shading.Emission
open List Bytecode Pass

variable {α : Type} {f : Function}

namespace Tables

variable {t t' : Tables} {i : Instruction} {code : List Instruction}

section Notes

variable {x : Id}

theorem findSome?_congr {f g : Instruction → Option α} (same : ∀ i ∈ code, f i = g i) :
    code.findSome? f = code.findSome? g := by
  induction code with
  | nil => rfl
  | cons i code ih =>
    rw [forall_mem_cons] at same
    rw [findSome?_cons,findSome?_cons,same.1,ih same.2]

theorem findSome?_notesOn (tells : Note → Option α) : (notesOn code x).findSome? tells =
    code.findSome? fun i => if i.isNoteOn x = true then tells ⟨i.op, i.operands.tail⟩ else none := by
  induction code with
  | nil => rfl
  | cons i code ih =>
    grind [notesOn]

theorem lookup_filterMap_eq (said : Instruction → Option (Id × α)) :
    (code.filterMap said).lookup x =
      code.findSome? fun i => (said i).bind fun e => if x = e.1 then some e.2 else none := by
  induction code with
  | nil => rfl
  | cons i code ih =>
    grind

theorem Lists.names_lookup (lists : Lists code t) :
    t.names.lookup x = (notesOn code x).findSome? Note.name? := by
  rw [lists.names,lookup_filterMap_eq,findSome?_notesOn]
  refine findSome?_congr fun i _ => ?_
  by_cases op : i.op = .debugName
  · obtain ⟨_,operands⟩ := i
    subst op
    cases operands with
    | nil => rfl
    | cons y ws =>
      have said : naming? ⟨.debugName,y :: ws⟩ = (decodeText ws).toOption.map fun s => (y, s) := rfl
      grind [Note.name?,decodeText,Except.toOption,Instruction.isNoteOn]
  · simp [naming?_of_ne op,Note.name?,op]

theorem Lists.decoration?_eq (lists : Lists code t) (full : ∀ i ∈ code, i.Full) (d : Decoration) :
    t.decoration? x d = (notesOn code x).findSome? (Note.decoration? d) := by
  have first : t.decoration? x d = code.findSome? fun i => (decorating? i).bind fun e =>
      if e.1 = x ∧ e.2.1 = d then some e.2.2 else none := by
    rw [decoration?,lists.decorations]
    clear lists full
    induction code with
    | nil => rfl
    | cons i code ih =>
      grind
  rw [first,findSome?_notesOn]
  refine findSome?_congr fun i mem => ?_
  by_cases op : i.op = .decorate
  · have long : 0 < i.operands.length := Nat.lt_of_lt_of_le (by rw [op]; decide) (full i mem)
    obtain ⟨_,operands⟩ := i
    subst op
    cases operands with
    | nil => cases long
    | cons y ws =>
      have said : decorating? ⟨.decorate,y :: ws⟩ =
          (Decoration.ofCode? (ws.getD 0 0).toNat).map fun d => (y, d, ws.getD 1 0) := by
        simp only [decorating?,Instruction.operand_eq]
        rfl
      have told : Note.decoration? d ⟨.decorate,ws⟩ =
          if Decoration.ofCode? (ws.getD 0 0).toNat = some d then some (ws.getD 1 0) else none := by
        simp [Note.decoration?]
      rw [said,tail_cons,told]
      cases Decoration.ofCode? (ws.getD 0 0).toNat with
      | none => simp
      | some e =>
        by_cases same : y = x
        · simp [Instruction.isNoteOn,same]
        · simp [Instruction.isNoteOn,same]
  · simp [decorating?,Note.decoration?,op]

end Notes

section Pointees

theorem lookup_filterMap {said : Instruction → Option (Id × α)}
    (own : ∀ i ∈ code, ∀ e ∈ said i, i.result? = some e.1) (unique : (results code).Nodup)
    {e : Id × α} (mem : i ∈ code) (here : said i = some e) :
    (code.filterMap said).reverse.lookup e.1 = some e.2 := by
  have keys : ((code.filterMap said).map Prod.fst).Sublist (results code) := by
    clear unique mem
    induction code with
    | nil => exact .slnil
    | cons i code ih =>
      rw [forall_mem_cons] at own
      have rest := ih own.2
      cases spoken : said i with
      | none =>
        rw [filterMap_cons_none spoken,results_cons]
        exact rest.trans (sublist_append_right _ _)
      | some e =>
        rw [filterMap_cons_some spoken,results_cons,own.1 e spoken]
        exact rest.cons_cons e.1
  have distinct : ((code.filterMap said).reverse.map Prod.fst).Nodup := by
    rw [map_reverse,nodup_reverse]
    exact unique.sublist keys
  have inside : e ∈ (code.filterMap said).reverse :=
    mem_reverse.mpr (mem_filterMap.mpr ⟨i,mem,here⟩)
  generalize (code.filterMap said).reverse = table at distinct inside
  induction table with
  | nil => cases inside
  | cons e' table ih =>
    rw [map_cons,nodup_cons] at distinct
    rw [lookup_cons]
    rcases mem_cons.mp inside with rfl | later
    · simp
    grind

theorem result?_of_typing? {e : Id × Id} (said : typing? i = some e) : i.result? = some e.1 := by
  unfold typing? at said
  split at said
  · cases said
    assumption
  · cases said

theorem result?_of_pointing? (full : i.Full) {e : Id × Id} (said : pointing? i = some e) :
    i.result? = some e.1 := by
  unfold pointing? at said
  split at said
  · rename_i op
    cases said
    exact result?_of_isType full (by rw [op]; rfl)
  · cases said

theorem Settled.pointee_of_points (settled : Settled code t) (lists : Lists code t)
    (full : ∀ i ∈ code, i.Full) (unique : (results code).Nodup) {ptr id : Id} {w : UInt32}
    {storage : StorageClass} {ty : Ty} (mem : ⟨.var, [ptr, id, w]⟩ ∈ code)
    (points : Points code ptr storage ty) (fits : ty.Fits) : t.pointee id = .ok ty := by
  obtain ⟨e,declared,denotes⟩ := points
  have typed : t.resultTypes.lookup id = some ptr := by
    rw [lists.resultTypes]
    exact lookup_filterMap (e := (id, ptr)) (fun i _ e said => result?_of_typing? said) unique mem rfl
  have pointed : t.pointers.lookup ptr = some e := by
    rw [lists.pointers]
    exact lookup_filterMap (e := (ptr, e)) (fun i mem e said => result?_of_pointing? (full i mem) said)
      unique declared rfl
  rw [pointee,typed,Option.bind_some,pointed]
  exact ty_eq_ok.mpr (settled.lookup_of_denotes denotes fits)

end Pointees

section Outlines

/-- The variable of the instruction with its storage. -/
def Declares (i : Instruction) (g : Id × StorageClass) : Prop :=
  g.1 = i.operand 1 ∧ StorageClass.ofCode? (i.operand 2).toNat = some g.2

theorem foldlM_scan_outside (outside : ∀ i ∈ code, i.op.isOutside = true) (start : t.current = none)
    (ran : code.foldlM scan t = .ok t') : ∃ gs, t'.globals = t.globals ++ gs ∧
      Forall₂ Declares (code.filter fun i => i.op == .var) gs := by
  induction code generalizing t with
  | nil =>
    cases ran
    exact ⟨[],by simp,.nil⟩
  | cons i code ih =>
    rw [forall_mem_cons] at outside
    rw [foldlM_cons] at ran
    obtain ⟨t₁,scanned,ran⟩ := Except.bind_eq_ok.mp ran
    cases scan_scanned scanned with
    | opens op => rw [op] at outside; cases outside.1
    | param op => rw [op] at outside; cases outside.1
    | closes op => rw [op] at outside; cases outside.1
    | @other l _ _ _ learned =>
      have current : (l.addToBody i).current = none := by
        simp [addToBody,learned.current,typed,start]
      obtain ⟨gs,globals,declared⟩ := ih outside.2 current ran
      have said : ∃ new, l.globals = t.globals ++ new ∧
          Forall₂ Declares ([i].filter fun i => i.op == .var) new := by
        rcases learned.globals with ⟨same,noGlobal⟩ | ⟨op,-,storage,known,more⟩
        · have noVar : i.op ≠ .var := fun op => noGlobal op start
          refine ⟨[],by rw [same,append_nil]; rfl,?_⟩
          rw [filter_cons_of_neg (by simpa using noVar)]
          exact .nil
        · refine ⟨[(i.operand 1, storage)],more,?_⟩
          rw [filter_cons_of_pos (by simpa using op)]
          exact .cons ⟨rfl,known⟩ .nil
      obtain ⟨new,own,here⟩ := said
      have globals : t'.globals = t.globals ++ (new ++ gs) := by
        rw [globals,← List.append_assoc,← own]
        rfl
      refine ⟨new ++ gs,globals,?_⟩
      rw [← singleton_append,filter_append]
      exact rel_append here declared

theorem Scanned.globals_of_inside (scanned : Scanned t i t') (start : t.current ≠ none) :
    t'.globals = t.globals := by
  cases scanned with
  | opens | param | closes => rfl
  | other _ _ _ learned =>
    rcases learned.globals with ⟨same,-⟩ | ⟨-,outside,-⟩
    · exact same
    · exact absurd outside start

theorem Scanned.stays_inside (scanned : Scanned t i t') (start : t.current ≠ none)
    (open_ : i.op ≠ .functionEnd) : t'.current ≠ none := by
  cases scanned with
  | opens | param => simp
  | closes op => exact absurd op open_
  | other _ _ _ learned => simpa [addToBody,learned.current,typed] using start

/-- The variables of a function are not those of the module. -/
theorem foldlM_scan_inside (inside : ∀ i ∈ code, i.op ≠ .functionEnd) (start : t.current ≠ none)
    (ran : (code ++ [(⟨.functionEnd, []⟩ : Instruction)]).foldlM scan t = .ok t') : t'.globals = t.globals := by
  induction code generalizing t with
  | nil =>
    rw [nil_append,foldlM_cons] at ran
    obtain ⟨_,scanned,done⟩ := Except.bind_eq_ok.mp ran
    cases done
    exact (scan_scanned scanned).globals_of_inside start
  | cons i code ih =>
    rw [forall_mem_cons] at inside
    rw [cons_append,foldlM_cons] at ran
    obtain ⟨t₁,scanned,ran⟩ := Except.bind_eq_ok.mp ran
    have first := scan_scanned scanned
    exact (ih inside.2 (first.stays_inside start inside.1) ran).trans (first.globals_of_inside start)

theorem foldlM_scan_routine {r : Routine} (shaped : r.Shaped) (ran : r.code.foldlM scan t = .ok t') :
    t'.globals = t.globals := by
  rw [Routine.code,cons_append,foldlM_cons] at ran
  obtain ⟨t₁,scanned,ran⟩ := Except.bind_eq_ok.mp ran
  have opened : t₁.globals = t.globals ∧ t₁.current ≠ none := by
    cases scan_scanned scanned with
    | opens => exact ⟨rfl,by simp⟩
    | param op => cases shaped.head.symm.trans op
    | closes op => cases shaped.head.symm.trans op
    | other opens => exact absurd shaped.head opens
  refine (foldlM_scan_inside (fun i mem op => ?_) opened.2 ran).trans opened.1
  rcases mem_append.mp mem with param | body
  · cases (shaped.params i param).symm.trans op
  · have isBody := shaped.body.isBody i body
    rw [op] at isBody
    cases isBody

theorem foldlM_scan_routines {rs : List Routine} (shaped : ∀ r ∈ rs, r.Shaped)
    (ran : (rs.flatMap Routine.code).foldlM scan t = .ok t') : t'.globals = t.globals := by
  induction rs generalizing t with
  | nil =>
    cases ran
    rfl
  | cons r rs ih =>
    rw [forall_mem_cons] at shaped
    rw [flatMap_cons,foldlM_append] at ran
    obtain ⟨t₁,ranFirst,ranRest⟩ := Except.bind_eq_ok.mp ran
    exact (ih shaped.2 ranRest).trans (foldlM_scan_routine shaped.1 ranFirst)

theorem scan_outline {o : Outline} (shaped : o.Shaped) (ran : o.code.foldlM scan {} = .ok t) :
    Forall₂ Declares (o.outside.filter fun i => i.op == .var) t.globals := by
  rw [Outline.code,foldlM_append] at ran
  obtain ⟨t₁,ranOutside,ranRoutines⟩ := Except.bind_eq_ok.mp ran
  obtain ⟨gs,globals,declared⟩ := foldlM_scan_outside shaped.outside rfl ranOutside
  rw [foldlM_scan_routines shaped.routines ranRoutines,globals]
  exact declared

end Outlines

end Tables

end Shading.Emission
