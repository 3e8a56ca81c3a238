import Shading.Proofs.Emission.Document
import Shading.Proofs.Emission.Naming

/-! The names of a module: those of its variables and functions, and those in each function. They never
clash if ids are told apart and no name that readers know is the own name of an id. -/
namespace Shading.Emission
open List Bytecode Pass Tables

variable {d : Document}

section Chosen

variable {all done : List Id} {id : Id} {used : List String} {known : Option String} {entered : Prop}

/-- What holds of the names that are taken for the ids `done`. The entry may be among them. -/
structure Chosen (all : List Id) (entered : Prop) (done : List Id) (used : List String) : Prop where
  nodup : used.Nodup
  own : ∀ k ∈ all, ownName k ∈ used → k ∈ done
  reserved : ∀ n ∈ used, n = "main" ∨ Target.isReserved n = false
  main : "main" ∈ used → entered

theorem main_isReserved : Target.isReserved "main" = true := by decide

theorem Chosen.start : Chosen all False [] [] :=
  ⟨.nil,by simp,by simp,by simp⟩

section

variable (chosen : Chosen all entered done used)
include chosen

theorem Chosen.fresh (inside : id ∈ all) (new : id ∉ done)
    (apart : ∀ name, known = some name → ∀ k ∈ all, name ≠ ownName k) :
    Chosen all entered (id :: done) (freshName used id known :: used) where
  nodup := nodup_cons.mpr
    ⟨freshName_not_mem fun taken => new (chosen.own id inside taken),chosen.nodup⟩
  own := by
    grind [freshName_eq_ownName,Chosen.own]
  reserved := by
    grind [freshName_not_isReserved,Chosen.reserved]
  main := by
    grind [freshName_not_isReserved,main_isReserved,Chosen.main]

theorem Chosen.takeMain (id : Id) (new : ¬entered) : Chosen all True (id :: done) ("main" :: used) where
  nodup := nodup_cons.mpr ⟨fun taken => new (chosen.main taken),chosen.nodup⟩
  own := by
    intro k mem taken
    rcases mem_cons.mp taken with same | old
    · have chars := congrArg String.toList same
      rw [toList_ownName] at chars
      cases chars
    · exact mem_cons_of_mem _ (chosen.own k mem old)
  reserved := by
    intro n mem
    rcases mem_cons.mp mem with rfl | old
    · exact .inl rfl
    · exact chosen.reserved n old
  main := fun _ => trivial

theorem Chosen.skip (id : Id) : Chosen all entered (id :: done) used :=
  ⟨chosen.nodup,fun k mem taken => mem_cons_of_mem _ (chosen.own k mem taken),chosen.reserved,chosen.main⟩

end

end Chosen

def Outer.name? : Outer → Option String
  | .global g => some g.name
  | .invariant _ => none

def Document.names (d : Document) : List String :=
  d.outer.filterMap Outer.name? ++ d.functions.map FunctionText.name

/-- The entry is called main. No other function has a name that is kept, as this one is. -/
def Heads (entry : Id) (f : Function) (name : String) : Prop :=
  if f.id = entry then name = "main" else Target.isReserved name = false

/-- The names of a text never clash, and of those that languages keep it has only that of its entry. -/
structure Document.Apart (d : Document) (t : Tables) (entry : Id) : Prop where
  outer : d.names.Nodup
  globals : ∀ n ∈ d.outer.filterMap Outer.name?, Target.isReserved n = false
  functions : Forall₂ (fun f text => Heads entry f text.name) t.functions d.functions
  inner : ∀ f ∈ d.functions, (f.names ++ d.names).Nodup ∧ ∀ n ∈ f.names, Target.isReserved n = false

namespace Context

variable {c : Context} {all done : List Id} {g g' : Globals} {used : List String}

theorem addGlobal_chosen {global : Id × StorageClass} (chosen : Chosen all False done g.used)
    (inside : global.1 ∈ all) (new : global.1 ∉ done)
    (apart : ∀ name, c.tables.names.lookup global.1 = some name → ∀ k ∈ all, name ≠ ownName k)
    (written : (g.lines.filterMap Outer.name?).Perm g.used) (added : c.addGlobal g global = .ok g') :
    Chosen all False (global.1 :: done) g'.used ∧ (g'.lines.filterMap Outer.name?).Perm g'.used := by
  obtain ⟨id,storage⟩ := global
  unfold addGlobal at added
  obtain ⟨ty,-,added⟩ := Except.bind_eq_ok.mp added
  split at added
  case h_1 code builtin =>
    obtain ⟨v,-,added⟩ := Except.bind_eq_ok.mp added
    obtain ⟨_,-,added⟩ := Except.bind_eq_ok.mp added
    split at added
    case h_1 g₁ name line chose =>
    have bare : (if (c.decoration? id .invariant).isSome then [Outer.invariant name] else []).filterMap
        Outer.name? = [] := by
      split <;> rfl
    cases added
    split at chose
    case isTrue =>
      cases chose
      refine ⟨chosen.fresh inside new ?_,?_⟩
      · rintro _ ⟨⟩ k - same
        have chars := congrArg String.toList same
        rw [toList_ownName] at chars
        cases chars
      · simpa [Globals.add,Globals.use,Outer.name?,bare] using
          (perm_append_singleton _ _).trans (written.cons _)
    case isFalse =>
      cases chose
      exact ⟨chosen.skip id,by simpa [Globals.add,bare] using written⟩
  case h_2 =>
    split at added
    case isTrue =>
      obtain ⟨term,-,added⟩ := Except.bind_eq_ok.mp added
      cases added
      exact ⟨chosen.skip id,by simpa [Globals.add] using written⟩
    case isFalse =>
      obtain ⟨line,made,added⟩ := Except.bind_eq_ok.mp added
      cases added
      grind [Chosen.fresh,globalLine_eq_ok,Globals.add,Globals.use,Outer.name?]

theorem globals_chosen (inside : c.tables.globals.map Prod.fst ⊆ all)
    (distinct : (c.tables.globals.map Prod.fst).Nodup)
    (apart : ∀ id name, c.tables.names.lookup id = some name → ∀ k ∈ all, name ≠ ownName k)
    (made : c.globals = .ok g) : Chosen all False (c.tables.globals.map Prod.fst).reverse g.used ∧
      (g.lines.filterMap Outer.name?).Perm g.used := by
  have run : ∀ (globals : List (Id × StorageClass)) (done : List Id) (g₀ : Globals),
      Chosen all False done g₀.used → (g₀.lines.filterMap Outer.name?).Perm g₀.used →
      globals.map Prod.fst ⊆ all → (globals.map Prod.fst ++ done).Nodup →
      globals.foldlM c.addGlobal g₀ = .ok g →
      Chosen all False ((globals.map Prod.fst).reverse ++ done) g.used ∧
        (g.lines.filterMap Outer.name?).Perm g.used := by
    intro globals
    induction globals with
    | nil =>
      intro done g₀ chosen written _ _ ran
      cases ran
      exact ⟨chosen,written⟩
    | cons global globals ih =>
      intro done g₀ chosen written inside distinct ran
      rw [foldlM_cons] at ran
      obtain ⟨g₁,added,ran⟩ := Except.bind_eq_ok.mp ran
      rw [map_cons,cons_subset] at inside
      rw [map_cons,cons_append,nodup_cons] at distinct
      obtain ⟨chosen₁,written₁⟩ := addGlobal_chosen chosen inside.1
        (fun mem => distinct.1 (mem_append_right _ mem)) (apart global.1) written added
      have again := ih (global.1 :: done) g₁ chosen₁ written₁ inside.2
        (perm_middle.nodup_iff.mpr (nodup_cons.mpr distinct)) ran
      simpa using again
  simpa using run c.tables.globals [] {} .start (by simp) inside (by simpa using distinct) made

theorem assignFunctionNames_chosen {fs : List Function} {entered : Prop}
    (chosen : Chosen all entered done used) (once : entered → c.entry ∉ fs.map Function.id)
    (inside : fs.map Function.id ⊆ all) (distinct : (fs.map Function.id ++ done).Nodup)
    (apart : ∀ id name, c.tables.names.lookup id = some name → ∀ k ∈ all, name ≠ ownName k) :
    let (named, used') := c.assignFunctionNames used fs
    Chosen all True ((fs.map Function.id).reverse ++ done) used' ∧ named.map Prod.snd = fs ∧
      used' = (named.map Prod.fst).reverse ++ used ∧ ∀ p ∈ named, Heads c.entry p.2 p.1 := by
  induction fs generalizing used done entered with
  | nil => exact ⟨{ chosen with main := fun _ => trivial },rfl,rfl,by simp⟩
  | cons f fs ih =>
    rw [map_cons,cons_subset] at inside
    rw [map_cons,cons_append,nodup_cons] at distinct
    have new : f.id ∉ done := fun mem => distinct.1 (mem_append_right _ mem)
    have next : Chosen all (entered ∨ f.id = c.entry) (f.id :: done)
        ((if f.id = c.entry then "main" else freshName used f.id (c.tables.names.lookup f.id)) :: used) := by
      split
      case isTrue same =>
        have first : ¬entered := fun old => once old (by simp [same])
        exact { chosen.takeMain f.id first with main := fun _ => .inr same }
      case isFalse =>
        have fresh := chosen.fresh inside.1 new (apart f.id)
        exact { fresh with main := fun taken => .inl (fresh.main taken) }
    have once' : entered ∨ f.id = c.entry → c.entry ∉ fs.map Function.id := by
      rintro (old | same) mem
      · exact once old (.tail _ mem)
      · exact distinct.1 (mem_append_left _ (same ▸ mem))
    obtain ⟨chosen',functions,used',heads⟩ := ih next once' inside.2
      (perm_middle.nodup_iff.mpr (nodup_cons.mpr distinct))
    refine ⟨by simpa [assignFunctionNames] using chosen',by simp [functions],by simp [used'],?_⟩
    refine forall_mem_cons.mpr ⟨?_,heads⟩
    grind [Heads,freshName_not_isReserved]

theorem Writes.name {names : Table String} {f : String × Function} {text : FunctionText}
    (writes : c.Writes g used names f text) : text.name = f.1 := by
  obtain ⟨w,ran⟩ := writes
  obtain ⟨_,_,_,_,_,_,_,_,_,rfl⟩ := writeFunction_run ran
  rfl

/-- The names in a document never clash, if the ids that they are taken for are told apart. -/
theorem document_names
    (distinct : (c.tables.globals.map Prod.fst ++
      (c.tables.functions.map Function.id ++ c.tables.functions.flatMap innerIds)).Nodup)
    (within : c.tables.globals.map Prod.fst ++
      (c.tables.functions.map Function.id ++ c.tables.functions.flatMap innerIds) ⊆ all)
    (apart : ∀ id name, c.tables.names.lookup id = some name → ∀ k ∈ all, name ≠ ownName k)
    (admits : ∀ f ∈ c.tables.functions, ∀ i ∈ f.body,
      Filled i ∧ (i.op = .var →
        c.tables.constants.lookup (i.operand 1) = none ∧ c.tables.composites.lookup (i.operand 1) = none))
    (made : c.document = .ok d) : d.Apart c.tables c.entry := by
  obtain ⟨g,declared,outer,written⟩ := document_eq_ok made
  obtain ⟨globalsDistinct,restDistinct,globalsApart⟩ := nodup_append.mp distinct
  obtain ⟨functionsDistinct,innerDistinct,functionsApart⟩ := nodup_append.mp restDistinct
  rw [append_subset,append_subset] at within
  obtain ⟨before,lines⟩ := globals_chosen within.1 globalsDistinct apart declared
  have named := assignFunctionNames_chosen before False.elim within.2.1 (by
      refine nodup_append.mpr ⟨functionsDistinct,nodup_reverse.mpr globalsDistinct,?_⟩
      intro a mem b mem' same
      exact globalsApart b (mem_reverse.mp mem') a (mem_append_left _ mem) same.symm) apart
  generalize assigned : c.assignFunctionNames g.used c.tables.functions = pair at written named
  obtain ⟨functions,used⟩ := pair
  obtain ⟨chosen,same,usedEq,heads⟩ := named
  -- the names of the document are those that are taken before any body is written
  have taken : d.names.Perm used := by
    have names : functions.map Prod.fst = d.functions.map FunctionText.name := by
      rw [← forall₂_eq_eq_eq,forall₂_map_left_iff,forall₂_map_right_iff]
      exact written.imp fun _ _ writes => writes.name.symm
    rw [Document.names,outer,← names,usedEq]
    exact perm_append_comm.trans ((reverse_perm _).symm.append lines)
  refine ⟨taken.nodup_iff.mpr chosen.nodup,fun n mem => ?_,?_,fun text mem => ?_⟩
  · rw [outer,lines.mem_iff] at mem
    exact (before.reserved n mem).resolve_left fun main => before.main (main ▸ mem)
  · rw [← same,forall₂_map_left_iff]
    refine ((forall₂_and_left _ _).mpr ⟨heads,written⟩).imp fun _ _ both => ?_
    rw [both.2.name]
    exact both.1
  obtain ⟨⟨name,f⟩,memF,w,ran⟩ := exists_of_forall₂ written.flip mem
  have memF' : f ∈ c.tables.functions := same ▸ mem_map_of_mem memF
  have inner : innerIds f ⊆ c.tables.functions.flatMap innerIds :=
    fun k mem => mem_flatMap.mpr ⟨f,memF',mem⟩
  obtain ⟨nodup,reserved⟩ := writeFunction_names (s := c.scene g (callees functions) f)
    (fun id name known k mem => apart id name known k (within.2.2 (inner mem)))
    ((nodup_flatMap.mp innerDistinct).1 f memF')
    (by
      intro k mem takenK
      have done := chosen.own k (within.2.2 (inner mem)) takenK
      rcases mem_append.mp done with isFunction | isGlobal
      · exact functionsApart k (mem_reverse.mp isFunction) k (inner mem) rfl
      · exact globalsApart k (mem_reverse.mp isGlobal) k (mem_append_right _ (inner mem)) rfl)
    (admits f memF') chosen.nodup ran
  exact ⟨((taken.append_left _).nodup_iff).mpr nodup,reserved⟩

end Context

def Apart (code : List Instruction) : Prop :=
  ∀ i ∈ code, ∀ name ∈ i.text?, ∀ k ∈ results code, name ≠ ownName k

instance (code : List Instruction) : Decidable (Apart code) :=
  -- The results of the code are searched, not all ids.
  decidable_of_iff (code.all fun i => i.text?.all fun name => (results code).all (name != ownName ·)) (by
    simp [Apart, Option.all_eq_true])

section Tables

variable {code : List Instruction} {t : Tables}

theorem Apart.lookup (apart : Apart code) (ran : code.foldlM scan {} = .ok t) {id : Id}
    {name : String} (known : t.names.lookup id = some name) : ∀ k ∈ results code, name ≠ ownName k := by
  obtain ⟨l₁,l₂,parts,-⟩ := lookup_eq_some_iff.mp known
  have mem : (id, name) ∈ code.filterMap naming? := by
    rw [← (scan_lists ran).names,parts]
    simp
  obtain ⟨i,inside,said⟩ := mem_filterMap.mp mem
  obtain ⟨_,isText,⟨⟩⟩ := Option.map_eq_some_iff.mp said
  exact apart i inside name isText

theorem noConstant_of_var (unique : (results code).Nodup) (full : ∀ i ∈ code, i.Full)
    (ran : code.foldlM scan {} = .ok t) {i : Instruction} (inside : i ∈ code) (var : i.op = .var) :
    t.constants.lookup (i.operand 1) = none ∧ t.composites.lookup (i.operand 1) = none := by
  -- a constant of that id would be another instruction with the same result
  have other {d : Instruction} (mem : d ∈ code) (typed : d.op.hasResultType = true) (ne : d.op ≠ .var) :
      d.operand 1 ≠ i.operand 1 := by
    intro same
    have result : i.result? = some (i.operand 1) := result?_of_full (full i inside) (by rw [var]; rfl)
    have result' := result?_of_full (full d mem) typed
    rw [same] at result'
    exact ne (eq_of_result unique mem inside result' result ▸ var)
  constructor
  · rw [lookup_eq_none_iff]
    intro p mem
    obtain ⟨d,inside,op,key⟩ := scan_constants ran p mem
    simpa [← key] using (other inside (by rw [op]; rfl) (by simp [op])).symm
  · rw [lookup_eq_none_iff,(scan_lists ran).composites]
    intro p mem
    obtain ⟨d,inside,said⟩ := mem_filterMap.mp (mem_reverse.mp mem)
    unfold composing? at said
    split at said
    case isTrue op =>
      cases said
      simpa using (other inside (by rw [op]; rfl) (by simp [op])).symm
    case isFalse => cases said

end Tables

theorem document_names {m : Module} {target : Target} {code : List Instruction}
    (decoded : m.instructions = .ok code) (unique : (results code).Nodup) (apart : Apart code)
    (made : document m target = .ok d) :
    ∃ t entry, ofCode target code = .ok (t, entry) ∧ d.Apart t entry := by
  obtain ⟨stage,_,t,entry,decoded',scanned,made⟩ := document_eq_ok made
  cases decoded.symm.trans decoded'
  have ran := ofCode_scanned scanned
  have full := Module.full_of_instructions decoded
  have sub := scan_defined full ran
  have distinct : t.defined.Nodup := nodup_of_subperm unique sub
  have spoken : ∀ id name, t.names.lookup id = some name → ∀ k ∈ results code, name ≠ ownName k :=
    fun _ _ known => apart.lookup ran known
  -- ids of variables, of functions, and of what is in functions
  have parts : (t.globals.map Prod.fst ++ (t.functions.map Function.id ++
      t.functions.flatMap innerIds)).Subperm t.defined := by
    refine ((perm_functionIds t.functions).symm.append_left _).subperm.trans ?_
    rw [defined,met,flatMap_append,← List.append_assoc]
    exact (sublist_append_left _ _).subperm
  have inBody {f : Function} (mem : f ∈ t.functions) : f.body ⊆ code :=
    scan_bodies ran f (mem_append_left _ mem)
  exact ⟨t,entry,scanned,Context.document_names (c := ⟨target,stage,t,entry⟩)
    (nodup_of_subperm distinct parts) (parts.trans sub).subset spoken
    (fun f mem i memI => ⟨result?_of_full (full i (inBody mem memI)),
      noConstant_of_var unique full ran (inBody mem memI)⟩) made⟩

/-- The names that a text gives never clash. -/
theorem emitted_names_distinct {m : Module} {version : Nat} {es : Bool} {code : List Instruction}
    {text : String} (decoded : m.instructions = .ok code) (unique : (results code).Nodup)
    (apart : Apart code) (emitted : (emit m version es).Gives text) :
    ∃ target d, Target.select version es = .ok target ∧ document m target = .ok d ∧ text = d.text ∧
      ∃ t entry, ofCode target code = .ok (t, entry) ∧ d.Apart t entry := by
  obtain ⟨target,d,selected,made,same⟩ := emit_gives_iff.mp emitted
  exact ⟨target,d,selected,made,same,document_names decoded unique apart made⟩

namespace Sample

def moduleOf (code : List Instruction) : Module :=
  ⟨Header.words ⟨Header.currentVersion, 0, 10, .fragment⟩ ++ code.flatMap Instruction.words⟩

/-- A variable, and a function that keeps what it holds under a name of its own. -/
def codeWith (names : List Instruction) (body : List Instruction) : List Instruction :=
  ⟨.entryPoint, [6]⟩ :: names ++ [⟨.typeVoid, [1]⟩, ⟨.typeFloat, [2]⟩, ⟨.typePointer, [4, 3, 2]⟩,
    ⟨.var, [4, 3, 3]⟩, ⟨.typeFunction, [5, 1]⟩, ⟨.function, [1, 6, 5]⟩] ++ body ++
    [⟨.ret, []⟩, ⟨.functionEnd, []⟩]

def body : List Instruction := [⟨.load, [2, 9, 3]⟩, ⟨.store, [3, 9]⟩, ⟨.store, [3, 9]⟩]

end Sample

theorem made_of_any {code : List Instruction} {test : Document → Bool}
    (made : (document (Sample.moduleOf code) ⟨300, true⟩).toOption.any test = true) :
    ∃ d, document (Sample.moduleOf code) ⟨300, true⟩ = .ok d ∧ test d = true := by
  cases ran : document (Sample.moduleOf code) ⟨300,true⟩ with
  | error e => simp [ran,Except.toOption] at made
  | ok d => exact ⟨d,rfl,by simpa [ran,Except.toOption] using made⟩

theorem reserved_name_avoided :
    let code := Sample.codeWith [.named 3 "main"] Sample.body
    (Sample.moduleOf code).instructions = .ok code ∧ (results code).Nodup ∧ Apart code ∧
      ∃ text target d, (emit (Sample.moduleOf code) 300 true).Gives text ∧
        Target.select 300 true = .ok target ∧ document (Sample.moduleOf code) target = .ok d ∧
        text = d.text ∧ ∃ t entry, ofCode target code = .ok (t, entry) ∧ d.Apart t entry := by
  intro code
  have decoded : (Sample.moduleOf code).instructions = .ok code := by cbv
  have unique : (results code).Nodup := by decide
  have apart : Apart code := by decide
  obtain ⟨d,made,-⟩ : ∃ d, document (Sample.moduleOf code) ⟨300,true⟩ = .ok d ∧ true = true :=
    made_of_any (by cbv)
  have emitted : (emit (Sample.moduleOf code) 300 true).Gives d.text :=
    emit_gives_iff.mpr ⟨⟨300,true⟩,d,rfl,made,rfl⟩
  obtain ⟨target,d',rest⟩ := emitted_names_distinct decoded unique apart emitted
  exact ⟨decoded,unique,apart,d.text,target,d',emitted,rest⟩

def Clashes (m : Module) : Prop :=
  ∃ text target d, (emit m 300 true).Gives text ∧ Target.select 300 true = .ok target ∧
    document m target = .ok d ∧ text = d.text ∧ ∃ f ∈ d.functions, ¬(f.names ++ d.names).Nodup

theorem clashes_of_any {code : List Instruction}
    (clash : (document (Sample.moduleOf code) ⟨300, true⟩).toOption.any
      (fun d => d.functions.any fun f => decide ¬(f.names ++ d.names).Nodup) = true) :
    Clashes (Sample.moduleOf code) := by
  obtain ⟨d,made,clash⟩ := made_of_any clash
  refine ⟨d.text,⟨300,true⟩,d,emit_gives_iff.mpr ⟨⟨300,true⟩,d,rfl,made,rfl⟩,rfl,made,rfl,?_⟩
  simpa using clash

/-- A name that readers know is taken again for an id, and an id that is defined twice has one name. -/
theorem names_may_clash : Clashes (Sample.moduleOf (Sample.codeWith [.named 3 "_9"] Sample.body)) ∧
      Clashes (Sample.moduleOf (Sample.codeWith [] [⟨.var, [4, 9, 4]⟩, ⟨.var, [4, 9, 4]⟩])) :=
  ⟨clashes_of_any (by cbv),clashes_of_any (by cbv)⟩

end Shading.Emission
