import Shading.Compilation.Compile
import Shading.Proofs.Emission.DeclarationText
import Shading.Proofs.Emission.Document
import Shading.Proofs.Emission.Variables
import Shading.Proofs.Lowering.Acceptance
import Shading.Proofs.Lowering.Globals
import Shading.Proofs.Optimization
import Shading.Proofs.Pass.Retention

/-! The uniforms of a text are those of the table that goes with it, in the same order, with the same numbers
of values and at the same locations. A uniform keeps its name if that name is free where it is declared. -/
namespace Shading.Emission
open List Bytecode Pass Lowering Linked Reporting Shading.Except
open Typed (Checked Global Program)

variable {m : Module} {d : Document}

/-- The uniforms among lines that follow the declarations of some names, each with the names before it. -/
def uniformLines : List String → List Outer → List (List String × GlobalLine)
  | _, [] => []
  | taken, .invariant _ :: lines => uniformLines taken lines
  | taken, .global line :: lines =>
    (if line.role = some .uniform then [(taken, line)] else []) ++ uniformLines (line.name :: taken) lines

/-- A line declares the uniform, after some names. -/
structure Matches (target : Target) (u : Uniform) (line : List String × GlobalLine) : Prop where
  kind : u.kind = .ofTy line.2.ty.base
  count : u.count.toNat = line.2.ty.count
  location : line.2.location = if target.hasUniformLocations then some u.register.toNat else none
  name : isFree line.1 u.name = true → line.2.name = u.name
  text : line.2.text = uniformText line.2

/-- What the tables have of a global. -/
structure Tables.Knows (t : Tables) (g : Global) (e : Id × StorageClass) : Prop where
  storage : e.2 = storageClass g.storage
  ty : g.ty.Fits → t.pointee e.1 = .ok g.ty
  name : g.name ≠ "" → '\x00' ∉ g.name.toList → t.names.lookup e.1 = some g.name
  decorated : ∀ d, t.decoration? e.1 d = ((globalDecorations g).lookup d).map UInt32.ofNat

theorem forall₂_comp {α β γ : Type} {R : α → β → Prop} {S : β → γ → Prop} {T : α → γ → Prop} {as : List α}
    {bs : List β} {cs : List γ} (first : Forall₂ R as bs) (second : Forall₂ S bs cs)
    (both : ∀ b ∈ bs, ∀ a c, R a b → S b c → T a c) : Forall₂ T as cs := by
  induction first generalizing cs with
  | nil =>
    cases second
    exact .nil
  | cons head _ ih =>
    cases second with
    | cons head' tail' =>
      rw [forall_mem_cons] at both
      exact .cons (both.1 _ _ head head') (ih tail' both.2)

section Presented

variable {o o' : Outline} {t : Tables} {g : Global} {i : Instruction} {e : Id × StorageClass}
  {f : Id → Id} {gs : List Global}

theorem presents_of_retains (retains : o.Retains f o') (presents : Presents o.outside g i)
    (mem : i ∈ o.outside) : Presents o'.outside g (renameIds f i) := by
  obtain ⟨ptr,id,rfl,points,noted⟩ := presents
  refine ⟨f ptr,f id,rfl,points.rename retains.types,?_⟩
  rw [retains.notes id (mem_results.mpr ⟨_,mem,rfl⟩)]
  exact noted

theorem notesOn_code (shaped : o.Shaped) (x : Id) : notesOn o.code x = notesOn o.outside x := by
  have none : notesOn (o.routines.flatMap Routine.code) x = [] := by
    refine notesOn_eq_nil fun i mem => ?_
    obtain ⟨r,routine,inside⟩ := mem_flatMap.mp mem
    have states := (shaped.routines r routine).states i inside
    constructor <;> intro op <;> rw [op] at states <;> cases states
  rw [Outline.code,notesOn_append,none,append_nil]

theorem knows_of_presents (healthy : o.Healthy) (ran : o.code.foldlM Tables.scan {} = .ok t)
    (presents : Presents o.outside g i) (mem : i ∈ o.outside) (declares : Tables.Declares i e) :
    t.Knows g e := by
  obtain ⟨ptr,id,rfl,points,noted⟩ := presents
  obtain ⟨x,storage⟩ := e
  obtain ⟨rfl,known⟩ := declares
  have full : ∀ i ∈ o.code, i.Full := fun i mem => (healthy.written i mem).2
  have lists := Tables.scan_lists ran
  have settled := Tables.scan_settled full healthy.valid.unique ran
  have outside : o.outside ⊆ o.code := subset_append_left _ _
  refine ⟨?_,fun fits => ?_,fun named noZero => ?_,fun d => ?_⟩
  · exact Option.some.inj (known.symm.trans (ofCode?_storageClass g))
  · exact settled.pointee_of_points lists full healthy.valid.unique (outside mem) (points.mono outside) fits
  · rw [lists.names_lookup,notesOn_code healthy.shaped]
    exact noted.named named noZero
  · rw [lists.decoration?_eq full,notesOn_code healthy.shaped]
    exact noted.decorated d

theorem presents_all (retains : o.Retains f o')
    (presents : Forall₂ (Presents o.outside) gs (o.outside.filter fun i => i.op == .var)) :
    Forall₂ (Presents o'.outside) gs (o'.outside.filter fun i => i.op == .var) := by
  rw [retains.vars]
  have renamed : Forall₂ (fun i j => j = renameIds f i) (o.outside.filter fun i => i.op == .var)
      ((o.outside.filter fun i => i.op == .var).map (renameIds f)) := by
    rw [forall₂_map_right_iff,forall₂_same]
    exact fun _ _ => rfl
  grind [forall₂_comp,presents_of_retains]

theorem knows_globals (healthy : o.Healthy) (ran : o.code.foldlM Tables.scan {} = .ok t)
    (presents : Forall₂ (Presents o.outside) gs (o.outside.filter fun i => i.op == .var)) :
    Forall₂ t.Knows gs t.globals :=
  forall₂_comp presents (Tables.scan_outline healthy.shaped ran) fun _ mem _ _ presents declares =>
    knows_of_presents healthy ran presents (mem_of_mem_filter mem) declares

end Presented

section Lines

variable {c : Context} {gs gs' : Globals} {e : Id × StorageClass} {g : Global}

variable {taken : List String} {name : String}

/-- The lines that declare uniforms are those of the uniforms. -/
theorem filter_declaresUniform {outer : List Outer}
    (declare : ∀ p ∈ uniformLines taken outer, declaresUniform p.2.text = true) :
    (outer.map Outer.text).filter declaresUniform = (uniformLines taken outer).map (·.2.text) := by
  induction outer generalizing taken with
  | nil => rfl
  | cons o outer ih =>
    cases o with
    | invariant name =>
      have other : declaresUniform (Outer.invariant name).text = false :=
        declaresUniform_of_isOther (isOther_append (isOther_append rfl))
      rw [map_cons,filter_cons_of_neg (by simp [other])]
      exact ih declare
    | global line =>
      rw [uniformLines,forall_mem_append] at declare
      rw [uniformLines,map_cons,filter_cons,map_append,ih declare.2]
      by_cases role : line.role = some .uniform
      · rw [if_pos role] at declare ⊢
        exact if_pos (declare.1 _ (mem_singleton_self _))
      · rw [if_neg role,if_neg (by simp [Outer.text,declaresUniform_text role])]
        rfl

theorem uniformLines_invariant {present : Bool} (lines : List Outer) :
    uniformLines taken ((if present then [.invariant name] else []) ++ lines) = uniformLines taken lines := by
  cases present <;> rfl

theorem addGlobal_other (other : e.2 ≠ .uniform) (added : c.addGlobal gs e = .ok gs') :
    ∃ new, gs'.lines = gs.lines ++ new ∧
      ∀ lines, uniformLines gs.used (new ++ lines) = uniformLines gs'.used lines := by
  obtain ⟨id,storage⟩ := e
  unfold Context.addGlobal at added
  obtain ⟨ty,-,added⟩ := Except.bind_eq_ok.mp added
  split at added
  case h_1 code builtin =>
    obtain ⟨v,-,added⟩ := Except.bind_eq_ok.mp added
    obtain ⟨_,-,added⟩ := Except.bind_eq_ok.mp added
    split at added
    case h_1 g₁ name line chose =>
    cases added
    split at chose
    case isTrue =>
      cases chose
      refine ⟨_,rfl,fun lines => ?_⟩
      rw [List.append_assoc,singleton_append,uniformLines,uniformLines_invariant]
      rfl
    case isFalse =>
      cases chose
      exact ⟨_,rfl,fun lines => uniformLines_invariant lines⟩
  case h_2 =>
    split at added
    case isTrue =>
      obtain ⟨term,-,added⟩ := Except.bind_eq_ok.mp added
      cases added
      exact ⟨[],rfl,fun lines => rfl⟩
    case isFalse =>
      obtain ⟨line,made,added⟩ := Except.bind_eq_ok.mp added
      cases added
      obtain ⟨name,role⟩ := Context.globalLine_eq_ok made
      refine ⟨[.global line],rfl,fun lines => ?_⟩
      rw [singleton_append,uniformLines,if_neg (role other),nil_append,name]
      rfl

theorem addGlobal_uniform (uniform : e.2 = .uniform) (ordinary : c.decoration? e.1 .builtin = none)
    (added : c.addGlobal gs e = .ok gs') :
    ∃ line : GlobalLine, gs'.lines = gs.lines ++ [.global line] ∧ line.role = some .uniform ∧
      line.name = freshName gs.used e.1 (c.tables.names.lookup e.1) ∧ c.tables.pointee e.1 = .ok line.ty ∧
      line.location = c.layoutEntry e.1 .location c.target.hasUniformLocations ∧
      gs'.used = line.name :: gs.used ∧ line.text = uniformText line := by
  obtain ⟨id,storage⟩ := e
  subst uniform
  unfold Context.addGlobal at added
  obtain ⟨ty,typed,added⟩ := Except.bind_eq_ok.mp added
  dsimp only at ordinary added
  rw [ordinary] at added
  split at added
  case h_1 found => cases found
  case h_2 =>
    rw [if_neg (by simp)] at added
    obtain ⟨line,made,added⟩ := Except.bind_eq_ok.mp added
    cases added
    cases made
    refine ⟨_,rfl,rfl,rfl,typed,rfl,rfl,?_⟩
    simp [GlobalLine.text,uniformText,GlobalLine.places,layoutText,declaration,Ty.suffix,Role.text,
      String.append_assoc]

theorem lookup_builtin (ordinary : g.builtin = none) :
    (globalDecorations g).lookup .builtin = none := by
  rw [lookup_eq_none_iff]
  intro d mem
  simp only [globalDecorations,ordinary,mem_append,Option.mem_toList,Option.map_eq_some_iff] at mem
  grind

theorem lookup_location {n : Nat} (located : g.location = some n) :
    (globalDecorations g).lookup .location = some n := by
  simp [globalDecorations,located]

theorem noZero_of_isFree (free : isFree taken name = true) : name ≠ "" ∧ '\x00' ∉ name.toList := by
  simp only [isFree,Bool.and_eq_true,Bool.not_eq_true',all_eq_true] at free
  obtain ⟨⟨⟨⟨filled,-⟩,-⟩,chars⟩,-⟩ := free
  refine ⟨fun empty => ?_,fun zero => ?_⟩
  · rw [empty] at filled
    cases filled
  · cases chars _ zero

theorem matches_of_registered {u : Uniform} (registered : Registered u g)
    (knows : c.tables.Knows g e) (uniform : g.storage = .uniform) (ordinary : g.builtin = none)
    (fits : g.ty.Fits) (added : c.addGlobal gs e = .ok gs') :
    ∃ line : GlobalLine, gs'.lines = gs.lines ++ [.global line] ∧ line.role = some .uniform ∧
      gs'.used = line.name :: gs.used ∧ Matches c.target u (gs.used, line) := by
  have storage : e.2 = .uniform := by rw [knows.storage,uniform]; rfl
  have plain : c.decoration? e.1 .builtin = none := by
    rw [Context.decoration?,knows.decorated,lookup_builtin ordinary]
    rfl
  obtain ⟨line,lines,role,name,typed,location,used,text⟩ := addGlobal_uniform storage plain added
  have ty : line.ty = g.ty := Except.ok.inj (typed.symm.trans (knows.ty fits))
  refine ⟨line,lines,role,used,⟨?_,?_,?_,fun free => ?_,text⟩⟩
  · rw [registered.kind,ty]
  · rw [registered.count,ty]
  · rw [location,Context.layoutEntry,Context.decoration?,knows.decorated,
      lookup_location registered.location]
    simp
  · obtain ⟨filled,noZero⟩ := noZero_of_isFree free
    rw [registered.name] at filled noZero free ⊢
    rw [name,knows.name filled noZero,freshName]
    exact if_pos free

/-- One uniform after the other is declared as its entry says. -/
theorem foldlM_addGlobal_matches {globals : List Global} {es : List (Id × StorageClass)}
    {us : UniformTable} (knows : Forall₂ c.tables.Knows globals es)
    (plain : ∀ g ∈ globals, g.storage = .uniform → g.builtin = none ∧ g.ty.Fits)
    (registered : Forall₂ Registered us (globals.filter fun g => g.storage == .uniform))
    (ran : es.foldlM c.addGlobal gs = .ok gs') : ∃ new, gs'.lines = gs.lines ++ new ∧
      Forall₂ (Matches c.target) us (uniformLines gs.used new) := by
  induction knows generalizing us gs with
  | nil =>
    cases ran
    cases registered
    exact ⟨[],by simp,.nil⟩
  | @cons g e globals es head _ ih =>
    rw [forall_mem_cons] at plain
    rw [foldlM_cons] at ran
    obtain ⟨gs₁,added,ran⟩ := Except.bind_eq_ok.mp ran
    by_cases uniform : g.storage = .uniform
    · rw [filter_cons_of_pos (by simpa using uniform)] at registered
      cases registered with
      | cons first others =>
        obtain ⟨ordinary,fits⟩ := plain.1 uniform
        obtain ⟨line,lines,role,used,here⟩ := matches_of_registered first head uniform ordinary fits added
        obtain ⟨new,lines',rest⟩ := ih plain.2 others ran
        refine ⟨.global line :: new,by rw [lines',lines,List.append_assoc]; rfl,?_⟩
        rw [uniformLines,if_pos role,singleton_append,← used]
        exact .cons here rest
    · rw [filter_cons_of_neg (by simpa using uniform)] at registered
      have other : e.2 ≠ .uniform := by
        rw [head.storage]
        cases storage : g.storage <;> simp_all [storageClass]
      grind [addGlobal_other]

end Lines

section Compilation

variable {o : CompileOptions} {lib : Source.Library} {source : String} {table : UniformTable}

theorem lowerSource_gives (given : (lowerSource o lib source).Gives (table, m)) :
    ∃ (u : StageSource) (c : Checked) (l : Linked) (p : Program), (u.check lib).Gives c ∧
      (link [c]).Gives l ∧ (reflect l.program).Gives (table, p) ∧ (lower p).Gives m := by
  obtain ⟨_,-,given⟩ := given.of_bind
  obtain ⟨_,-,given⟩ := given.of_bind
  obtain ⟨c,checked,given⟩ := given.of_bind
  obtain ⟨l,linked,given⟩ := given.of_bind
  obtain ⟨⟨us,p⟩,reflected,given⟩ := given.of_bind
  obtain ⟨m',lowered,given⟩ := given.of_bind
  grind [gives_pure,Gives.of_mapError]

theorem plain_uniforms {u : StageSource} {c : Checked} {l : Linked} {p : Program}
    (checked : (u.check lib).Gives c) (linked : (link [c]).Gives l)
    (reflected : (reflect l.program).Gives (table, p)) :
    ∀ g ∈ p.globals, g.storage = .uniform → g.builtin = none ∧ g.ty.Fits := by
  obtain ⟨-,-,moved⟩ := link_alone linked
  obtain ⟨globals,moved,rfl⟩ := moved.trans (reflect_relocated reflected)
  obtain ⟨w,-,written⟩ := Reporting.Gives.of_bind checked
  rw [Typed.eq_checkUnit_of_check written] at moved
  intro g mem uniform
  obtain ⟨first,declared,location,rfl⟩ := moved.mem mem
  refine ⟨?_,(Typed.checkUnit_admitted w first declared).fits⟩
  rcases (Typed.checkUnit_wellTyped w).globals.ordinary first declared with ⟨v,line,rfl⟩ | ordinary
  · cases v <;> cases uniform
  · exact ordinary.1

/-- The artifact has the text of the document. -/
def Yields (o : CompileOptions) (lib : Source.Library) (source : String) (a : Artifact) (d : Document) :
    Prop :=
  ∃ m m', (lowerSource o lib source).Gives (a.uniforms, m) ∧
    (Bytecode.optimize m o.optimize o.file).Gives m' ∧ document m' o.target = .ok d ∧ a.source = d.text

theorem exists_yields {a : Artifact} (compiled : (compile o lib source).Gives a) :
    ∃ d, Yields o lib source a d := by
  have compiled : (compileStages o lib source).Gives a := by
    refine compiled.of_tryCatch fun e failed => ?_
    obtain ⟨_,-,failed⟩ := failed.of_bind
    exact Reporting.not_gives_throw failed
  obtain ⟨⟨us,m⟩,lowered,given⟩ := compiled.of_bind
  obtain ⟨m',optimized,given⟩ := given.of_bind
  obtain ⟨text,emitted,given⟩ := given.of_bind
  obtain ⟨_,-,given⟩ := given.of_bind
  rw [Reporting.gives_pure] at given
  cases given
  obtain ⟨target,d,selected,made,rfl⟩ := emit_gives_iff.mp emitted.of_mapError
  obtain rfl : target = o.target := by
    unfold Target.select at selected
    split at selected
    · cases selected
      rfl
    · cases selected
  exact ⟨d,m,m',lowered,optimized.of_mapError,made,rfl⟩

/-- The uniforms of the text are the entries of the table. Functions come after all lines of the text, and the
lines that declare uniforms are those of the entries, in their order. -/
theorem compile_uniforms_agree {a : Artifact} (compiled : (compile o lib source).Gives a)
    (room : o.optimize = true → ∀ us m, (lowerSource o lib source).Gives (us, m) → m.HasRoom) :
    ∃ d, Yields o lib source a d ∧ a.source = String.join (d.lines.map (· ++ "\n")) ++
        String.join (d.functions.map fun f => "\n" ++ f.text) ∧
      d.lines.filter declaresUniform = (uniformLines [] d.outer).map (·.2.text) ∧
      Forall₂ (Matches o.target) a.uniforms (uniformLines [] d.outer) := by
  obtain ⟨d,yields⟩ := exists_yields compiled
  refine ⟨d,yields,?_⟩
  obtain ⟨m,m',lowered,optimized,made,written⟩ := yields
  suffices agree : Forall₂ (Matches o.target) a.uniforms (uniformLines [] d.outer) by
    refine ⟨written.trans d.text_eq,?_,agree⟩
    rw [Document.lines,filter_append,filter_eq_nil_iff.mpr (by simpa using declaresUniform_preamble d),nil_append]
    refine filter_declaresUniform fun p mem => ?_
    obtain ⟨u,-,matched⟩ := exists_of_forall₂ agree.flip mem
    rw [matched.text,declaresUniform_uniformText]
  obtain ⟨u,c,l,p,checked,linked,reflected,ran⟩ := lowerSource_gives lowered
  have origin : FromSource p := ⟨[c],l,_,by simpa using ⟨u,lib,checked⟩,linked,reflected⟩
  obtain ⟨t,h,decoded,current,healthy,inside,below⟩ := lower_healthy origin ran
  have enough := fun on => room on _ m lowered h t.code decoded
  obtain ⟨t',m'',h',passed,always,decoded',healthy',-⟩ :=
    healthy.optimize inside decoded current below enough
  obtain rfl := always.eq_of_gives optimized
  obtain ⟨f,retains⟩ := passed.retains healthy inside fun on => healthy.roomy inside below (enough on)
  have presents := presents_all retains
    (lower_presents origin.program_scoped ran decoded healthy.shaped healthy.valid)
  obtain ⟨stage,code,tables,entry,read,scanned,written⟩ := document_eq_ok made
  obtain rfl : code = t'.code := Except.ok.inj (read.symm.trans (instructions_of_decode decoded'))
  obtain ⟨g,declared,outer,-⟩ := Context.document_eq_ok written
  obtain ⟨new,lines,matched⟩ := foldlM_addGlobal_matches
    (c := ⟨o.target,stage,tables,entry⟩) (knows_globals healthy' (Tables.ofCode_scanned scanned) presents)
    (plain_uniforms checked linked reflected) (reflect_registered reflected) declared
  rw [outer,lines]
  exact matched

/-- A word that the language keeps is no free name. -/
example : isFree [] "k" = true ∧ isFree [] "filter" = false := by decide +kernel

/-- What was said when the source is read. -/
def announced (o : CompileOptions) : Journal := ((note .debug ("compiling " ++ o.file ++ " as " ++
  o.stage.name ++ " shader for " ++ o.target.text ++ " (optimize = " ++ toString o.optimize ++ ")") :
    Reporting CompileError Unit).run.run {}).2

theorem lowerSource_run_of_stages {c : Checked} {l : Linked} {table : UniformTable} {p : Program}
    {m : Module} (valid : o.check = .ok ())
    (checked : (((StageSource.withDefines { stage := o.stage, file := o.file, text := source } o.defines).check
      lib).run.run (announced o)).1 = .ok c)
    (linked : (link [c]).Always l) (reflected : (reflect l.program).Always (table, p))
    (lowered : (lower p).Always m) : ∃ j, (lowerSource o lib source).run.run {} = (.ok (table, m), j) := by
  have rest : (do
      let linked ← mapError CompileError.link (link [c])
      let reflected ← mapError .registers (reflect linked.program)
      let lowered ← mapError .lowering (lower reflected.2)
      return (reflected.1, lowered)).Always (table, m) :=
    linked.mapError.bind (reflected.mapError.bind (lowered.mapError.bind (always_pure _)))
  obtain ⟨j,ended⟩ := rest (((StageSource.withDefines { stage := o.stage, file := o.file, text := source }
    o.defines).check lib).run.run (announced o)).2
  refine ⟨j,?_⟩
  unfold lowerSource
  rw [valid]
  exact (run_bind_of_ok (a := ()) (k := {}) rfl).trans ((run_bind_of_ok (a := ()) (k := announced o) rfl).trans
    ((run_bind_of_ok (run_mapError_eq_ok.mpr (Prod.ext checked rfl))).trans ended))

theorem compile_run_of_stages {m' : Module}
    (lowered : ∃ j, (lowerSource o lib source).run.run {} = (.ok (table, m), j))
    (optimized : (Bytecode.optimize m o.optimize o.file).Always m')
    (selected : Target.select o.target.version o.target.es = .ok o.target)
    (made : document m' o.target = .ok d) :
    ∃ j, (compile o lib source).run.run {} = (.ok ⟨table, d.text⟩, j) := by
  have rest : (do
      let optimized ← mapError CompileError.optimizer (Bytecode.optimize m o.optimize o.file)
      let text ← mapError CompileError.emission (Emission.emit optimized o.target.version o.target.es)
      note .debug ("compiled " ++ o.file ++ ": " ++ toString table.length ++ " uniforms, " ++
        toString text.utf8ByteSize ++ " bytes of source")
      return (⟨table,text⟩ : Artifact)).Always ⟨table,d.text⟩ :=
    optimized.mapError.bind ((emit_always selected made).mapError.bind
      (.bind (always_note _ _) (always_pure _)))
  obtain ⟨j,lowered⟩ := lowered
  obtain ⟨j',ended⟩ := rest j
  refine ⟨j',?_⟩
  have ran : (compileStages o lib source).run.run {} = (.ok ⟨table,d.text⟩, j') :=
    (run_bind_of_ok lowered).trans ended
  unfold compile
  rw [ExceptT.run_tryCatch,StateT.run_bind,ran]
  rfl

end Compilation

namespace Reserved

def source : String := "uniform vec2 k[2];uniform float filter;void main(){}"

def options : CompileOptions := { stage := .fragment, file := "a", target := ⟨310, true⟩, optimize := false }

def library : Source.Library := ({} : Source.HeaderStore).library

def unit : StageSource := StageSource.withDefines { stage := .fragment, file := "a", text := source } []

/-- What the text says, with the registers of its uniforms if they have them. -/
def programAt (first second : Option Nat) : Program where
  stage := .fragment
  file := "a"
  globals := [
    { name := "k", ty := .array (.vec 2) 2, storage := .uniform, location := first, readOnly := true
      line := 1 },
    { name := "filter", ty := .float, storage := .uniform, location := second, readOnly := true, line := 1 }]
  functions := [
    { name := "main", signature := "main()", returnTy := .void, params := [], locals := [], body := some []
      line := 1 }]

def checked : Checked := ⟨programAt none none, []⟩

def program : Program := programAt (some 0) (some 2)

def table : UniformTable := [
  { name := "k", kind := .unknown, count := 2, register := 0, registers := 2, texComponent := 0
    texDimension := 0 },
  { name := "filter", kind := .unknown, count := 1, register := 2, registers := 1, texComponent := 0
    texDimension := 0 }]

def module : Module where
  words := [
    1481854023, 65536, 0, 11, 1, 196613, 100, 1, 131074, 1, 262145, 1, 1852399981, 0, 196609, 6, 107, 262145,
    8, 1953261926, 29285, 262148, 6, 0, 0, 262148, 8, 0, 2, 131085, 2, 262158, 3, 2, 2, 262161, 4, 3, 2,
    262163, 5, 0, 4, 262166, 5, 6, 0, 262163, 7, 0, 2, 262166, 7, 8, 0, 131082, 9, 196626, 10, 9, 262174, 9,
    1, 10, 65605, 65568]

theorem source_checked : ((unit.check library).run.run (announced options)).1.toOption = some checked := by
  decide +kernel

theorem checked_linked : (link [checked]).Always ⟨checked.program, []⟩ :=
  always_of_run fun j => by cbv

theorem program_reflected : (reflect checked.program).Always (table, program) :=
  always_of_run fun j => by cbv

theorem program_lowered : (lower program).Always module :=
  always_of_run fun j => by cbv

theorem module_optimized : (Bytecode.optimize module false "a").Always module :=
  always_of_run fun j => by cbv

/-- What the uniforms are called, and how they are declared. -/
def declared : List (String × String) :=
  [("k", "layout(location = 0) uniform vec2 k[2];"), ("filter_8", "layout(location = 2) uniform float filter_8;")]

theorem document_made : ∃ d, document module options.target = .ok d ∧
    (uniformLines [] d.outer).map (fun l => (l.2.name, l.2.text)) = declared := by
  have made : (document module options.target).toOption.any
      (fun d => (uniformLines [] d.outer).map (fun l => (l.2.name, l.2.text)) == declared) = true := by
    decide +kernel
  obtain ⟨d,made,test⟩ := exists_of_any made
  exact ⟨d,made,eq_of_beq test⟩

theorem lowered_run : ∃ j, (lowerSource options library source).run.run {} = (.ok (table, module), j) :=
  lowerSource_run_of_stages rfl (Except.eq_ok_of_toOption source_checked) checked_linked program_reflected
    program_lowered

theorem source_lowered : (lowerSource options library source).Gives (table, module) := ⟨{},lowered_run⟩

theorem compiled_run (made : document module options.target = .ok d) :
    ∃ j, (compile options library source).run.run {} = (.ok ⟨table, d.text⟩, j) :=
  compile_run_of_stages lowered_run module_optimized rfl made

theorem source_compiled (made : document module options.target = .ok d) :
    (compile options library source).Gives ⟨table, d.text⟩ := ⟨{},compiled_run made⟩

end Reserved

theorem reserved_uniforms_agree : ∃ a d,
    (compile Reserved.options Reserved.library Reserved.source).Gives a ∧
    (Reserved.options.optimize = true → ∀ us m,
      (lowerSource Reserved.options Reserved.library Reserved.source).Gives (us, m) → m.HasRoom) ∧
    Yields Reserved.options Reserved.library Reserved.source a d ∧
    a.source = String.join (d.lines.map (· ++ "\n")) ++ String.join (d.functions.map fun f => "\n" ++ f.text) ∧
    d.lines.filter declaresUniform = (uniformLines [] d.outer).map (·.2.text) ∧
    Forall₂ (Matches Reserved.options.target) a.uniforms (uniformLines [] d.outer) := by
  obtain ⟨d',made,-⟩ := Reserved.document_made
  have compiled := Reserved.source_compiled made
  have room (on : Reserved.options.optimize = true) : ∀ us m,
      (lowerSource Reserved.options Reserved.library Reserved.source).Gives (us, m) → m.HasRoom := by
    cases on
  obtain ⟨d,agree⟩ := compile_uniforms_agree compiled room
  exact ⟨⟨Reserved.table,d'.text⟩,d,compiled,room,agree⟩

/-- The text has another name for a uniform than its table, if the language keeps the name. -/
theorem uniform_renamed : ∃ a d, (compile Reserved.options Reserved.library Reserved.source).Gives a ∧
    Yields Reserved.options Reserved.library Reserved.source a d ∧
    (uniformLines [] d.outer).map (fun l => (l.2.name, l.2.text)) = Reserved.declared ∧
    Reserved.declared.map Prod.fst ≠ a.uniforms.map Uniform.name := by
  obtain ⟨d,made,names⟩ := Reserved.document_made
  refine ⟨_,d,Reserved.source_compiled made,⟨_,_,Reserved.source_lowered,
    Reserved.module_optimized.gives,made,rfl⟩,names,?_⟩
  show _ ≠ Reserved.table.map Uniform.name
  decide

end Shading.Emission
