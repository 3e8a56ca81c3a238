import Shading.Proofs.Linked.Merging
import Shading.Proofs.Linked.SoundCalls
import Shading.Proofs.Typed.Equality
import Shading.Proofs.Typed.Signatures

/-! Calls and writes across units. A unit is checked against its own declarations, and what is linked in has
parameters, results and variables of the same types. How parameters are passed and which globals are
read-only is not compared: where units agree on that, calls and writes stay what they were checked to be. -/
namespace Shading.Linked
open List Typed

variable {name : String} {g d : Global} {t : Ty}

/-- Units say the same of what they share: how parameters are passed, and what is read-only. -/
structure Agree (us : List Program) : Prop where
  passing : ∀ u ∈ us, ∀ v ∈ us, ∀ f ∈ u.functions, ∀ g ∈ v.functions, f.signature = g.signature →
    f.params.map Param.passing = g.params.map Param.passing
  readOnly : ∀ u ∈ us, ∀ v ∈ us, ∀ g ∈ u.globals, ∀ h ∈ v.globals, g.name = h.name →
    g.readOnly = h.readOnly

instance (us : List Program) : Decidable (Agree us) :=
  decidable_of_iff
    ((∀ u ∈ us, ∀ v ∈ us, ∀ f ∈ u.functions, ∀ g ∈ v.functions, f.signature = g.signature →
      f.params.map Param.passing = g.params.map Param.passing) ∧
    ∀ u ∈ us, ∀ v ∈ us, ∀ g ∈ u.globals, ∀ h ∈ v.globals, g.name = h.name → g.readOnly = h.readOnly)
    ⟨fun h => ⟨h.1, h.2⟩, fun h => ⟨h.passing, h.readOnly⟩⟩

theorem Relocated.find? {gs gs' : List Global} (moved : Relocated gs gs')
    (found : gs.find? (fun g => g.name == name) = some g) :
    ∃ location, gs'.find? (fun g => g.name == name) = some { g with location } := by
  have same : (gs.find? fun g => g.name == name).map unplaced =
      (gs'.find? fun g => g.name == name).map unplaced := by
    have found := congrArg (List.find? fun g => g.name == name) moved
    rwa [find?_map,find?_map] at found
  rw [found,Option.map_some] at same
  obtain ⟨g',found',eq⟩ := Option.map_eq_some_iff.mp same.symm
  exact ⟨g'.location,by rw [found',← eq_of_unplaced_eq eq]⟩

/-- Units that are well typed, and the program that they were merged to. -/
structure Joined (us : List Program) (q : Program) : Prop where
  typed : ∀ u ∈ us, u.WellTyped
  merged : ∃ p, Union us p ∧ checkCalls p = .ok () ∧ RelocatedProgram p q

namespace Joined

variable {us : List Program} {u q : Program} {args : List Expr} {f : Function} {locals : List Local}
  {params : List Param}

theorem of_link {units : List Checked} {l : Linked}
    (checked : ∀ c ∈ units, ∃ u : WrittenUnit, u.check.Gives c) (linked : (link units).Gives l) :
    Joined (units.map Checked.program) l.program := by
  obtain ⟨p,union,calls,moved⟩ := link_union checked linked
  exact ⟨checked_wellTyped checked,p,union,calls,moved⟩

section

variable (joined : Joined us q)
include joined

theorem origin (mem : f ∈ q.functions) : ∃ u ∈ us, f ∈ u.functions := by
  obtain ⟨p,merged,-,globals,-,rfl⟩ := joined.merged
  exact mem_flatMap.mp (merged.functions.origin mem)

theorem distinct : (q.functions.map Function.signature).Nodup := by
  obtain ⟨p,merged,-,globals,-,rfl⟩ := joined.merged
  exact merged.functions.distinct

theorem init_origin (mem : g ∈ q.globals) {e : Expr} (init : e ∈ g.init) :
    ∃ u ∈ us, ∃ d ∈ u.globals, d.name = g.name ∧ d.init = some e := by
  obtain ⟨p,merged,-,globals,moved,rfl⟩ := joined.merged
  obtain ⟨h,old,location,rfl⟩ := moved.mem mem
  obtain ⟨d,declared,rest⟩ := merged.globals.inits old init
  obtain ⟨u,unit,inside⟩ := mem_flatMap.mp declared
  exact ⟨u,unit,d,inside,rest⟩

theorem body?_of_call (mem : f ∈ q.functions) {g : String} (part : .call g args t ∈ f.parts) :
    ∃ callee, body? q g = some callee := by
  obtain ⟨p,merged,calls,globals,-,rfl⟩ := joined.merged
  exact body?_of_mem_callees (p := p) merged.functions.distinct calls mem
    (Function.mem_callees.mpr ⟨_,_,part⟩)

theorem global (unit : u ∈ us) (found : u.globals.find? (fun g => g.name == name) = some d) :
    ∃ g, q.globals.find? (fun g => g.name == name) = some g ∧ g.ty = d.ty ∧
      g.storage = d.storage ∧ ∃ v ∈ us, ∃ h ∈ v.globals, h.name = name ∧ g.readOnly = h.readOnly := by
  obtain ⟨p,merged,-,globals,moved,rfl⟩ := joined.merged
  have declared : d ∈ us.flatMap Program.globals :=
    mem_flatMap.mpr ⟨u,unit,mem_of_find?_eq_some found⟩
  have named : d.name = name := by simpa using find?_some found
  have known : d.name ∈ p.globals.map Global.name :=
    merged.globals.mem_keys.mpr (mem_map_of_mem declared)
  have isSome : (p.globals.find? fun g => g.name == name).isSome := by
    rw [find?_isSome]
    simpa [named] using known
  obtain ⟨g,found⟩ := Option.isSome_iff_exists.mp isSome
  have mem := mem_of_find?_eq_some found
  have same : g.name = name := by simpa using find?_some found
  obtain ⟨ty,storage,-⟩ := merged.globals.agree declared mem (same.trans named.symm)
  obtain ⟨h,first,_,_,_,rfl⟩ := merged.globals.first mem
  obtain ⟨v,unit',inside⟩ := mem_flatMap.mp (mem_of_find?_eq_some first)
  obtain ⟨location,found'⟩ := moved.find? found
  exact ⟨_,found',ty,storage,v,unit',h,inside,same,rfl⟩

theorem function (unit : u ∈ us) {signature : String} {d : Function}
    (found : u.function? signature = some d) :
    ∃ f, q.function? signature = some f ∧ f.returnTy = d.returnTy ∧
      f.params.map Param.ty = d.params.map Param.ty ∧ ∃ v ∈ us, f ∈ v.functions := by
  have inside := mem_of_find?_eq_some found
  have signed : d.signature = signature := by simpa using find?_some found
  obtain ⟨p,merged,-,globals,-,rfl⟩ := joined.merged
  obtain ⟨f,mem,sig,returns,-⟩ :=
    merged.functions.overload (mem_flatMap.mpr ⟨u,unit,inside⟩)
  obtain ⟨v,unit',inside'⟩ := mem_flatMap.mp (merged.functions.origin mem)
  refine ⟨f,?_,returns,?_,v,unit',inside'⟩
  · have known := function?_of_mem merged.functions.distinct mem
    rwa [sig.trans signed] at known
  · have proper := (joined.typed u unit).functions d inside
    have proper' := (joined.typed v unit').functions f inside'
    grind [Function.Proper.signature,parts_eq_of_signature,Ty.base_mem_named,Function.Proper.params]

end

section Environments

variable (params : List Param) (locals : List Local)

theorem relaxed_le (joined : Joined us q) (unit : u ∈ us) :
    (Env.of u.globals u.functionTy? params locals).relaxed.Le
      (Env.of q.globals q.functionTy? params locals).relaxed := by
  refine ⟨fun {v r} found => ?_,fun {s r} found => ?_⟩
  · obtain ⟨⟨t,access⟩,known,rfl⟩ := Option.map_eq_some_iff.mp found
    cases v with
    | global name =>
      obtain ⟨d,entry,same⟩ := Option.map_eq_some_iff.mp known
      cases same
      obtain ⟨g,entry',ty,-⟩ := joined.global unit entry
      simp [Env.relaxed,Env.of,entry',ty]
    | local_ i | param i => exact Option.map_eq_some_iff.mpr ⟨_,known,rfl⟩
  · obtain ⟨⟨ps,t⟩,known,rfl⟩ := Option.map_eq_some_iff.mp found
    obtain ⟨d,entry,same⟩ := Option.map_eq_some_iff.mp known
    cases same
    obtain ⟨f,entry',returns,types,-⟩ := joined.function unit entry
    have shape (f : Function) : (f.params.map fun q => (q.ty, q.passing)).map
        (fun r => (r.1, Passing.in_)) = (f.params.map Param.ty).map fun t => (t, Passing.in_) := by
      simp
    simp only [Env.relaxed,Env.of,Program.functionTy?,entry',Option.map_some,Function.ty,shape,
      types,returns]

theorem env_le (joined : Joined us q) (agree : Agree us) (unit : u ∈ us) :
    (Env.of u.globals u.functionTy? params locals).Le
      (Env.of q.globals q.functionTy? params locals) := by
  refine ⟨fun {v r} found => ?_,fun {s r} found => ?_⟩
  · cases v with
    | global name =>
      obtain ⟨d,entry,rfl⟩ := Option.map_eq_some_iff.mp found
      obtain ⟨g,entry',ty,storage,w,unit',h,inside,named,readOnly⟩ := joined.global unit entry
      grind [Agree.readOnly,Env.of,Global.access]
    | local_ i => exact found
    | param i => exact found
  · obtain ⟨d,entry,rfl⟩ := Option.map_eq_some_iff.mp found
    obtain ⟨f,entry',returns,types,w,unit',inside⟩ := joined.function unit entry
    have signed : f.signature = d.signature := by
      have first : f.signature = s := by simpa using find?_some entry'
      have second : d.signature = s := by simpa using find?_some entry
      rw [first,second]
    have passing := agree.passing w unit' u unit f inside d (mem_of_find?_eq_some entry) signed
    have shape (f : Function) : (f.params.map fun q => (q.ty, q.passing)) =
        (f.params.map Param.ty).zip (f.params.map Param.passing) := by
      simp [zip_map']
    simp only [Env.of,Program.functionTy?,entry',Option.map_some,Function.ty,returns,shape,types,
      passing]

end Environments

theorem call_fits (joined : Joined us q) (unit : u ∈ us) {g : String}
    (typed : (Expr.call g args t).WellTyped (Env.of u.globals u.functionTy? params locals)) :
    ∃ callee, q.function? g = some callee ∧ callee.returnTy = t ∧
      args.map Expr.ty = callee.params.map Param.ty := by
  have typed := typed.relaxed.mono (joined.relaxed_le params locals unit)
  cases typed with
  | call _ known passes =>
    obtain ⟨⟨ps,_⟩,known,same⟩ := Option.map_eq_some_iff.mp known
    obtain ⟨callee,found,same'⟩ := Option.map_eq_some_iff.mp known
    cases same'
    cases same
    refine ⟨callee,found,rfl,?_⟩
    simp only [Expr.Passes,forall₂_map_left_iff] at passes
    rw [← forall₂_eq_eq_eq,forall₂_map_left_iff,forall₂_map_right_iff]
    exact Forall₂.flip (passes.imp fun _ _ fits => fits.1)

theorem written_writable (joined : Joined us q) (agree : Agree us) (unit : u ∈ us) {x : Expr}
    (typed : x.WellTyped (Env.of u.globals u.functionTy? params locals)) :
    ∀ t ∈ x.written q.functionTy?, t.Writable (Env.of q.globals q.functionTy? params locals) :=
  (typed.mono (joined.env_le params locals agree unit)).written

theorem readOnly_eq_false (joined : Joined us q) (agree : Agree us)
    (plain : (Env.of q.globals q.functionTy? params locals).var? (.global name) = some (t, .plain))
    (unit : u ∈ us) (mem : d ∈ u.globals) (named : d.name = name) : d.readOnly = false := by
  have isSome : (u.globals.find? fun g => g.name == name).isSome := by
    rw [find?_isSome]
    exact ⟨d,mem,by simpa using named⟩
  obtain ⟨d',entry⟩ := Option.isSome_iff_exists.mp isSome
  obtain ⟨g,found,-,-,w,unit',h,inside,named',readOnly⟩ := joined.global unit entry
  obtain ⟨g',found',same⟩ := Option.map_eq_some_iff.mp plain
  grind [Global.access,Agree.readOnly]

end Joined

/-- In a linked program calls are of functions that take what they are given. If the units agree on what
they share, only what may be written is written, and no unit writes what another one keeps constant. -/
theorem link_calls_fit {units : List Checked} {l : Linked}
    (checked : ∀ c ∈ units, ∃ u : WrittenUnit, u.check.Gives c) (linked : (link units).Gives l) :
    (∀ f ∈ l.program.functions, ∀ g args t, .call g args t ∈ f.parts →
      ∃ callee, body? l.program g = some callee ∧ callee.returnTy = t ∧
        args.map Expr.ty = callee.params.map Param.ty) ∧
    (∀ g args t, .call g args t ∈ l.program.initParts →
      ∃ callee, l.program.function? g = some callee ∧ callee.returnTy = t ∧
        args.map Expr.ty = callee.params.map Param.ty) ∧
    (Agree (units.map Checked.program) →
      (∀ f ∈ l.program.functions, ∀ x ∈ f.parts, ∀ t ∈ x.written l.program.functionTy?,
        t.Writable (l.program.env f)) ∧
      (∀ x ∈ l.program.initParts, ∀ t ∈ x.written l.program.functionTy?,
        t.Writable l.program.initEnv) ∧
      ∀ c ∈ units, ∀ x ∈ c.program.parts, ∀ t ∈ x.written l.program.functionTy?, ∀ name,
        t.root? = some (.global name) → ∀ c' ∈ units, ∀ g ∈ c'.program.globals, g.name = name →
          g.readOnly = false) := by
  have joined := Joined.of_link checked linked
  generalize l.program = q at joined ⊢
  have unit {c : Checked} (member : c ∈ units) : c.program ∈ units.map Checked.program :=
    mem_map_of_mem member
  have initial {x : Expr} (part : x ∈ q.initParts) : ∃ u ∈ units.map Checked.program,
      x.WellTyped (Env.of u.globals u.functionTy? [] []) := by
    obtain ⟨g,member,part⟩ := mem_flatMap.mp part
    obtain ⟨e,init,part⟩ := Stmt.mem_optionParts.mp part
    obtain ⟨u,inside,d,declared,-,given⟩ := joined.init_origin member init
    refine ⟨u,inside,(joined.typed u inside).initPart ?_⟩
    exact mem_flatMap.mpr ⟨d,declared,Stmt.mem_optionParts.mpr ⟨e,given,part⟩⟩
  refine ⟨fun f member g args t part => ?_,fun g args t part => ?_,fun agree =>
    ⟨fun f member x part t written => ?_,fun x part t written => ?_,
      fun c member x part t written name root c' member' g declared named => ?_⟩⟩
  · obtain ⟨u,inside,declared⟩ := joined.origin member
    obtain ⟨callee,found,fits⟩ := joined.call_fits inside ((joined.typed u inside).part declared part)
    obtain ⟨callee',body⟩ := joined.body?_of_call member part
    cases (Option.filter_eq_some_iff.mp body).1.symm.trans found
    exact ⟨callee,body,fits⟩
  · obtain ⟨u,inside,typed⟩ := initial part
    exact joined.call_fits inside typed
  · obtain ⟨u,inside,declared⟩ := joined.origin member
    exact joined.written_writable agree inside ((joined.typed u inside).part declared part) t written
  · obtain ⟨u,inside,typed⟩ := initial part
    exact joined.written_writable agree inside typed t written
  · obtain ⟨params,locals,typed⟩ : ∃ params locals, x.WellTyped
        (Env.of c.program.globals c.program.functionTy? params locals) := by
      rcases mem_append.mp part with inBody | inInit
      · obtain ⟨f,declared,part⟩ := mem_flatMap.mp inBody
        exact ⟨f.params,f.locals,(joined.typed _ (unit member)).part declared part⟩
      · exact ⟨[],[],(joined.typed _ (unit member)).initPart inInit⟩
    obtain ⟨_,plain⟩ := (joined.written_writable agree (unit member) typed t written).root root
    exact joined.readOnly_eq_false agree plain (unit member') declared named

/-! Two units: one calls a function that the other one defines. -/
namespace Sharing

def float : Ty := .scalar .float

def k : Global := { name := "k", ty := float, storage := .priv, line := 1 }

/-- The function, with the way in which a unit says that its parameter is passed. -/
def f (passing : Passing) (body : Option (List Stmt)) : Function where
  name := "f"
  signature := "f(float)"
  returnTy := .void
  params := [⟨"x", float, passing, false⟩]
  locals := []
  body
  line := 1

def main (body : List Stmt) : Function where
  name := "main"
  signature := "main()"
  returnTy := .void
  params := []
  locals := []
  body := some body
  line := 1

def unit (globals : List Global) (functions : List Function) : Checked :=
  ⟨{ stage := .fragment, file := "a", globals, functions }, []⟩

def definition : Function :=
  f .out (some [.expr (.assign none (.var (.param 0) float) (.const (.float ⟨1073741824⟩)))])

def call (arg : Expr) : Function := main [.expr (.call "f(float)" [arg] .void)]

def caller : Checked := unit [k] [f .out none, call (.var (.global "k") float)]

def callee : Checked := unit [k] [definition]

def misled : Checked := unit [] [f .in_ none, call (.const (.float ⟨1065353216⟩))]

def texts : List CheckedText := [
  ⟨"float k;void f(out float x);void main(){f(k);}", caller, by decide +kernel⟩,
  ⟨"float k;void f(out float x){x=2.;}", callee, by decide +kernel⟩,
  ⟨"void f(float x);void main(){f(1.);}", misled, by decide +kernel⟩]

theorem checked {c : Checked} (given : c ∈ [caller, callee, misled]) :
    ∃ u : WrittenUnit, u.check.Gives c := by
  obtain ⟨t,-,rfl⟩ := mem_map.mp (show c ∈ texts.map CheckedText.unit from given)
  exact t.exists_unit

def program (globals : List Global) (arg : Expr) : Linked :=
  ⟨(unit globals [definition, call arg]).program, []⟩

def shared : Linked := program [k] (.var (.global "k") float)

def unwritable : Linked := program [k] (.const (.float ⟨1065353216⟩))

theorem shared_linked : (link [caller, callee]).Gives shared := by
  have linked : ((link [caller,callee]).run.run {}).1 = .ok shared := by cbv
  exact Reporting.gives_of_run linked

theorem unwritable_linked : (link [misled, callee]).Gives unwritable := by
  have linked : ((link [misled,callee]).run.run {}).1 = .ok unwritable := by cbv
  exact Reporting.gives_of_run linked

end Sharing

/-- The units agree, and the call may write its argument. -/
theorem sharing_fits :
    (∀ c ∈ [Sharing.caller, Sharing.callee], ∃ u : WrittenUnit, u.check.Gives c) ∧
      (link [Sharing.caller, Sharing.callee]).Gives Sharing.shared ∧
      Agree ([Sharing.caller, Sharing.callee].map Checked.program) ∧
      (∃ f ∈ Sharing.shared.program.functions, ∃ g args t, .call g args t ∈ f.parts ∧
        ∃ callee, body? Sharing.shared.program g = some callee ∧ callee.returnTy = t ∧
          args.map Expr.ty = callee.params.map Param.ty) ∧
      ∀ f ∈ Sharing.shared.program.functions, ∀ x ∈ f.parts,
        ∀ t ∈ x.written Sharing.shared.program.functionTy?,
          t.Writable (Sharing.shared.program.env f) := by
  have checked : ∀ c ∈ [Sharing.caller,Sharing.callee], ∃ u : WrittenUnit, u.check.Gives c :=
    fun c member => Sharing.checked (by
      simp only [mem_cons,not_mem_nil,or_false] at member ⊢
      tauto)
  have agree : Agree ([Sharing.caller,Sharing.callee].map Checked.program) := by decide
  obtain ⟨calls,-,writes⟩ := link_calls_fit checked Sharing.shared_linked
  refine ⟨checked,Sharing.shared_linked,agree,?_,(writes agree).1⟩
  have member : Sharing.call (.var (.global "k") Sharing.float) ∈ Sharing.shared.program.functions := by
    simp [Sharing.shared,Sharing.program,Sharing.unit]
  have part : .call "f(float)" [.var (.global "k") Sharing.float] .void ∈
      (Sharing.call (.var (.global "k") Sharing.float)).parts := by
    simp [Sharing.call,Sharing.main,Function.parts,Stmt.partsIn,Stmt.parts,Expr.parts]
  exact ⟨_,member,_,_,_,part,calls _ member _ _ _ part⟩

/-- Units that disagree on how a parameter is passed are linked, and the program writes a constant. -/
theorem link_accepts_disagreement :
    (∀ c ∈ [Sharing.misled, Sharing.callee], ∃ u : WrittenUnit, u.check.Gives c) ∧
      (link [Sharing.misled, Sharing.callee]).Gives Sharing.unwritable ∧
      ¬∀ f ∈ Sharing.unwritable.program.functions, ∀ x ∈ f.parts,
        ∀ t ∈ x.written Sharing.unwritable.program.functionTy?,
          t.Writable (Sharing.unwritable.program.env f) := by
  refine ⟨fun c member => Sharing.checked ?_,Sharing.unwritable_linked,fun writable => ?_⟩
  · simp only [mem_cons,not_mem_nil,or_false] at member ⊢
    tauto
  · refine writable (Sharing.call (.const (.float ⟨1065353216⟩))) ?_
      (.call "f(float)" [.const (.float ⟨1065353216⟩)] .void) ?_ (.const (.float ⟨1065353216⟩)) ?_
    · simp [Sharing.unwritable,Sharing.program,Sharing.unit]
    · simp [Sharing.call,Sharing.main,Function.parts,Stmt.partsIn,Stmt.parts,Expr.parts]
    · decide

end Shading.Linked
