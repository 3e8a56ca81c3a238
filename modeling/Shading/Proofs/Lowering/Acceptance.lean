import Shading.Proofs.Linked.Merging
import Shading.Proofs.Lowering.Validity
import Shading.Proofs.Typed.Equality

/-! A program that was checked, linked alone and given registers can be lowered, if it calls early and writes
directly. -/
namespace Shading.Linked
open Typed

theorem RelocatedProgram.trans {p q r : Program} (first : RelocatedProgram p q)
    (second : RelocatedProgram q r) : RelocatedProgram p r := by
  obtain ⟨globals,moved,rfl⟩ := first
  obtain ⟨globals',moved',rfl⟩ := second
  exact ⟨globals',moved.trans moved',rfl⟩

theorem entry?_of_checkEntry {p : Program} (checked : checkEntry p = .ok ()) : p.entry?.isSome = true := by
  grind [checkEntry,Program.entry?]

theorem Relocated.env_eq {gs gs' : List Global} (moved : Relocated gs gs')
    (functions : String → Option (List (Ty × Passing) × Ty)) (params : List Param) (locals : List Local) :
    Env.of gs functions params locals = Env.of gs' functions params locals := by
  have found (name : String) : ((gs.find? fun g => g.name == name).map fun g => (g.ty, g.access)) =
      (gs'.find? fun g => g.name == name).map fun g => (g.ty, g.access) := by
    have same := congrArg (fun l => (l.find? fun g => g.name == name).map fun g => (g.ty, g.access)) moved
    simp only [List.find?_map,Option.map_map] at same
    exact same
  unfold Env.of
  congr 1
  funext v
  cases v with
  | global name => exact found name
  | local_ i => rfl
  | param i => rfl

theorem Relocated.flatMap_init {α : Type} {gs gs' : List Global} (moved : Relocated gs gs')
    (f : Option Expr → List α) : (gs.flatMap fun g => f g.init) = gs'.flatMap fun g => f g.init := by
  have same := congrArg (List.flatMap f) (moved.map_eq (f := Global.init) fun _ => rfl)
  simpa only [List.flatMap_map] using same

end Shading.Linked

namespace Shading.Lowering
open Typed Linked

theorem lowerable_of_relocated {p q : Program} (moved : RelocatedProgram p q) (typed : p.WellTyped)
    (scoping : p.Scoped) (entry : checkEntry p = .ok ()) (calls : checkCalls p = .ok ())
    (early : CallsEarly q) (direct : WritesDirectly q) : Lowerable q := by
  have start := moved
  obtain ⟨globals,moved,rfl⟩ := moved
  have inits : Program.initParts { p with globals } = p.initParts :=
    (moved.flatMap_init Stmt.optionParts).symm
  refine ⟨fun f mem body hasBody s inside => ?_,fun x part => ?_,start.scoped scoping,?_,?_,
    early,direct⟩
  · have seen : Program.env { p with globals } f = p.env f := (moved.env_eq _ _ _).symm
    rw [seen]
    exact typed.bodies f mem body hasBody s inside
  · have seen : Program.initEnv { p with globals } = p.initEnv := (moved.env_eq _ _ _).symm
    rw [inits] at part
    rw [seen]
    exact typed.initPart part
  · exact entry?_of_checkEntry entry
  · have order : calleesFirst p = calleesFirst { p with globals } := calleesFirst_congr rfl
    rw [← order]
    exact calleesFirst_calleesBefore calls

/-- A source that is checked, linked alone and given registers has code, if it calls early and writes
directly. Only an instruction that is too long for the format keeps the code from being a module. -/
theorem lower_accepts {u : StageSource} {lib : Source.Library} {c : Checked} {l : Linked}
    {table : UniformTable} {p : Program} (checked : (u.check lib).Gives c) (linked : (link [c]).Gives l)
    (reflected : (reflect l.program).Gives (table, p)) (early : CallsEarly p) (direct : WritesDirectly p) :
    ∃ code, (lowerCode p).run' {} = .ok code ∧ (code.length < 2 ^ 32 - 1 →
      ((∃ m, (lower p).Always m) ↔ ∀ i ∈ code, i.Short)) := by
  obtain ⟨entry,calls,moved⟩ := link_alone linked
  obtain ⟨w,-,written⟩ := Reporting.Gives.of_bind checked
  have typed : c.program.WellTyped := by
    rw [eq_checkUnit_of_check written]
    exact checkUnit_wellTyped w
  exact (lowerable_of_relocated (moved.trans (reflect_relocated reflected)) typed (check_scoped checked)
    entry calls early direct).lower

/-! A global whose initial value is the result of a call. -/
namespace Initial

def float : Ty := .scalar .float

def pair : Ty := .vector .float 2

def value : Expr := .call "f()" [] float

def g : Global := { name := "g", ty := float, storage := .priv, init := some value, line := 1 }

def f : Function where
  name := "f"
  signature := "f()"
  returnTy := float
  params := []
  locals := []
  body := some [.return_ (some (.const (.float ⟨1065353216⟩)))]
  line := 1

def unit (locals : List Local) (body : List Stmt) : Checked :=
  ⟨{ stage := .fragment, file := "a", globals := [g], functions := [f, {
    name := "main", signature := "main()", returnTy := .void, params := [], locals, body := some body
    line := 1 }] }, []⟩

/-- The entry point calls the function too, and so it comes after it. -/
def early : Checked :=
  unit [⟨"v", pair, false⟩] [.declare 0 none,
    .expr (.assign none (.index (.swizzle (.var (.local_ 0) pair) [1, 0] pair) (.const (.int 1)) float)
      value)]

def late : Checked := unit [] []

/-- The unit is the check of a text, and stays what it is when it is linked and given registers. -/
def Prepared (c : Checked) : Prop :=
  (∃ (u : StageSource) (lib : Source.Library), (u.check lib).Gives c) ∧
    (link [c]).Gives ⟨c.program, []⟩ ∧ (reflect c.program).Gives ([], c.program)

def earlyText : CheckedText :=
  ⟨"float f(){return 1.;}float g=f();void main(){vec2 v;v.yx[1]=f();}", early, by decide +kernel⟩

def lateText : CheckedText := ⟨"float f(){return 1.;}float g=f();void main(){}", late, by decide +kernel⟩

theorem early_prepared : Prepared early := by
  have linked : ((link [early]).run.run {}).1 = .ok ⟨early.program,[]⟩ := by cbv
  have reflected : ((reflect early.program).run.run {}).1 = .ok ([], early.program) := by cbv
  exact ⟨⟨_,_,gives_of_toOption earlyText.passes⟩,Reporting.gives_of_run linked,Reporting.gives_of_run reflected⟩

theorem late_prepared : Prepared late := by
  have linked : ((link [late]).run.run {}).1 = .ok ⟨late.program,[]⟩ := by cbv
  have reflected : ((reflect late.program).run.run {}).1 = .ok ([], late.program) := by cbv
  exact ⟨⟨_,_,gives_of_toOption lateText.passes⟩,Reporting.gives_of_run linked,Reporting.gives_of_run reflected⟩

end Initial

/-- The initial value calls what the entry point calls, and the program is lowered. -/
theorem initial_call_accepted : Initial.Prepared Initial.early ∧ CallsEarly Initial.early.program ∧
      WritesDirectly Initial.early.program ∧ ∃ m, (lower Initial.early.program).Always m := by
  obtain ⟨⟨u,lib,checked⟩,linked,reflected⟩ := Initial.early_prepared
  have order : ((calleesFirst Initial.early.program).takeWhile fun f => !f.isEntry).map
      Function.signature = ["f()"] := by cbv
  have early : CallsEarly Initial.early.program := by
    rw [CallsEarly,order]
    decide
  have direct : WritesDirectly Initial.early.program := by decide
  have fits : ((lowerCode Initial.early.program).run' {}).map (fun code =>
      decide (code.length < 2 ^ 32 - 1) && code.all fun i => decide i.Short) = .ok true := by cbv
  refine ⟨Initial.early_prepared,early,direct,?_⟩
  obtain ⟨code,ran,accepted⟩ := lower_accepts checked linked reflected early direct
  rw [ran] at fits
  simp only [Except.map,Except.ok.injEq,Bool.and_eq_true,decide_eq_true_eq,List.all_eq_true] at fits
  exact (accepted fits.1).mpr fits.2

/-- A program that was checked, linked and given registers is not lowered if its initial value calls a
function that comes after the entry point. -/
theorem lower_refuses_late_call :
    Initial.Prepared Initial.late ∧ WritesDirectly Initial.late.program ∧
      ¬∃ m, (lower Initial.late.program).Gives m := by
  refine ⟨Initial.late_prepared,by decide,fun ⟨m,given⟩ => ?_⟩
  have found : ((lowerProgram Initial.late.program).run' {}).map (fun m => m.findings.head?.isSome) =
      .ok true := by cbv
  unfold lower at given
  split at given
  · exact Reporting.not_gives_throw given
  · rename_i ran
    rw [ran] at found
    split at given
    · exact Reporting.not_gives_throw given
    · rename_i clean
      simp [Except.map,clean] at found

end Shading.Lowering
