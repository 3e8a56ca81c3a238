import Shading.Proofs.Lowering.Acceptance
import Shading.Proofs.Lowering.ProgramWrites

/-! Read-only data is never written. Whatever a module stores to, or passes to a function that writes it,
leads back to a variable that is neither a uniform nor an input, or to a parameter that is not constant. -/
namespace Shading.Lowering
open List Bytecode Typed Linked

variable {p : Program} {code : List Instruction} {i : Instruction}

theorem Relocated.wellTyped (typed : p.WellTyped) {globals : List Global}
    (moved : Relocated p.globals globals) {f : Typed.Function} (mem : f ∈ p.functions) :
    ∀ x ∈ f.parts ++ Program.initParts { p with globals }, x.WellTyped (Program.env { p with globals } f) := by
  rw [show Program.env { p with globals } f = p.env f from (moved.env_eq _ _ _).symm,forall_mem_append]
  refine ⟨fun x part => typed.part mem part,fun x part => ?_⟩
  obtain ⟨g,inside,part⟩ := mem_flatMap.mp part
  obtain ⟨h,old,location,rfl⟩ := moved.mem inside
  refine (typed.initPart (mem_flatMap.mpr ⟨h,old,part⟩)).mono ?_
  exact Env.of_le prefix_rfl id nil_prefix nil_prefix

/-- A parameter that the function writes. -/
def isWritten (param : Instruction) : Bool :=
  match ParamMode.ofCode? (param.operand 2).toNat with
  | some .out | some .inout => true
  | _ => false

theorem ParamOf.passing {q : Param} (declares : ParamOf code q i) (written : isWritten i = true) :
    q.passing ≠ .in_ := by
  obtain ⟨ptr,x,rfl,-⟩ := declares
  grind [Param.ofCode?_mode,paramMode,isWritten,Instruction.operand_eq]

/-- The instruction writes only what may be written: it stores to it, or hands it to a routine that writes
it. -/
def WritesWritable (t : Outline) (i : Instruction) : Prop :=
  match i.op, i.operands with
  | .store, [ptr, _] => Writable t.code ptr
  | .store, _ => False
  | .call, _ :: _ :: f :: args => ∃ r ∈ t.routines, r.id = f ∧
      Forall₂ (fun param arg => isWritten param = true → Writable t.code arg) r.params args
  | .call, _ => False
  | _, _ => True

theorem forall₂_passed {params : List Param} {given : List Instruction} {args : List Id}
    (handed : Forall₂ (ParamOf code) params given) (accepts : Accepts code params args) :
    Forall₂ (fun param arg => isWritten param = true → Writable code arg) given args := by
  induction handed generalizing args with
  | nil =>
    cases accepts
    exact .nil
  | cons ofParam _ ih =>
    cases accepts with
    | cons accepts others => exact .cons (fun written => accepts (ofParam.passing written)) (ih others)

theorem writesWritable_of_respects {t : Outline} {table : List (String × Id)}
    (distinct : (p.functions.map Typed.Function.signature).Nodup)
    (keys : table.map Prod.fst = ((Linked.calleesFirst p).map Typed.Function.signature).reverse)
    (routines : Forall₂ (RoutineOf t.code table (Calls p table)) (Linked.calleesFirst p) t.routines)
    (respects : i.Respects t.code (Calls p table)) : WritesWritable t i := by
  obtain ⟨op,operands⟩ := i
  unfold WritesWritable
  dsimp only
  split
  · exact respects
  · simp_all [Instruction.Respects]
  · obtain ⟨params,calls,accepts⟩ := respects
    grind [Calls.routine,forall₂_passed]
  · simp_all [Instruction.Respects]
  · trivial

/-- Read-only data is never written. -/
theorem lower_writes_writable {u : StageSource} {lib : Source.Library} {c : Checked} {l : Linked}
    {p : Program} {m : Module} (checked : (u.check lib).Gives c) (linked : (link [c]).Gives l)
    (placed : p = l.program ∨ ∃ table, (reflect l.program).Gives (table, p)) (lowered : (lower p).Gives m) :
    ∃ (t : Outline) (h : Header), decode m = .ok (h, t.code) ∧ t.Shaped ∧ t.Valid ∧
      ∀ i ∈ t.code, WritesWritable t i := by
  have moved : RelocatedProgram c.program p := by
    obtain ⟨-,-,moved⟩ := link_alone linked
    rcases placed with rfl | ⟨table,reflected⟩
    · exact moved
    · exact moved.trans (reflect_relocated reflected)
  have scoping := moved.scoped (check_scoped checked)
  obtain ⟨w,-,written⟩ := Reporting.Gives.of_bind checked
  obtain rfl := eq_checkUnit_of_check written
  have typed := checkUnit_wellTyped w
  obtain ⟨t,h,decoded,-,shaped,-,valid,-⟩ := lower_outline scoping lowered
  obtain ⟨globals,relocated,rfl⟩ := moved
  have distinct : (globals.map Global.name).Nodup := by
    rw [← relocated.map_eq fun _ => rfl]
    exact typed.globals.distinct
  obtain ⟨table,keys,routines⟩ := lower_keeps scoping distinct
    (fun f member => Relocated.wellTyped typed relocated member) (fun g member init => by
      obtain ⟨g',old,location,rfl⟩ := relocated.mem member
      have storage := (checkUnit_admitted w g' old).initialized init
      simp [storage]) lowered decoded shaped
  refine ⟨t,h,decoded,shaped,valid,fun i member => ?_⟩
  by_cases writes : i.op = .store ∨ i.op = .call
  · have ⟨r,routine,inside⟩ : ∃ r ∈ t.routines, i ∈ r.body.code := by
      rcases writes with op | op <;>
        exact shaped.mem_body member (by rw [op]; rfl) (by simp [op]) (by simp [op]) (by simp [op])
    obtain ⟨f,-,ofFunction⟩ := exists_of_forall₂ routines.flip routine
    exact writesWritable_of_respects (p := { (checkUnit w).program with globals }) typed.signatures keys routines
      (ofFunction.body i inside)
  · unfold WritesWritable
    split <;> simp_all

/-! A component is handed to a function that writes it, and a global has an initial value. -/
namespace Handed

def float : Ty := .scalar .float

def pair : Ty := .vector .float 2

def f : Function where
  name := "f"
  signature := "f(float,float)"
  returnTy := .void
  params := [⟨"a", float, .in_, true⟩, ⟨"x", float, .out, false⟩]
  locals := []
  body := some [.expr (.assign none (.var (.param 1) float)
    (.binary .add (.var (.param 0) float) (.var (.global "u") float) float))]
  line := 1

def main : Function where
  name := "main"
  signature := "main()"
  returnTy := .void
  params := []
  locals := [⟨"v", pair, false⟩]
  body := some [.declare 0 none,
    .expr (.call "f(float,float)" [.var (.global "g") float, .swizzle (.var (.local_ 0) pair) [1] float] .void),
    .expr (.step true false (.var (.global "g") float))]
  line := 1

/-- The uniform has a place once registers are assigned. -/
def program (place : Option Nat) : Program where
  stage := .fragment
  file := "a"
  globals := [
    { name := "u", ty := float, storage := .uniform, location := place, line := 1 },
    { name := "g", ty := float, storage := .priv, init := some (.const (.float ⟨1065353216⟩)), line := 1 }]
  functions := [f, main]

def text : CheckedText where
  text := "uniform float u;float g=1.;void f(const float a,out float x){x=a+u;}" ++
    "void main(){vec2 v;f(g,v.y);g++;}"
  unit := ⟨program none, []⟩
  passes := by decide +kernel

theorem program_linked : (link [⟨program none, []⟩]).Gives ⟨program none, []⟩ := by
  have ran : ((link [⟨program none,[]⟩]).run.run {}).1 = .ok ⟨program none,[]⟩ := by cbv
  exact Reporting.gives_of_run ran

theorem program_reflected : ∃ table, (reflect (program none)).Gives (table, program (some 0)) := by
  have ran : ((reflect (program none)).run.run {}).1.toOption.map Prod.snd = some (program (some 0)) := by cbv
  obtain ⟨⟨table,p⟩,given,rfl⟩ := Option.map_eq_some_iff.mp ran
  exact ⟨table,gives_of_toOption given⟩

theorem program_lowered : ∃ m, (lower (program (some 0))).Gives m := by
  have ran : ((lower (program (some 0))).run.run {}).1.toOption.isSome = true := by cbv
  obtain ⟨m,given⟩ := Option.isSome_iff_exists.mp ran
  exact ⟨m,gives_of_toOption given⟩

end Handed

/-- A component that a function writes is written through a local variable. -/
theorem handed_component_writable :
    ∃ m, (lower (Handed.program (some 0))).Gives m ∧ ∃ (t : Outline) (h : Header),
      decode m = .ok (h, t.code) ∧ t.Shaped ∧ t.Valid ∧ ∀ i ∈ t.code, WritesWritable t i := by
  obtain ⟨table,reflected⟩ := Handed.program_reflected
  obtain ⟨m,lowered⟩ := Handed.program_lowered
  exact ⟨m,lowered,lower_writes_writable (gives_of_toOption Handed.text.passes) Handed.program_linked
    (.inr ⟨table,reflected⟩) lowered⟩

end Shading.Lowering
