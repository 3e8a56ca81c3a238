import Shading.Proofs.Linked.Merging
import Shading.Proofs.Lowering.ProgramCode
import Shading.Proofs.Pass.Pipeline
import Shading.Proofs.Typed.Equality

/-! Optimization of lowered programs: it always gives a module, nothing is found wrong with that module,
and it has the decorations that the lowered one has. -/
namespace Shading.Bytecode
open Pass Lowering

def Module.HasRoom (m : Module) : Prop :=
  ∀ h code, decode m = .ok (h, code) → h.bound.toNat + code.length ≤ 2 ^ 32

theorem instructions_of_decode {m : Module} {h : Header} {code : List Instruction}
    (decoded : decode m = .ok (h, code)) : m.instructions = .ok code := by
  obtain ⟨_,-,decoded⟩ := Except.bind_eq_ok.mp decoded
  obtain ⟨code',read,decoded⟩ := Except.bind_eq_ok.mp decoded
  cases decoded
  exact read

theorem lower_healthy {p : Typed.Program} (origin : Linked.FromSource p) {m : Module}
    (lowered : (lower p).Gives m) :
    ∃ (t : Outline) (h : Header), decode m = .ok (h, t.code) ∧ h.Current ∧ t.Healthy ∧ t.Scoped ∧
      ∀ x ∈ results t.code, x < h.bound := by
  obtain ⟨t,h,decoded,current,shaped,inside,valid,below,written⟩ :=
    lower_outline origin.program_scoped lowered
  exact ⟨t,h,decoded,current,⟨shaped,valid,inside.decorated,written⟩,inside,below⟩

/-- Whether only the passes that every module goes through are run or all of them, none fails, nothing
is found wrong with what they leave, and decorations are on what has the same names, in the same order. -/
theorem optimize_lowered {p : Typed.Program} {m : Module} {full : Bool} (source : String)
    (origin : Linked.FromSource p) (lowered : (lower p).Gives m) (room : full = true → m.HasRoom) :
    ∃ m' h h' code code', (optimize m full source).Always m' ∧ m'.findings = [] ∧
      decode m = .ok (h, code) ∧ decode m' = .ok (h', code') ∧
      decorations code' = decorations code := by
  obtain ⟨t,h,decoded,current,healthy,inside,below⟩ := lower_healthy origin lowered
  obtain ⟨t',m',h',-,always,decoded',-,none,same⟩ :=
    healthy.optimize inside decoded current below fun on => room on h t.code decoded
  exact ⟨m',h,h',t.code,t'.code,always,none,decoded,decoded',same⟩

namespace Sample

/-- A shader that multiplies a uniform by an operation on constants. -/
def source : StageSource where
  stage := .fragment
  file := "a"
  text := "uniform float k;float g;void main(){g=k*(1.+2.);}"
  preamble := ""

def float : Ty := .scalar .float

/-- The value that is stored. -/
def value : Typed.Expr :=
  .binary .mul (.var (.global "k") float)
    (.binary .add (.const (.float ⟨1065353216⟩)) (.const (.float ⟨1073741824⟩)) float) float

/-- What the text says, with the place of the uniform if it has one. -/
def programAt (place : Option Nat) : Typed.Program where
  stage := .fragment
  file := "a"
  globals := [
    { name := "k", ty := float, storage := .uniform, location := place, line := 1 },
    { name := "g", ty := float, storage := .priv, line := 1 }]
  functions := [
    { name := "main", signature := "main()", returnTy := .void, params := [], locals := []
      body := some [.expr (.assign none (.var (.global "g") float) value)]
      line := 1 }]

def program : Typed.Program := programAt (some 0)

/-- The words that the program is lowered to. -/
def module : Module where
  words := [
    1481854023, 65536, 0, 14, 1, 196613, 100, 1, 131074, 1, 262145, 1, 1852399981, 0, 196609, 4, 107,
    196609, 6, 103, 262148, 4, 0, 0, 131085, 2, 262163, 3, 0, 2, 262166, 3, 4, 0, 262163, 5, 3, 2,
    262166, 5, 6, 3, 131082, 7, 196626, 8, 7, 262164, 2, 10, 1065353216, 262164, 2, 11, 1073741824,
    262174, 7, 1, 8, 262184, 2, 9, 4, 393259, 2, 12, 0, 10, 11, 393259, 2, 13, 2, 9, 12, 196649, 6, 13,
    65605, 65568]

def checked : Linked.CheckedText := ⟨source.text, ⟨programAt none, []⟩, by decide +kernel⟩

theorem program_fromSource : Linked.FromSource program := by
  have linked : ((link [⟨programAt none,[]⟩]).run.run {}).1 = .ok ⟨programAt none,[]⟩ := by cbv
  have reflected : ((Linked.reflect (programAt none)).run.run {}).1.map Prod.snd = .ok program := by cbv
  obtain ⟨⟨table,_⟩,reflected,rfl⟩ := Except.map_eq_ok.mp reflected
  refine ⟨[⟨programAt none,[]⟩],⟨programAt none,[]⟩,table,fun c mem => ?_,
    Reporting.gives_of_run linked,Reporting.gives_of_run reflected⟩
  rw [List.mem_singleton.mp mem]
  exact ⟨source,({} : Source.HeaderStore).library,Linked.gives_of_toOption checked.passes⟩

theorem program_lowered : (lower program).Gives module := by
  have lowered : ((lower program).run.run {}).1 = .ok module := by cbv
  exact Reporting.gives_of_run lowered

theorem module_hasRoom : module.HasRoom := by
  have small : (decode module).toOption.all (fun r => r.1.bound.toNat + r.2.length ≤ 2 ^ 32) = true := by
    cbv
  intro h code decoded
  rw [decoded] at small
  exact of_decide_eq_true small

end Sample

/-- The sample keeps the decoration of its uniform. -/
theorem optimize_sample : Linked.FromSource Sample.program ∧
      (lower Sample.program).Gives Sample.module ∧ Sample.module.HasRoom ∧
      ∃ m' h h' code code', (optimize Sample.module true "a").Always m' ∧ m'.findings = [] ∧
        decode Sample.module = .ok (h, code) ∧ decode m' = .ok (h', code') ∧
        decorations code' = decorations code :=
  ⟨Sample.program_fromSource,Sample.program_lowered,Sample.module_hasRoom,
    optimize_lowered "a" Sample.program_fromSource Sample.program_lowered
      fun _ => Sample.module_hasRoom⟩

end Shading.Bytecode
