import Shading.Proofs.Optimization
import Shading.Proofs.Pass.DeadCodeBehavior
import Shading.Proofs.Pass.FoldBehavior

/-! Optimization preserves what lowered programs do: from every contents of the variables of the module, on
every machine, the optimized module returns, is killed or goes on forever as the lowered one does, and leaves
the same contents. -/
namespace Shading.Bytecode
open Lowering Execution

namespace Outline

variable {V : Type} {m : Machine V} {t t' : Outline}

theorem Healthy.behaves_legal (healthy : t.Healthy) (inside : t.Scoped) (init : Nat → V)
    (seen : Behavior V) : t.legal.Behaves m init seen ↔ t.Behaves m init seen := by
  obtain ⟨first,kept,-,second⟩ := healthy.legal_trims inside
  calc t.legal.Behaves m init seen
      ↔ (t.keep t.live).prune.reach.Behaves m init seen := second.behaves_prune kept.valid init seen
    _ ↔ (t.keep t.live).prune.Behaves m init seen := behaves_reach init seen
    _ ↔ (t.keep t.live).Behaves m init seen := first.behaves_prune healthy.valid init seen
    _ ↔ t.Behaves m init seen := healthy.valid.behaves_keep healthy.shaped inside init seen

theorem Optimized.behaves {full : Bool} (optimized : t.Optimized full t') (healthy : t.Healthy)
    (inside : t.Scoped) (room : full = true → t.legal.Roomy ∧ t.code.length < 2 ^ 32) (init : Nat → V)
    (seen : Behavior V) : t'.Behaves m init seen ↔ t.Behaves m init seen := by
  obtain ⟨legal,visible,-⟩ := healthy.legal inside
  have legalized := healthy.behaves_legal (m := m) inside init seen
  cases optimized with
  | legal => exact legalized
  | @full last swept =>
    obtain ⟨room,small⟩ := room rfl
    obtain ⟨folded,trims,trimmed,unnamed,length⟩ := swept.stages healthy inside room
    have count := Nat.lt_of_le_of_lt length small
    calc last.prune.unname.compact.Behaves m init seen
        ↔ last.prune.unname.Behaves m init seen :=
          unnamed.valid.behaves_rename unnamed.shaped (compact_apart count) init seen
      _ ↔ last.prune.Behaves m init seen := trimmed.valid.behaves_unname trimmed.shaped init seen
      _ ↔ last.Behaves m init seen := trims.behaves_prune folded.valid init seen
      _ ↔ t.legal.fold.Behaves m init seen := swept.behaves folded.valid folded.shaped init seen
      _ ↔ t.legal.Behaves m init seen := legal.valid.behaves_fold legal.shaped visible room init seen
      _ ↔ t.Behaves m init seen := legalized

end Outline

namespace Module

def outline? (m : Module) : Option Outline :=
  match decode m with
  | .ok (_, code) => Outline.ofCode? code
  | .error _ => none

/-- The module on a machine, with the given contents of its variables, behaves so. -/
def Behaves {V : Type} (m : Module) (machine : Machine V) (init : Nat → V) (seen : Behavior V) : Prop :=
  ∃ t, m.outline? = some t ∧ t.Behaves machine init seen

theorem behaves_iff {V : Type} {m : Module} {machine : Machine V} {h : Header} {t : Outline}
    (decoded : decode m = .ok (h, t.code)) (shaped : t.Shaped) (init : Nat → V) (seen : Behavior V) :
    m.Behaves machine init seen ↔ t.Behaves machine init seen := by
  have found : m.outline? = some t := by
    rw [outline?,decoded]
    exact shaped.ofCode?_code
  simp [Behaves,found]

end Module

/-- Whether only the passes that every module goes through are run or all of them, the module behaves in
exactly one way, and so does what they leave of it. -/
theorem optimize_behaves {p : Typed.Program} {m : Module} {full : Bool} (source : String)
    (origin : Linked.FromSource p) (lowered : (lower p).Gives m) (room : full = true → m.HasRoom)
    {V : Type} (machine : Machine V) (init : Nat → V) :
    ∃ m' seen, (optimize m full source).Always m' ∧
      (∀ seen', m.Behaves machine init seen' ↔ seen' = seen) ∧
      ∀ seen', m'.Behaves machine init seen' ↔ seen' = seen := by
  obtain ⟨t,h,decoded,current,healthy,inside,below⟩ := lower_healthy origin lowered
  have room : full = true → h.bound.toNat + t.code.length ≤ 2 ^ 32 := fun on => room on h t.code decoded
  obtain ⟨t',m',h',optimized,always,decoded',healthy',-⟩ :=
    healthy.optimize inside decoded current below room
  obtain ⟨r,member,main⟩ := (healthy.valid.runnable healthy.shaped).main
  obtain ⟨r',found⟩ := Outline.exists_routine? member
  have runs : t.main? = some r' := by rw [Outline.main?,main,Option.bind_some,found]
  obtain ⟨seen,unique⟩ := Outline.behaves_unique (m := machine) runs init
  refine ⟨m',seen,always,fun seen' => ?_,fun seen' => ?_⟩
  · rw [Module.behaves_iff decoded healthy.shaped,unique]
  · rw [Module.behaves_iff decoded' healthy'.shaped,
      optimized.behaves healthy inside (fun on => healthy.roomy inside below (room on)),unique]

namespace Sample

/-- A machine that knows scalars only. -/
def machine : Machine Const where
  scalar c := c
  truth := Const.toBool
  apply op shape literals arguments :=
    match op, literals, arguments with
    | .binary, w :: _, [a, b] =>
      ((BinaryOp.ofCode? w.toNat).bind fun op => Const.binary? op a b).getD (.bool false)
    | .unary, w :: _, [a] => ((UnaryOp.ofCode? w.toNat).bind fun op => Const.unary? op a).getD (.bool false)
    | .construct, _, [a] => (shape.scalar?.map fun kind => a.cast kind).getD (.bool false)
    | _, _, _ => .bool false
  unset _ := .bool false
  part v _ := v
  update _ _ v := v
  truth_scalar _ := rfl
  apply_binary operator computed _ := by simp [operator, computed]
  apply_unary operator computed _ := by simp [operator, computed]
  apply_construct typed := by simp [typed]

def contents (n : Nat) : Const := if n = 0 then .float ⟨1073741824⟩ else .bool false

end Sample

/-- The sample stores six, and so does what is left of it. -/
theorem optimize_behaves_sample : Linked.FromSource Sample.program ∧
      (lower Sample.program).Gives Sample.module ∧ Sample.module.HasRoom ∧
      (Sample.module.outline?.bind fun t => t.main?.bind fun r =>
        t.outcome Sample.machine r (t.start Sample.machine Sample.contents) 1).map
          (fun seen => (seen.1, seen.2 1)) = some (.returned, .float ⟨1086324736⟩) ∧
      ∃ m' seen, (optimize Sample.module true "a").Always m' ∧
        (∀ seen', Sample.module.Behaves Sample.machine Sample.contents seen' ↔ seen' = seen) ∧
        ∀ seen', m'.Behaves Sample.machine Sample.contents seen' ↔ seen' = seen :=
  ⟨Sample.program_fromSource,Sample.program_lowered,Sample.module_hasRoom,by decide +kernel,
    optimize_behaves "a" Sample.program_fromSource Sample.program_lowered
      (fun _ => Sample.module_hasRoom) Sample.machine Sample.contents⟩

end Shading.Bytecode
