import Shading.Typed.Tree

/-! What the globals of a program use of its stage's resources. -/
namespace Shading.Typed

inductive Resource where
  | samplers
  | uniformComponents
  | inputs
  | outputs
  deriving DecidableEq, Repr

namespace Resource

def limit? (stage : Stage) : Resource → Option Nat
  | .samplers => some stage.limits.textureUnits
  | .uniformComponents => some stage.limits.uniformComponents
  | .inputs => if stage.limits.inputLocations = 0 then none else some stage.limits.inputLocations
  | .outputs => if stage.limits.outputLocations = 0 then none else some stage.limits.outputLocations

def complaint (stage : Stage) (used limit : Nat) : Resource → String
  | .samplers => "too many samplers: " ++ toString used ++ " (max " ++ toString limit ++ ")"
  | .uniformComponents =>
    "too many uniform components: " ++ toString used ++ " (max " ++ toString limit ++ ")"
  | .inputs =>
    "too many " ++ stage.name ++ " inputs: " ++ toString used ++ " locations (max " ++
      toString limit ++ ")"
  | .outputs =>
    "too many " ++ stage.name ++ " outputs: " ++ toString used ++ " locations (max " ++
      toString limit ++ ")"

end Resource

/-- What a global uses. Variables that the stage itself has are free. -/
def Global.usage? (g : Global) : Option (Resource × Nat) :=
  if g.builtin.isSome then none
  else
    match g.storage with
    | .uniform =>
      if g.ty.base.isSampler then some (.samplers, g.ty.count)
      else some (.uniformComponents, mulCount g.ty.base.components g.ty.count)
    | .input => some (.inputs, g.ty.slots)
    | .output => some (.outputs, g.ty.slots)
    | .priv => none

/-- The line of a global and what is said of it: for each resource the first global that passes its
limit. -/
def overuse (stage : Stage) (used : Resource → Nat) (told : List Resource) :
    List Global → List (Nat × String)
  | [] => []
  | g :: gs =>
    match g.usage? with
    | none => overuse stage used told gs
    | some (r, n) =>
      let total := min countLimit (used r + n)
      let used' := fun q => if q = r then total else used q
      match r.limit? stage with
      | some limit =>
        if limit < total ∧ r ∉ told then
          (g.line, r.complaint stage total limit) :: overuse stage used' (r :: told) gs
        else overuse stage used' told gs
      | none => overuse stage used' told gs

def Program.overuse (p : Program) : List (Nat × String) :=
  Typed.overuse p.stage (fun _ => 0) [] p.globals

end Shading.Typed
