import Shading.Typed.Tree

/-! Locations of stage inputs and outputs. Those that are written in the program stay; the others get
the lowest free ones, in the order of their declarations. -/
namespace Shading.Linked
open Typed

inductive PlaceFault where
  | outOfRange (name : String) (location : Nat)
  | overlap (name : String) (location : Nat) (other : String)
  | noneFree (name : String)
  | bindingTaken (name : String) (binding : Nat) (other : String)
  deriving DecidableEq, Repr

def PlaceFault.message : PlaceFault → String
  | .outOfRange name location =>
    "'" ++ name ++ "' : location " ++ toString location ++ " is out of range"
  | .overlap name location other =>
    "'" ++ name ++ "' : location " ++ toString location ++ " overlaps with '" ++ other ++ "'"
  | .noneFree name => "'" ++ name ++ "' : no free location range"
  | .bindingTaken name binding other =>
    "'" ++ name ++ "' : binding " ++ toString binding ++ " is already used by '" ++ other ++ "'"

/-- Locations that a variable takes, the last one excluded. -/
structure Taken where
  start : Nat
  stop : Nat
  name : String
  deriving DecidableEq, Repr

def Taken.overlaps (t : Taken) (start stop : Nat) : Bool := start < t.stop && t.start < stop

def isPlaced (storage : Storage) (g : Global) : Bool := g.storage == storage && g.builtin.isNone

/-- The ranges that the program itself gives. -/
def explicitRanges (storage : Storage) : List Taken → List Global → Except PlaceFault (List Taken)
  | used, [] => .ok used
  | used, g :: gs =>
    match (if isPlaced storage g then g.location else none) with
    | none => explicitRanges storage used gs
    | some start =>
      let stop := start + g.ty.slots
      if countLimit < stop then .error (.outOfRange g.name start)
      else
        match used.find? fun t => t.overlaps start stop with
        | some other => .error (.overlap g.name start other.name)
        | none => explicitRanges storage (used ++ [⟨start, stop, g.name⟩]) gs

/-- The first start from the given one on at which a number of locations is free. -/
def firstFree? (used : List Taken) (slots start : Nat) : Option Nat :=
  if _fits : start + slots ≤ countLimit then
    match _found : used.find? fun t => t.overlaps start (start + slots) with
    | none => some start
    | some t => firstFree? used slots t.stop
  else none
termination_by countLimit + 1 - start
decreasing_by
  have := List.find?_some _found
  simp only [Taken.overlaps, Bool.and_eq_true, decide_eq_true_eq] at this
  omega

/-- Gives locations to the variables that have none. -/
def fillRanges (storage : Storage) : List Taken → List Global → Except PlaceFault (List Global)
  | _, [] => .ok []
  | used, g :: gs =>
    if isPlaced storage g && g.location.isNone then
      match firstFree? used g.ty.slots 0 with
      | none => .error (.noneFree g.name)
      | some start =>
        (fillRanges storage (used ++ [⟨start, start + g.ty.slots, g.name⟩]) gs).map
          ({ g with location := some start } :: ·)
    else (fillRanges storage used gs).map (g :: ·)

def placeStorage (storage : Storage) (gs : List Global) : Except PlaceFault (List Global) := do
  fillRanges storage (← explicitRanges storage [] gs) gs

/-- No two uniforms have one binding. -/
def checkBindings : List (Nat × String) → List Global → Except PlaceFault Unit
  | _, [] => .ok ()
  | used, g :: gs =>
    match g.binding with
    | none => checkBindings used gs
    | some b =>
      match used.lookup b with
      | some other => .error (.bindingTaken g.name b other)
      | none => checkBindings (used ++ [(b, g.name)]) gs

def placeInterface (p : Program) : Except PlaceFault Program := do
  let globals ← placeStorage .input p.globals
  let globals ← placeStorage .output globals
  let p := { p with globals }
  checkBindings [] p.uniforms
  return p

end Shading.Linked
