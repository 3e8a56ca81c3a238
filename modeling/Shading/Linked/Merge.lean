import Shading.Linked.CallGraph

/-! One program out of checked units. A name means the same in all of them: a global has one type, one
place and one initializer, and an overload one body. -/
namespace Shading.Linked
open Typed

/-- A place that both units may give, if they give the same. -/
def mergePlace (name what : String) : Option Nat → Option Nat → Except Cause (Option Nat)
  | some a, some b => if a = b then .ok (some a) else .error (.placeMismatch name what a b)
  | some a, none => .ok (some a)
  | none, b => .ok b

/-- What a later declaration adds to a global. -/
def mergeGlobal (g h : Global) : Except Cause Global := do
  if g.ty ≠ h.ty ∨ g.storage ≠ h.storage then throw (.globalMismatch h.name g.ty h.ty)
  let location ← mergePlace h.name "location" g.location h.location
  let binding ← mergePlace h.name "binding" g.binding h.binding
  if h.init.isSome && g.init.isSome then throw (.secondInit h.name)
  return { g with location, binding, init := h.init.or g.init }

def addGlobal (h : Global) : List Global → Except Cause (List Global)
  | [] => .ok [h]
  | g :: gs =>
    if g.name = h.name then (mergeGlobal g h).map (· :: gs) else (addGlobal h gs).map (g :: ·)

/-- A body takes the place of a prototype. -/
def mergeFunction (f g : Function) : Except Cause Function :=
  if f.returnTy ≠ g.returnTy then .error (.overloadReturn g.name)
  else if g.body.isNone then .ok f
  else if f.body.isSome then .error (.secondBody g.signature)
  else .ok g

def addFunction (g : Function) : List Function → Except Cause (List Function)
  | [] => .ok [g]
  | f :: fs =>
    if f.signature = g.signature then (mergeFunction f g).map (· :: fs)
    else (addFunction g fs).map (f :: ·)

def placed {α : Type} (file : String) (line : Nat) : Except Cause α → Except Fault α :=
  Except.mapError fun cause => ⟨file, line, cause⟩

def mergeLocalSize : Option WorkGroup → Option WorkGroup → Except Cause (Option WorkGroup)
  | some a, some b => if a = b then .ok (some a) else .error (.localSizeMismatch a b)
  | some a, none => .ok (some a)
  | none, b => .ok b

/-- The merged program with one more unit. -/
def absorb (p u : Program) : Except Fault Program := do
  if u.stage ≠ p.stage then throw ⟨u.file, 0, .stageMismatch p.stage u.stage⟩
  if u.es ≠ p.es then throw ⟨u.file, 0, .mixedProfiles⟩
  let localSize ← placed u.file 0 (mergeLocalSize p.localSize u.localSize)
  let globals ← u.globals.foldlM (fun gs g => placed u.file g.line (addGlobal g gs)) p.globals
  let functions ←
    u.functions.foldlM (fun fs f => placed u.file f.line (addFunction f fs)) p.functions
  return { p with version := max p.version u.version, localSize, globals, functions }

def checkEntry (p : Program) : Except Fault Unit :=
  match p.functions.countP fun f => f.isEntry && f.body.isSome with
  | 1 => .ok ()
  | 0 => .error ⟨p.file, 0, .noEntry⟩
  | _ => .error ⟨p.file, 0, .secondBody entryName⟩

def mergeUnits : List Program → Except Fault Program
  | [] => .error ⟨"", 0, .noUnits⟩
  | p :: us => us.foldlM absorb p

def merge (us : List Program) : Except Fault Program := do
  let p ← mergeUnits us
  checkEntry p
  checkCalls p
  return p

end Shading.Linked
