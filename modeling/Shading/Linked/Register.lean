import Shading.Diagnostic
import Shading.Typed.Tree
import Shading.Uniform

/-! Registers of uniforms: consecutive ranges in the order of declaration, one register for each value.
The first register of a uniform is its location. -/
namespace Shading.Linked
open Reporting Typed

inductive RegisterFault where
  | noValues (name : String) (ty : Ty)
  | overflow (name : String)
  deriving DecidableEq, Repr

def RegisterFault.message : RegisterFault → String
  | .noValues name ty => "'" ++ name ++ "' : malformed array type '" ++ ty.text ++ "'"
  | .overflow name => "'" ++ name ++ "' : register index overflow"

def tell (g : Global) (u : Uniform) : Reporting RegisterFault Unit :=
  note .trace (g.name ++ ", " ++ u.kind.name ++ ", " ++ toString u.count.toNat ++ ", " ++
    toString u.register.toNat ++ ", " ++ toString u.count.toNat)

def assignRegisters : Nat → List Global → Reporting RegisterFault (UniformTable × List Global)
  | _, [] => return ([], [])
  | next, g :: gs =>
    if g.storage == .uniform then do
      let count := g.ty.count
      if count = 0 then throw (.noValues g.name g.ty)
      let u := Uniform.ofTy g.name g.ty.base count next
      if u.kind = .unknown then
        note .debug ("uniform '" ++ g.name ++ "' of type '" ++ g.ty.text ++
          "' has no register category")
      if countLimit < next + count then throw (.overflow g.name)
      tell g u
      let (us, gs) ← assignRegisters (next + count) gs
      return (u :: us, { g with location := some next } :: gs)
    else do
      let (us, gs) ← assignRegisters next gs
      return (us, g :: gs)

def reflect (p : Program) : Reporting RegisterFault (UniformTable × Program) := do
  let (table, globals) ← assignRegisters 0 p.globals
  note .debug ("reflected " ++ toString table.length ++ " uniforms using " ++
    toString table.registerCount ++ " registers")
  return (table, { p with globals })

end Shading.Linked
