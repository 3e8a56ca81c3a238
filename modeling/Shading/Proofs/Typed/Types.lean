import Mathlib
import Shading.Builtin.Func
import Shading.Builtin.Var
import Shading.Const

/-! The types that a program can write: those with a name, and arrays of them. What operators, indices
and functions of the language make of such types can be written again. -/
namespace Shading
open List

variable {k : Scalar} {n : Nat} {t l r : Ty} {name : String}

namespace Ty

def Denoted : Ty → Prop
  | .array e n => e.Denoted ∧ e ≠ .void ∧ 0 < n
  | t => t ∈ named

attribute [local simp] Denoted named in
@[simp] theorem denoted_scalar (k : Scalar) : (Ty.scalar k).Denoted := by
  cases k <;> simp

@[simp] theorem denoted_vector : (Ty.vector k n).Denoted ↔ 2 ≤ n ∧ n ≤ 4 := by
  cases k <;> simp [Denoted,named] <;> omega

@[simp] theorem denoted_matrix {c r : Nat} :
    (Ty.matrix c r).Denoted ↔ (2 ≤ c ∧ c ≤ 4) ∧ 2 ≤ r ∧ r ≤ 4 := by
  simp only [Denoted,named]
  simp
  omega

theorem denoted_void : Ty.void.Denoted := by simp [Denoted,named]

theorem denoted_of_mem_named (mem : t ∈ named) : t.Denoted := by
  cases t with
  | array e n => simp [named] at mem
  | _ => exact mem

theorem denoted_ofName? (found : ofName? name = some t) : t.Denoted := by
  obtain ⟨before,after,eq,-⟩ := lookup_eq_some_iff.mp found
  have spelled : (name, t) ∈ spellings := by simp [eq]
  rcases mem_append.mp spelled with plain | square
  · obtain ⟨t',mem,same⟩ := mem_map.mp plain
    cases same
    exact denoted_of_mem_named mem
  grind [denoted_matrix]

/-- The words of a module hold the sizes of the type. -/
def Fits : Ty → Prop
  | .vector _ n => n < 256
  | .matrix c r => c < 256 ∧ r < 256
  | .array e n => e.Fits ∧ n < 2 ^ 32
  | _ => True

theorem fits_of_mem_named (mem : t ∈ named) : t.Fits := by
  have denoted := denoted_of_mem_named mem
  cases t with
  | vector k n =>
    have small := denoted_vector.mp denoted
    exact show n < 256 by omega
  | matrix c r =>
    have small := denoted_matrix.mp denoted
    exact show c < 256 ∧ r < 256 by omega
  | array e n => simp [named] at mem
  | _ => trivial

theorem fits_ofName? (found : ofName? name = some t) : t.Fits := by
  have denoted := denoted_ofName? found
  cases t with
  | array e n =>
    obtain ⟨before,after,eq,-⟩ := lookup_eq_some_iff.mp found
    have mem : (name, .array e n) ∈ spellings := by simp [eq]
    simp [spellings,named] at mem
  | _ => exact fits_of_mem_named denoted

theorem denoted_ofSize (positive : 0 < n) (small : n ≤ 4) : (ofSize k n).Denoted := by
  unfold ofSize
  split
  · exact denoted_scalar k
  · exact denoted_vector.mpr ⟨by omega,small⟩

theorem Denoted.element? {e : Ty} (denoted : t.Denoted) (found : t.element? = some e) :
    e.Denoted := by
  cases t with
  | array element n =>
    cases found
    exact denoted.1
  | vector k n =>
    cases found
    exact denoted_scalar k
  | matrix c r =>
    cases found
    exact denoted_vector.mpr (denoted_matrix.mp denoted).2
  | _ => cases found

theorem Denoted.withKind? {t' : Ty} (denoted : t.Denoted) (found : t.withKind? k = some t') :
    t'.Denoted := by
  cases t with
  | scalar j =>
    cases found
    exact denoted_scalar k
  | vector j n =>
    cases found
    exact denoted_vector.mpr (denoted_vector.mp denoted)
  | matrix c r =>
    simp only [Ty.withKind?] at found
    split at found
    · cases found
      exact denoted
    · cases found
  | _ => cases found

end Ty

namespace BinaryOp

section

variable (left : l.Denoted) (right : r.Denoted)
include left right

theorem denoted_meet? (found : meet? l r = some t) : t.Denoted := by
  grind [meet?]

theorem denoted_product? (found : product? l r = some t) : t.Denoted := by
  unfold product? at found
  split at found
  · grind [Ty.denoted_matrix]
  · split at found
    · cases found
      exact Ty.denoted_vector.mpr (Ty.denoted_matrix.mp left).2
    · cases found
  · split at found
    · cases found
      exact Ty.denoted_vector.mpr (Ty.denoted_matrix.mp right).1
    · cases found
  · exact denoted_meet? left right found

theorem denoted_resultTy? {op : BinaryOp} (found : op.resultTy? l r = some t) : t.Denoted := by
  unfold resultTy? at found
  split at found <;> split at found <;> first
    | cases found; done
    | exact denoted_meet? left right found
    | exact denoted_product? left right found
    | cases found; exact left
    | cases found; exact Ty.denoted_scalar _

end

end BinaryOp

namespace Builtin

theorem Var.denoted_ty (v : Var) : v.ty.Denoted := by
  cases v <;> simp [Var.ty,Ty.vec]

theorem Var.fits_ty (v : Var) : v.ty.Fits := by
  cases v <;> simp [Var.ty,Ty.vec,Ty.Fits]

theorem Var.ty_ne_void (v : Var) : v.ty ≠ .void := by
  cases v <;> simp [Var.ty,Ty.vec]

theorem Func.denoted_resultOf {f : Func} {args : List Ty} (denoted : ∀ t ∈ args, t.Denoted) :
    (f.resultOf args).Denoted := by
  have texel (s : Sampler) : (Ty.vector s.kind 4).Denoted := Ty.denoted_vector.mpr (by omega)
  have compared (a : Ty) (h : a.Denoted) : ((a.withKind? .bool).getD .bool).Denoted := by
    cases found : a.withKind? .bool with
    | none => exact Ty.denoted_scalar _
    | some t => exact h.withKind? found
  have sampled (s : Sampler) : s.sampleTy.Denoted := by
    unfold Sampler.sampleTy
    split
    · exact Ty.denoted_scalar _
    · exact texel s
  have size (s : Sampler) : (Ty.vector .int s.texelSize).Denoted := by
    rw [Ty.denoted_vector]
    unfold Sampler.texelSize
    split <;> omega
  have transposed (c r : Nat) (h : (Ty.matrix c r).Denoted) : (Ty.matrix r c).Denoted :=
    Ty.denoted_matrix.mpr (Ty.denoted_matrix.mp h).symm
  unfold Func.resultOf
  split
  any_goals exact Ty.denoted_scalar _
  any_goals exact transposed _ _ (denoted _ mem_cons_self)
  any_goals exact compared _ (denoted _ mem_cons_self)
  any_goals exact sampled _
  any_goals exact texel _
  any_goals exact size _
  any_goals exact denoted _ mem_cons_self
  · exact denoted _ (by simp)
  · exact denoted _ (by simp)
  · exact Ty.denoted_void

end Builtin

end Shading
