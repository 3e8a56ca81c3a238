import Shading.Proofs.Bytecode.Presentation
import Shading.Proofs.Emission.Tables

/-! The tables of a module give back what its code says of types, names and decorations. -/
namespace Shading.Emission
open Bytecode Pass

variable {ty : Ty} {id : Id}

namespace Tables

variable {t t' : Tables} {i : Instruction} {code : List Instruction}

theorem Scanned.types (scanned : Scanned t i t') :
    ∃ said, t.declaredTy i = .ok said ∧ t'.types = (t.addTy (i.operand 0) said).types := by
  have silent {op : Opcode} (isOp : i.op = op) (noType : op.isType = false) : t.declaredTy i = .ok none :=
    declaredTy_of_ne (isOp ▸ noType)
  cases scanned with
  | opens op => exact ⟨none,silent op rfl,rfl⟩
  | param op => exact ⟨none,silent op rfl,rfl⟩
  | closes op => exact ⟨none,silent op rfl,rfl⟩
  | other _ _ _ learned =>
    obtain ⟨said,declared,types⟩ := learned.types
    refine ⟨said,declared,types.trans ?_⟩
    cases said <;> rfl

theorem isType_of_declaredTy (declared : t.declaredTy i = .ok (some ty)) : i.op.isType = true := by
  cases isType : i.op.isType with
  | true => rfl
  | false =>
    rw [declaredTy_of_ne isType] at declared
    cases declared

theorem minOperands_of_isType {op : Opcode} (isType : op.isType = true) : 0 < op.minOperands := by
  cases op <;> first | decide | cases isType

theorem result?_of_isType (full : i.Full) (isType : i.op.isType = true) :
    i.result? = some (i.operand 0) := by
  have long : 0 < i.operands.length := Nat.lt_of_lt_of_le (minOperands_of_isType isType) full
  obtain ⟨op,operands⟩ := i
  cases operands with
  | nil => cases long
  | cons x ws => cases op <;> first | rfl | cases isType

theorem lookup_filter_ne {α : Type} (table : Table α) {x y : Id} (other : x ≠ y) :
    (table.filter fun (z, _) => z != y).lookup x = table.lookup x := by
  induction table with
  | nil => rfl
  | cons e table ih =>
    grind

theorem lookup_addTy (said : Option Ty) (x y : Id) :
    (t.addTy y said).types.lookup x = if x = y then said.or (t.types.lookup x) else t.types.lookup x := by
  cases said with
  | none => simp [addTy]
  | some ty =>
    rw [addTy,List.lookup_cons]
    by_cases same : x = y
    · simp [same]
    · rw [if_neg same,beq_false_of_ne same]
      exact lookup_filter_ne _ same

/-- What was said of types before is what the tables say in the end. -/
structure Settled (code : List Instruction) (t : Tables) : Prop where
  known : ∀ {x ty}, t.types.lookup x = some ty → x ∈ results code
  declared : ∀ i ∈ code, ∃ (t₁ : Tables) (said : Option Ty), t₁.declaredTy i = .ok said ∧
    (∀ {x ty}, t₁.types.lookup x = some ty → t.types.lookup x = some ty) ∧
    ∀ ty ∈ said, t.types.lookup (i.operand 0) = some ty

theorem Settled.step {before : List Instruction} (settled : Settled before t) (scanned : Scanned t i t')
    (full : i.Full) (unique : (results (before ++ [i])).Nodup) : Settled (before ++ [i]) t' := by
  obtain ⟨said,declared,types⟩ := scanned.types
  have defines {ty : Ty} (said : said = some ty) : i.result? = some (i.operand 0) := by
    rw [said] at declared
    exact result?_of_isType full (isType_of_declaredTy declared)
  have kept {x : Id} {ty : Ty} (known : t.types.lookup x = some ty) : t'.types.lookup x = some ty := by
    rw [types,lookup_addTy,known]
    split
    · rename_i same
      cases spoken : said with
      | none => rfl
      | some new =>
        -- the id would be defined twice
        have old := settled.known known
        grind [results_append,results_singleton]
    · rfl
  refine ⟨fun {x ty} known => ?_,fun j mem => ?_⟩
  · rw [results_append,results_singleton,List.mem_append]
    rw [types,lookup_addTy] at known
    split at known
    · rename_i same
      cases spoken : said with
      | none =>
        rw [spoken] at known
        exact .inl (settled.known known)
      | some new => exact .inr (by simp [defines spoken,same])
    · exact .inl (settled.known known)
  · rcases List.mem_append.mp mem with old | new
    · grind [Settled.declared]
    · obtain rfl := List.mem_singleton.mp new
      refine ⟨t,said,declared,kept,fun ty spoken => ?_⟩
      rw [types,lookup_addTy,if_pos rfl,spoken]
      rfl

theorem scan_settled (full : ∀ i ∈ code, i.Full) (unique : (results code).Nodup)
    (ran : code.foldlM scan {} = .ok t) : Settled code t := by
  refine scan_induction (fun code t => (∀ i ∈ code, i.Full) → (results code).Nodup → Settled code t)
    (fun _ _ => ⟨by simp,by simp⟩) ?_ ran full unique
  grind [Settled.step,results_append]

theorem ty_eq_ok : t.ty id = .ok ty ↔ t.types.lookup id = some ty := require_eq_ok

/-- Types are read back. -/
theorem Settled.lookup_of_denotes (settled : Settled code t) (denotes : Denotes code id ty)
    (fits : ty.Fits) : t.types.lookup id = some ty := by
  have found {i : Instruction} {ty : Ty} (mem : i ∈ code)
      (means : ∀ (t₁ : Tables) (said : Option Ty), (∀ {x ty}, t₁.types.lookup x = some ty → t.types.lookup x = some ty) →
        t₁.declaredTy i = .ok said → said = some ty) : t.types.lookup (i.operand 0) = some ty := by
    grind [Settled.declared]
  have byte {n : Nat} (small : n < 256) : size (.ofNat n) = n := by
    rw [size,UInt32.toNat_ofNat_of_lt' (by rw [UInt32.size]; omega),Nat.mod_eq_of_lt small]
  induction denotes with
  | void here | bool here | int here | uint here | float here =>
    refine found here fun t₁ said _ declared => ?_
    cases declared
    rfl
  | @vector id e k n here _ ih =>
    refine found here fun t₁ said stays declared => ?_
    obtain ⟨element,typed,declared⟩ := Except.bind_eq_ok.mp declared
    obtain ⟨kind,known,declared⟩ := Except.bind_eq_ok.mp declared
    have same := (stays (ty_eq_ok.mp typed)).symm.trans (ih trivial)
    cases same
    cases require_eq_ok.mp known
    cases declared
    exact congrArg (fun n => some (Ty.vector k n)) (byte fits)
  | @matrix id e c r here _ ih =>
    refine found here fun t₁ said stays declared => ?_
    obtain ⟨column,typed,declared⟩ := Except.bind_eq_ok.mp declared
    obtain ⟨rows,known,declared⟩ := Except.bind_eq_ok.mp declared
    have same := (stays (ty_eq_ok.mp typed)).symm.trans (ih fits.2)
    cases same
    cases require_eq_ok.mp known
    cases declared
    exact congrArg (fun n => some (Ty.matrix n r)) (byte fits.1)
  | @sampler id s here =>
    refine found here fun t₁ said _ declared => ?_
    obtain ⟨dim,shape,declared⟩ := Except.bind_eq_ok.mp declared
    obtain ⟨kind,texel,declared⟩ := Except.bind_eq_ok.mp declared
    cases declared
    obtain ⟨d,shadow,k⟩ := s
    have dims : Dim.ofCode? (UInt32.ofNat d.code).toNat = some d := by cases d <;> rfl
    have kinds : Scalar.ofCode? (UInt32.ofNat k.code).toNat = some k := by cases k <;> rfl
    have sameDim := dims.symm.trans (require_eq_ok.mp shape)
    have sameKind := kinds.symm.trans (require_eq_ok.mp texel)
    cases sameDim
    cases sameKind
    cases shadow <;> rfl
  | @array id e inner n here _ ih =>
    refine found here fun t₁ said stays declared => ?_
    obtain ⟨element,typed,declared⟩ := Except.bind_eq_ok.mp declared
    have same := (stays (ty_eq_ok.mp typed)).symm.trans (ih fits.1)
    cases same
    cases declared
    refine congrArg (fun n => some (Ty.array inner n)) ?_
    exact UInt32.toNat_ofNat_of_lt' fits.2

end Tables

end Shading.Emission
