import Shading.Const
import Mathlib

/-! Operations on integer constants are those on whole numbers, reduced to a word. -/
namespace Shading.Const

/-- The result on whole numbers, where a negative one has the digits of its two's complement.
Quotients are rounded toward zero, and a shift to the right rounds down. -/
def whole? (op : BinaryOp) (m n : Int) : Option Int :=
  let divides := n ≠ 0 ∧ ¬(m = -2 ^ 31 ∧ n = -1)
  let shifts := 0 ≤ n ∧ n < 32
  match op with
  | .add => some (m + n)
  | .sub => some (m - n)
  | .mul => some (m * n)
  | .div => if divides then some (m.tdiv n) else none
  | .mod => if divides then some (m.tmod n) else none
  | .bitAnd => some (m.land n)
  | .bitOr => some (m.lor n)
  | .bitXor => some (m.xor n)
  | .shl => if shifts then some (m * 2 ^ n.toNat) else none
  | .shr => if shifts then some (m / 2 ^ n.toNat) else none
  | _ => none

def compares : BinaryOp → Int → Int → Bool
  | .lt, m, n => m < n
  | .le, m, n => m ≤ n
  | .gt, m, n => m > n
  | .ge, m, n => m ≥ n
  | .eq, m, n => m = n
  | _, m, n => m ≠ n

/-- The constant of a kind whose word is the number modulo `2 ^ 32`. -/
def reduced (k : Scalar) (z : Int) : Const := ofBits k ⟨.ofInt 32 z⟩

theorem reduced_congruent {k : Scalar} (whole : k.isInteger) (z : Int) :
    ∃ v, (reduced k z).integer? = some v ∧ v ≡ z [ZMOD 2 ^ 32] := by
  cases k with
  | int =>
    refine ⟨_,rfl,?_⟩
    change (BitVec.ofInt 32 z).toInt ≡ z [ZMOD 2 ^ 32]
    rw [BitVec.toInt_ofInt]
    exact Int.bmod_emod
  | uint =>
    refine ⟨_,rfl,?_⟩
    change ((BitVec.ofInt 32 z).toNat : Int) ≡ z [ZMOD 2 ^ 32]
    rw [BitVec.toNat_ofInt,Int.toNat_of_nonneg (Int.emod_nonneg z (by decide))]
    exact Int.mod_modEq z _
  | bool => cases whole
  | float => cases whole

theorem getLsbD_ofInt {w i : Nat} (inside : i < w) (z : Int) :
    (BitVec.ofInt w z).getLsbD i = z.testBit i := by
  cases z with
  | ofNat m =>
    change (BitVec.ofNat w m).getLsbD i = m.testBit i
    rw [BitVec.getLsbD_ofNat,decide_eq_true inside,Bool.true_and]
  | negSucc m =>
    rw [BitVec.ofInt_negSucc_eq_not_ofNat,BitVec.getLsbD_not,BitVec.getLsbD_ofNat,
      decide_eq_true inside,Bool.true_and,Bool.true_and]
    rfl

/-- The word of a result whose digits come from the digits of the operands. -/
theorem ofInt_bitwise {op : BitVec 32 → BitVec 32 → BitVec 32} {whole : Int → Int → Int}
    {digit : Bool → Bool → Bool}
    (onWords : ∀ x y i, (op x y).getLsbD i = digit (x.getLsbD i) (y.getLsbD i))
    (onNumbers : ∀ m n i, (whole m n).testBit i = digit (m.testBit i) (n.testBit i)) (m n : Int) :
    BitVec.ofInt 32 (whole m n) = op (.ofInt 32 m) (.ofInt 32 n) := by
  refine BitVec.eq_of_getLsbD_eq fun i inside => ?_
  rw [onWords,getLsbD_ofInt inside,getLsbD_ofInt inside,getLsbD_ofInt inside,onNumbers]

theorem ofInt_land : ∀ m n : Int, BitVec.ofInt 32 (m.land n) = .ofInt 32 m &&& .ofInt 32 n :=
  ofInt_bitwise (fun _ _ _ => BitVec.getLsbD_and) Int.testBit_land

theorem ofInt_lor : ∀ m n : Int, BitVec.ofInt 32 (m.lor n) = .ofInt 32 m ||| .ofInt 32 n :=
  ofInt_bitwise (fun _ _ _ => BitVec.getLsbD_or) Int.testBit_lor

theorem ofInt_xor : ∀ m n : Int, BitVec.ofInt 32 (m.xor n) = .ofInt 32 m ^^^ .ofInt 32 n :=
  ofInt_bitwise (fun _ _ _ => BitVec.getLsbD_xor) Int.testBit_lxor

theorem ofInt_sub (m n : Int) : BitVec.ofInt 32 (m - n) = .ofInt 32 m - .ofInt 32 n := by
  rw [Int.sub_eq_add_neg,BitVec.ofInt_add,BitVec.ofInt_neg,← BitVec.sub_eq_add_neg]

theorem ofInt_shift (m : Int) (n : Nat) :
    BitVec.ofInt 32 (m * 2 ^ n) = BitVec.ofInt 32 m <<< n := by
  rw [BitVec.ofInt_mul,BitVec.shiftLeft_eq_mul_twoPow]
  congr 1
  apply BitVec.eq_of_toNat_eq
  rw [BitVec.toNat_ofInt,BitVec.toNat_twoPow]
  norm_cast

theorem comparison_compare (op : BinaryOp) (m n : Int) :
    comparison op (some (compare m n)) = compares op m n := by
  rcases lt_trichotomy m n with less | rfl | more
  · rw [compare_lt_iff_lt.mpr less]
    cases op <;> simp [comparison,compares,less,less.le,less.ne,bne]
  · cases op <;> simp [comparison,compares]
  · rw [compare_gt_iff_gt.mpr more]
    cases op <;> simp [comparison,compares,more,more.le,more.ne',bne]

theorem map_guarded {α β γ : Type} {p q : Prop} [Decidable p] [Decidable q] {f : α → γ} {g : β → γ}
    {x : α} {y : β} (same : p ↔ q) (equal : q → f x = g y) :
    (if p then some x else none).map f = (if q then some y else none).map g := by
  by_cases holds : q
  · simp [same.mpr holds,holds,equal holds]
  · simp [same.not.mpr holds,holds]

section Signed
variable (a b : Int32)

theorem ofInt_toInt32 : BitVec.ofInt 32 a.toInt = a.toBitVec := BitVec.ofInt_toInt

theorem toBitVec_div : (a / b).toBitVec = .ofInt 32 (a.toInt.tdiv b.toInt) := by
  apply BitVec.eq_of_toInt_eq
  rw [BitVec.toInt_ofInt,← Int32.toInt_div]
  rfl

variable {b} (shifts : 0 ≤ b.toInt ∧ b.toInt < 32)
include shifts

theorem toNat_smod : (b.toBitVec.smod 32).toNat = b.toInt.toNat := by
  have same : (b.toBitVec.smod 32).toInt = b.toInt := by
    rw [BitVec.toInt_smod]
    exact Int.fmod_eq_of_lt shifts.1 shifts.2
  rw [BitVec.toInt_eq_toNat_cond] at same
  split at same <;> omega

theorem toBitVec_shl : (a <<< b).toBitVec = .ofInt 32 (a.toInt * 2 ^ b.toInt.toNat) := by
  rw [Int32.toBitVec_shiftLeft,BitVec.shiftLeft_eq',toNat_smod shifts,ofInt_shift,ofInt_toInt32]

theorem toBitVec_shr : (a >>> b).toBitVec = .ofInt 32 (a.toInt / 2 ^ b.toInt.toNat) := by
  have rounded := BitVec.toInt_sshiftRight (x := a.toBitVec) (n := b.toInt.toNat)
  rw [Int.shiftRight_eq_div_pow,Nat.cast_pow] at rounded
  rw [Int32.toBitVec_shiftRight,BitVec.sshiftRight_eq',toNat_smod shifts]
  exact BitVec.ofInt_toInt.symm.trans (congrArg _ rounded)

end Signed

theorem intOp?_exact (op : BinaryOp) (a b : Int32) :
    (intOp? op a b).map Int32.toBitVec = (whole? op a.toInt b.toInt).map (.ofInt 32) := by
  have divides : b ≠ 0 ∧ ¬(a = Int32.minValue ∧ b = -1) ↔
      b.toInt ≠ 0 ∧ ¬(a.toInt = -2 ^ 31 ∧ b.toInt = -1) := by
    rw [ne_eq,← Int32.toInt_inj,← Int32.toInt_inj,← Int32.toInt_inj]
    rfl
  have shifts : 0 ≤ b ∧ b < 32 ↔ 0 ≤ b.toInt ∧ b.toInt < 32 :=
    and_congr Int32.le_iff_toInt_le Int32.lt_iff_toInt_lt
  cases op with
  | div => exact map_guarded divides fun _ => toBitVec_div a b
  | mod => exact map_guarded divides fun _ => by rw [← Int32.toInt_mod,ofInt_toInt32]
  | shl => exact map_guarded shifts (toBitVec_shl a)
  | shr => exact map_guarded shifts (toBitVec_shr a)
  | sub => simp [intOp?,whole?,ofInt_sub]
  | _ => simp [intOp?,whole?,ofInt_land,ofInt_lor,ofInt_xor,BitVec.ofInt_add,BitVec.ofInt_mul]

theorem uintOp?_exact (op : BinaryOp) (a b : UInt32) :
    (uintOp? op a b).map UInt32.toBitVec = (whole? op a.toNat b.toNat).map (.ofInt 32) := by
  have word (c : UInt32) : BitVec.ofInt 32 c.toNat = c.toBitVec := by simp
  have divides : b ≠ 0 ↔
      (b.toNat : Int) ≠ 0 ∧ ¬((a.toNat : Int) = -2 ^ 31 ∧ (b.toNat : Int) = -1) := by
    rw [ne_eq,← UInt32.toNat_inj]
    simp
  have shifts : b < 32 ↔ 0 ≤ (b.toNat : Int) ∧ (b.toNat : Int) < 32 := by
    rw [UInt32.lt_iff_toNat_lt]
    simp
  cases op with
  | div => exact map_guarded divides fun _ => by rw [← Int.ofNat_tdiv,← UInt32.toNat_div,word]
  | mod => exact map_guarded divides fun _ => by rw [← Int.ofNat_tmod,← UInt32.toNat_mod,word]
  | shl =>
    refine map_guarded shifts fun small => ?_
    have count : (b.toBitVec % 32).toNat = b.toNat :=
      Nat.mod_eq_of_lt (show b.toNat < 32 by omega)
    rw [ofInt_shift,word,Int.toNat_natCast,UInt32.toBitVec_shiftLeft,BitVec.shiftLeft_eq',count]
  | shr =>
    refine map_guarded shifts fun small => ?_
    have count : b.toNat % 32 = b.toNat := Nat.mod_eq_of_lt (by omega)
    rw [Int.toNat_natCast,← word (a >>> b),UInt32.toNat_shiftRight,count,
      Nat.shiftRight_eq_div_pow,Int.natCast_ediv,Nat.cast_pow]
    rfl
  | sub => simp [uintOp?,whole?,ofInt_sub]
  | _ =>
    simp [uintOp?,whole?,ofInt_land,ofInt_lor,ofInt_xor,BitVec.ofInt_add,BitVec.ofInt_mul]

theorem map_reduced (k : Scalar) {α : Type} {r : Option α} {e : Option Int} {word : α → BitVec 32}
    (same : r.map word = e.map (.ofInt 32)) :
    r.map (fun x => ofBits k ⟨word x⟩) = e.map (reduced k) := by
  have both := congrArg (Option.map fun w => ofBits k ⟨w⟩) same
  rw [Option.map_map,Option.map_map] at both
  exact both

theorem integer_cases {c : Const} {z : Int} (value : c.integer? = some z) :
    (∃ n, c = .int n ∧ z = n.toInt) ∨ ∃ n, c = .uint n ∧ z = n.toNat := by
  cases c with
  | bool => cases value
  | float => cases value
  | int n => exact .inl ⟨n,rfl,(Option.some.inj value).symm⟩
  | uint n => exact .inr ⟨n,rfl,(Option.some.inj value).symm⟩

theorem unary?_exact {a : Const} {m : Int} (value : a.integer? = some m) :
    unary? .neg a = some (reduced a.kind (-m)) ∧
      unary? .bitNot a = some (reduced a.kind (-m - 1)) := by
  rcases integer_cases value with ⟨a,rfl,rfl⟩ | ⟨a,rfl,rfl⟩
  · have negated : Int32.ofInt (-a.toInt) = -a := by simp
    have inverted : Int32.ofInt (-a.toInt - 1) = ~~~a := by simp [Int32.not_eq_neg_sub]
    exact ⟨congrArg (some ∘ Const.int) negated.symm,congrArg (some ∘ Const.int) inverted.symm⟩
  · have negated : ⟨BitVec.ofInt 32 (-a.toNat)⟩ = -a := by
      simp [BitVec.ofInt_neg]
    have inverted : ⟨BitVec.ofInt 32 (-a.toNat - 1)⟩ = ~~~a := by
      simp [UInt32.not_eq_neg_sub,BitVec.ofInt_neg,ofInt_sub]
    exact ⟨congrArg (some ∘ Const.uint) negated.symm,congrArg (some ∘ Const.uint) inverted.symm⟩

theorem whole?_of_shift {op : BinaryOp} {n : Int} (shift : op.isShift) (outside : ¬(0 ≤ n ∧ n < 32))
    (m : Int) : whole? op m n = none := by
  cases op with
  | shl => exact if_neg outside
  | shr => exact if_neg outside
  | _ => cases shift

section
variable {op : BinaryOp} {a b : Const} {m n : Int} (first : a.integer? = some m)
  (second : b.integer? = some n)
include first second

theorem binary?_compares (compared : op.isComparison) (kinds : a.kind = b.kind) :
    binary? op a b = some (.bool (compares op m n)) := by
  rcases integer_cases first with ⟨a,rfl,rfl⟩ | ⟨a,rfl,rfl⟩ <;>
    rcases integer_cases second with ⟨b,rfl,rfl⟩ | ⟨b,rfl,rfl⟩
  · simp [binary?,compared,comparison_compare]
  · cases kinds
  · cases kinds
  · have order : compare a.toNat b.toNat = compare (a.toNat : Int) b.toNat := by
      simp only [compare,compareOfLessAndEq,Int.ofNat_lt,Int.ofNat_inj]
    simp [binary?,compared,order,comparison_compare]

theorem binary?_exact (computes : op.isComparison = false) (kinds : a.kind = b.kind ∨ op.isShift) :
    binary? op a b = (whole? op m n).map (reduced a.kind) := by
  rcases integer_cases first with ⟨a,rfl,rfl⟩ | ⟨a,rfl,rfl⟩ <;>
    rcases integer_cases second with ⟨b,rfl,rfl⟩ | ⟨b,rfl,rfl⟩
  · simp only [binary?,computes]
    exact map_reduced .int (intOp?_exact op a b)
  · have shift : op.isShift := kinds.resolve_left nofun
    simp only [binary?,shift,true_and,UInt32.lt_iff_toNat_lt]
    split
    · next small =>
      have count : b.toInt32.toInt = b.toNat := by
        change b.toBitVec.toInt = b.toBitVec.toNat
        rw [BitVec.toInt_eq_toNat_cond,if_pos]
        exact Nat.lt_trans (Nat.mul_lt_mul_of_pos_left small (by decide)) (by decide)
      rw [← count]
      exact map_reduced .int (intOp?_exact op a _)
    · next large =>
      rw [whole?_of_shift shift fun inside => large (Int.ofNat_lt.mp inside.2)]
      rfl
  · have shift : op.isShift := kinds.resolve_left nofun
    simp only [binary?,shift,true_and,Int32.le_iff_toInt_le]
    split
    · next counts =>
      have count : (b.toUInt32.toNat : Int) = b.toInt := by
        change (b.toBitVec.toNat : Int) = b.toBitVec.toInt
        change 0 ≤ b.toBitVec.toInt at counts
        rw [BitVec.toInt_eq_toNat_cond] at counts ⊢
        split_ifs at counts ⊢ <;> omega
      rw [← count]
      exact map_reduced .uint (uintOp?_exact op a _)
    · next negative =>
      rw [whole?_of_shift shift fun inside => negative inside.1]
      rfl
  · simp only [binary?,computes]
    exact map_reduced .uint (uintOp?_exact op a b)

/-- Integer constants are computed with as whole numbers are, and the result is reduced to a word of
the kind of the first operand. Only shifts take operands of two kinds. -/
theorem integer_operations :
    (op.isComparison → a.kind = b.kind → binary? op a b = some (.bool (compares op m n))) ∧
    (op.isComparison = false → a.kind = b.kind ∨ op.isShift →
      binary? op a b = (whole? op m n).map (reduced a.kind)) ∧
    unary? .neg a = some (reduced a.kind (-m)) ∧
    unary? .bitNot a = some (reduced a.kind (-m - 1)) ∧
    ∀ z, ∃ v, (reduced a.kind z).integer? = some v ∧ v ≡ z [ZMOD 2 ^ 32] := by
  have whole : a.kind.isInteger := by
    rcases integer_cases first with ⟨a,rfl,rfl⟩ | ⟨a,rfl,rfl⟩ <;> rfl
  exact ⟨binary?_compares first second,binary?_exact first second,(unary?_exact first).1,
    (unary?_exact first).2,reduced_congruent whole⟩

end

theorem remainder_of_negative : binary? .mod (.int (-7)) (.int 2) = some (.int (-1)) :=
  ((@integer_operations .mod (.int (-7)) (.int 2) (-7) 2 rfl rfl).2.1 rfl (.inl rfl)).trans
    (by decide)

end Shading.Const
