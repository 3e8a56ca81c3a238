import Mathlib.Data.List.Nodup
import Mathlib.Data.List.Perm.Subperm
import Shading.Emission.Name

/-! Fresh names. A name that is given to something new is not taken, unless it is made of an id alone, and
no such name can come about by another way than by its own id or by a name that readers know. -/
namespace Shading.Emission
open List Bytecode

variable {n m : Nat} {c : Char} {name : String}

theorem digits_injective (same : Nat.toDigits 10 m = Nat.toDigits 10 n) : m = n := by
  have values := congrArg (fun cs => Nat.ofDigitChars 10 cs 0) same
  simpa using values

theorem not_mem_digits (other : c.isDigit = false) (n : Nat) : c ∉ Nat.toDigits 10 n := fun mem => by
  cases other.symm.trans (Nat.isDigit_of_mem_toDigits (by decide) (by decide) mem)

theorem toList_ownName (id : Id) : (ownName id).toList = '_' :: Nat.toDigits 10 id.toNat := by
  simp [ownName]

theorem toList_flagName (n : Nat) : (flagName n).toList = '_' :: 'l' :: 'f' :: Nat.toDigits 10 n := by
  simp [flagName]

theorem ownName_injective {j k : Id} (same : ownName j = ownName k) : j = k := by
  grind [toList_ownName,UInt32.toNat_inj,digits_injective]

theorem append_ownName {id k : Id} (same : name ++ ownName id = ownName k) : id = k := by
  have chars := congrArg String.toList same
  rw [String.toList_append,toList_ownName,toList_ownName] at chars
  cases parts : name.toList with
  | nil =>
    rw [parts,nil_append,List.cons.injEq] at chars
    exact UInt32.toNat_inj.mp (digits_injective chars.2)
  | cons c cs =>
    -- the underscore of the id would stand among the digits of the other
    have none := not_mem_digits (c := '_') rfl k.toNat
    grind

theorem flagName_injective (same : flagName m = flagName n) : m = n := by
  grind [toList_flagName,digits_injective]

theorem flagName_ne_ownName (n : Nat) (id : Id) : flagName n ≠ ownName id := by
  intro same
  have chars := congrArg String.toList same
  rw [toList_flagName,toList_ownName,List.cons.injEq] at chars
  have inside : 'l' ∈ Nat.toDigits 10 id.toNat := by simp [← chars.2]
  exact absurd inside (not_mem_digits rfl _)

section Reserved

variable {cs : List Char}

theorem hasDoubleUnderscore_cons (rest : '_' ∉ cs) :
    Target.hasDoubleUnderscore (c :: cs) = false := by
  induction cs generalizing c with
  | nil => simp [Target.hasDoubleUnderscore]
  | cons d ds ih =>
    rw [mem_cons,not_or] at rest
    rw [Target.hasDoubleUnderscore]
    · exact ih rest.2
    · rintro tail - same
      exact rest.1 (List.cons.inj same).1.symm

theorem reservedWords_start : ∀ word ∈ Target.reservedWords, word.toList.head? ≠ some '_' := by
  decide

theorem not_isReserved (chars : name.toList = '_' :: cs) (rest : '_' ∉ cs) :
    Target.isReserved name = false := by
  grind [reservedWords_start,Target.isReserved,hasDoubleUnderscore_cons]

theorem ownName_not_isReserved (id : Id) : Target.isReserved (ownName id) = false :=
  not_isReserved (toList_ownName id) (not_mem_digits rfl _)

theorem flagName_not_isReserved (n : Nat) : Target.isReserved (flagName n) = false :=
  not_isReserved (toList_flagName n) (by simp)

end Reserved

section Fresh

variable {used : List String} {id k : Id} {known : Option String}

theorem isFree_iff (free : isFree used name = true) :
    name ∉ used ∧ Target.isReserved name = false := by
  grind [isFree]

theorem freshName_not_mem (own : ownName id ∉ used) : freshName used id known ∉ used := by
  unfold freshName
  grind [isFree_iff]

theorem freshName_not_isReserved : Target.isReserved (freshName used id known) = false := by
  unfold freshName
  split
  · exact ownName_not_isReserved id
  · split
    case isTrue free => exact (isFree_iff free).2
    case isFalse =>
      split
      case isTrue free => exact (isFree_iff free).2
      case isFalse => exact ownName_not_isReserved id

theorem freshName_eq_ownName (same : freshName used id known = ownName k) :
    id = k ∨ known = some (ownName k) := by
  unfold freshName at same
  grind [ownName_injective,append_ownName]

theorem freshFlag_eq (used : List String) : ∃ n, freshFlag used = flagName n ∧ flagName n ∉ used := by
  have distinct : ((List.range (used.length + 1)).map flagName).Nodup :=
    nodup_range.map fun _ _ => flagName_injective
  cases found : ((List.range (used.length + 1)).map flagName).find? (· ∉ used) with
  | some name =>
    grind [freshFlag]
  | none =>
    -- else they would all be among the names, of which there are fewer
    have all : ∀ name ∈ (List.range (used.length + 1)).map flagName, name ∈ used := by
      simpa using found
    have short := (List.Nodup.subperm distinct all).length_le
    rw [length_map,length_range] at short
    omega

end Fresh

end Shading.Emission
