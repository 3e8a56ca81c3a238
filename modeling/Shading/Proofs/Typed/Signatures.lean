import Shading.Proofs.Typed.Types
import Shading.Typed.Tree

/-! A signature tells the types of parameters: types that can be written have texts of their own, and no
text has a character that ends a part of a signature. -/
namespace Shading
open List

variable {c : Char}

section Separators

variable {α : Type} {a b c d : List α} {x : α}

theorem split_first (left : x ∉ a) (right : x ∉ b) (same : a ++ x :: c = b ++ x :: d) :
    a = b ∧ c = d := by
  induction a generalizing b with
  | nil =>
    cases b with
    | nil => simpa using same
    | cons y b =>
      simp only [nil_append,cons_append,List.cons.injEq] at same
      exact absurd (mem_cons.mpr (.inl same.1)) right
  | cons y a ih =>
    cases b with
    | nil =>
      grind
    | cons z b =>
      grind

theorem split_last (left : x ∉ c) (right : x ∉ d) (same : a ++ x :: c = b ++ x :: d) :
    a = b ∧ c = d := by
  have back : c.reverse ++ x :: a.reverse = d.reverse ++ x :: b.reverse := by
    simpa using congrArg List.reverse same
  obtain ⟨second,first⟩ := split_first (by simpa using left) (by simpa using right) back
  exact ⟨reverse_inj.mp first,reverse_inj.mp second⟩

theorem not_mem_intercalate {sep : α} (other : x ≠ sep) {ls : List (List α)}
    (free : ∀ l ∈ ls, x ∉ l) : x ∉ [sep].intercalate ls := by
  induction ls with
  | nil => simp [List.intercalate]
  | cons l ls ih =>
    rw [forall_mem_cons] at free
    cases ls with
    | nil => simpa [List.intercalate] using free.1
    | cons l' ls => simpa [List.intercalate,other,free.1] using ih free.2

end Separators

namespace Ty

variable {t : Ty}

theorem baseName_base (t : Ty) : t.base.baseName = t.baseName := by
  induction t with
  | array e n ih => exact ih
  | _ => rfl

theorem baseName_alphanum (known : t.base ∈ named) :
    ∀ c ∈ t.baseName.toList, c.isAlphanum = true := by
  have words : (named.all fun t => t.baseName.toList.all Char.isAlphanum) = true := by decide
  rw [← baseName_base]
  exact all_eq_true.mp (all_eq_true.mp words _ known)

def sizes (dims : List Nat) : List Char := dims.flatMap fun n => '[' :: (toString n).toList ++ [']']

theorem toList_text (t : Ty) : t.text.toList = t.baseName.toList ++ sizes t.dims := by
  simp [text,suffix,String.toList_join,sizes,flatMap_map]

theorem isDigit_of_mem_toString {n : Nat} (mem : c ∈ (toString n).toList) : c.isDigit = true := by
  rw [Nat.toString_eq_ofList_toDigits,String.toList_ofList] at mem
  exact Nat.isDigit_of_mem_toDigits (by omega) (by omega) mem

theorem sizes_injective {ms ns : List Nat} (same : sizes ms = sizes ns) : ms = ns := by
  have closed (n : Nat) : ']' ∉ (toString n).toList := fun mem =>
    absurd (isDigit_of_mem_toString mem) (by decide)
  induction ms generalizing ns with
  | nil =>
    cases ns with
    | nil => rfl
    | cons n ns => simp [sizes] at same
  | cons m ms ih =>
    cases ns with
    | nil => simp [sizes] at same
    | cons n ns =>
      simp only [sizes,flatMap_cons,cons_append,List.append_assoc,nil_append,
        List.cons.injEq,true_and] at same
      obtain ⟨number,rest⟩ := split_first (closed m) (closed n) same
      have eq := congrArg (fun ds => Nat.ofDigitChars 10 ds 0) number
      simp only [Nat.toString_eq_ofList_toDigits,String.toList_ofList,
        Nat.ofDigitChars_ten_toDigits] at eq
      rw [eq,ih rest]

theorem base_mem_named (denoted : t.Denoted) : t.base ∈ named := by
  induction t with
  | array e n ih => exact ih denoted.1
  | _ => exact denoted

section

variable (known : t.base ∈ named)
include known

theorem text_injective {t' : Ty} (known' : t'.base ∈ named) (same : t.text = t'.text) : t = t' := by
  have plain {t : Ty} (known : t.base ∈ named) : ∀ c ∈ t.baseName.toList, (c != '[') = true := by
    intro c mem
    have word := baseName_alphanum known c mem
    rw [bne_iff_ne]
    rintro rfl
    exact absurd word (by decide)
  have stops (dims : List Nat) : (sizes dims).takeWhile (· != '[') = [] := by
    cases dims <;> rfl
  have chars := congrArg String.toList same
  rw [toList_text,toList_text] at chars
  have names : t.baseName.toList = t'.baseName.toList := by
    have taken := congrArg (List.takeWhile (· != '[')) chars
    grind [takeWhile_append_of_pos]
  have dims : t.dims = t'.dims := sizes_injective (by simpa [names] using chars)
  have distinct : (named.map baseName).Nodup := by decide
  have base : t.base = t'.base := by
    grind [inj_on_of_nodup_map,baseName_base,String.toList_inj]
  rw [← ofDims_base_dims t,← ofDims_base_dims t',base,dims]

theorem not_mem_text (ends : c ∈ ['(', ',', ')']) : c ∉ t.text.toList := by
  intro mem
  rw [toList_text,mem_append,sizes,mem_flatMap] at mem
  have word : c.isAlphanum = false ∧ c.isDigit = false ∧ c ≠ '[' ∧ c ≠ ']' := by
    simp only [mem_cons,not_mem_nil,or_false] at ends
    rcases ends with rfl | rfl | rfl <;> decide
  grind [baseName_alphanum,isDigit_of_mem_toString]

theorem text_ne_nil : t.text.toList ≠ [] := by
  have filled : (named.all fun t => t.baseName.toList ≠ []) = true := by decide
  have name : t.baseName.toList ≠ [] := by
    rw [← baseName_base]
    simpa using all_eq_true.mp filled _ known
  rw [toList_text]
  simp [name]

end

end Ty

namespace Typed

def inner (params : List Ty) : List Char := [','].intercalate (params.map fun t => t.text.toList)

theorem toList_signature (name : String) (params : List Ty) :
    (signature name params).toList = name.toList ++ '(' :: (inner params ++ [')']) := by
  simp [signature,inner,String.toList_intercalate,Function.comp_def]

section Params

variable {params params' : List Ty} (known : ∀ t ∈ params, t.base ∈ Ty.named)
  (known' : ∀ t ∈ params', t.base ∈ Ty.named)

include known

theorem free_of_known (ends : c ∈ ['(', ',', ')']) :
    ∀ l ∈ params.map fun t => t.text.toList, c ∉ l := by
  intro l mem
  obtain ⟨t,inside,rfl⟩ := mem_map.mp mem
  exact Ty.not_mem_text (known t inside) ends

theorem not_mem_inner : '(' ∉ inner params ++ [')'] := by
  intro mem
  rcases mem_append.mp mem with inside | last
  · exact not_mem_intercalate (by decide) (free_of_known known (by simp)) inside
  · simp at last

theorem inner_eq_nil : inner params = [] ↔ params = [] := by
  refine ⟨fun empty => ?_,fun none => by simp [none,inner,List.intercalate]⟩
  cases params with
  | nil => rfl
  | cons t ts =>
    have text := Ty.text_ne_nil (known t mem_cons_self)
    cases ts <;> simp_all [inner,List.intercalate]

include known'

theorem texts_injective
    (same : params.map (fun t => t.text.toList) = params'.map fun t => t.text.toList) :
    params = params' := by
  induction params generalizing params' with
  | nil => simpa using same.symm
  | cons t ts ih =>
    cases params' with
    | nil => simp at same
    | cons t' ts' =>
      rw [forall_mem_cons] at known known'
      grind [Ty.text_injective,String.toList_inj]

theorem inner_injective (same : inner params = inner params') : params = params' := by
  by_cases none : params = []
  · have empty := (inner_eq_nil known).mpr none
    rw [none,(inner_eq_nil known').mp (same ▸ empty)]
  · have some : params' ≠ [] := fun none' =>
      none ((inner_eq_nil known).mp (same.trans ((inner_eq_nil known').mpr none')))
    have pieces := congrArg (List.splitOn ',') same
    rw [inner,inner,splitOn_intercalate _ (free_of_known known (by simp)) (by simpa using none),
      splitOn_intercalate _ (free_of_known known' (by simp)) (by simpa using some)] at pieces
    exact texts_injective known known' pieces

theorem parts_eq_of_signature {name name' : String}
    (same : signature name params = signature name' params') : name = name' ∧ params = params' := by
  have chars := congrArg String.toList same
  rw [toList_signature,toList_signature] at chars
  obtain ⟨names,inners⟩ := split_last (not_mem_inner known) (not_mem_inner known') chars
  exact ⟨String.toList_inj.mp names,inner_injective known known' (append_cancel_right inners)⟩

end Params

/-- No two functions that differ in their names or in the types of their parameters have one
signature, whatever the sizes of arrays are. -/
theorem signature_injective (params params' : List Ty) (known : ∀ t ∈ params, t.base ∈ Ty.named)
    (known' : ∀ t ∈ params', t.base ∈ Ty.named) (name name' : String) :
    signature name params = signature name' params' ↔ name = name' ∧ params = params' :=
  ⟨parts_eq_of_signature known known',fun same => by rw [same.1,same.2]⟩

theorem empty_array_signature :
    signature "f" [.array .float 0] ≠ signature "f" [.array (.array .float 0) 10] := by
  rw [ne_eq,signature_injective _ _ (by decide) (by decide)]
  decide

end Typed

end Shading
