import Shading.Emission.Text
import Shading.Proofs.Emission.FreshName

/-! Which lines of a text declare uniforms. The word for uniforms stands at the front of a line or behind a
layout in the declarations of uniforms, and in no other line before the functions. -/
namespace Shading.Emission
open List

/-- Where a variable is, as a layout says it. -/
def GlobalLine.places (g : GlobalLine) : List String :=
  (g.location.map fun n => "location = " ++ toString n).toList ++
    (g.binding.map fun n => "binding = " ++ toString n).toList

/-- How a uniform is declared: where it is, its type, its name and the sizes of its arrays. -/
def uniformText (g : GlobalLine) : String :=
  (if g.places = [] then "" else "layout(" ++ ", ".intercalate g.places ++ ") ") ++ "uniform " ++
    g.ty.baseName ++ " " ++ g.name ++ String.join (g.ty.dims.map fun n => "[" ++ toString n ++ "]") ++ ";"

/-- What stands in a line behind its layout. -/
def behindLayout (line : List Char) : List Char :=
  if "layout(".toList.isPrefixOf line then (line.dropWhile (· ≠ ')')).drop 2 else line

def declaresUniform (line : String) : Bool := "uniform ".toList.isPrefixOf (behindLayout line.toList)

/-- The text begins neither with a layout nor with the word for uniforms. -/
def isOther : List Char → Bool
  | a :: b :: _ => a != 'l' && (a != 'u' || b != 'n')
  | _ => false

variable {rest : List Char}

theorem behindLayout_of_layout (rest : List Char) {inner : List Char} (closed : ')' ∉ inner) :
    behindLayout ("layout(".toList ++ inner ++ ')' :: ' ' :: rest) = rest := by
  have skipped : ∀ c ∈ "layout(".toList ++ inner, decide (c ≠ ')') = true := by
    simp only [mem_append,decide_eq_true_eq]
    rintro c (word | mem) rfl
    · revert word
      decide
    · exact closed mem
  rw [behindLayout,if_pos,dropWhile_append_of_pos skipped]
  · rfl
  · simp

theorem behindLayout_of_head? (begins : rest.head? ≠ some 'l') : behindLayout rest = rest := by
  refine if_neg fun layout => begins ?_
  obtain ⟨_,rfl⟩ := isPrefixOf_iff_prefix.mp layout
  rfl

theorem behindLayout_layoutText (g : GlobalLine) (begins : rest.head? ≠ some 'l') :
    behindLayout ((layoutText g.places).toList ++ rest) = rest := by
  have closed : ')' ∉ (", ".intercalate g.places).toList := by
    obtain ⟨_ | _,_ | _,_,_,_,_,_⟩ := g <;> simp [GlobalLine.places,not_mem_digits]
  rw [layoutText]
  split
  · exact behindLayout_of_head? begins
  · simpa using behindLayout_of_layout rest closed

theorem isOther_append {first rest : String} (other : isOther first.toList = true) :
    isOther (first ++ rest).toList = true := by
  rw [String.toList_append]
  match first.toList, other with
  | _ :: _ :: _, other => exact other

theorem isOther_baseName (ty : Ty) : isOther ty.baseName.toList = true := by
  induction ty with
  | void => rfl
  | scalar k => cases k <;> rfl
  | vector k n => cases k <;> exact isOther_append rfl
  | matrix c r =>
    rw [Ty.baseName]
    split
    · exact isOther_append rfl
    · exact isOther_append (isOther_append (isOther_append rfl))
  | sampler s =>
    have word (k : Scalar) : isOther (k.initial ++ "sampler").toList = true := by cases k <;> rfl
    exact isOther_append (isOther_append (word s.kind))
  | array e n ih => exact ih

theorem isPrefixOf_of_isOther {cs : List Char} (other : isOther cs = true) :
    cs.head? ≠ some 'l' ∧ "uniform ".toList.isPrefixOf cs = false := by
  refine ⟨fun head => ?_,Bool.eq_false_iff.mpr fun declares => ?_⟩
  · obtain ⟨cs,rfl⟩ := head?_eq_some_iff.mp head
    cases cs <;> cases other
  · obtain ⟨cs,rfl⟩ := isPrefixOf_iff_prefix.mp declares
    cases other

theorem declaresUniform_of_isOther {line : String} (other : isOther line.toList = true) :
    declaresUniform line = false := by
  obtain ⟨head,declares⟩ := isPrefixOf_of_isOther other
  rw [declaresUniform,behindLayout_of_head? head,declares]

/-- What a line says behind the layout. -/
def GlobalLine.clause (g : GlobalLine) : String :=
  (if g.invariant then "invariant " else "") ++ (((g.interpolation.map fun i => i.text ++ " ").getD "") ++
    (((g.role.map fun r => r.text ++ " ").getD "") ++ (declaration g.ty g.name ++ ";")))

theorem isOther_clause {g : GlobalLine} (role : g.role ≠ some .uniform) : isOther g.clause.toList = true := by
  rw [GlobalLine.clause]
  cases g.invariant with
  | true => exact isOther_append rfl
  | false =>
    rw [if_neg (by simp),String.empty_append]
    cases g.interpolation with
    | some i => cases i <;> exact isOther_append (isOther_append rfl)
    | none =>
      rw [Option.map_none,Option.getD_none,String.empty_append]
      cases known : g.role with
      | some r => cases r <;> first | exact isOther_append (isOther_append rfl) | exact absurd known role
      | none =>
        rw [Option.map_none,Option.getD_none,String.empty_append,declaration,String.append_assoc,
          String.append_assoc,String.append_assoc]
        exact isOther_append (isOther_baseName g.ty)

theorem declaresUniform_text {g : GlobalLine} (role : g.role ≠ some .uniform) :
    declaresUniform g.text = false := by
  have split : g.text = layoutText g.places ++ g.clause := by
    simp only [GlobalLine.text,GlobalLine.clause,String.append_assoc]
    rfl
  obtain ⟨head,declares⟩ := isPrefixOf_of_isOther (isOther_clause role)
  rw [split,declaresUniform,String.toList_append,behindLayout_layoutText g head,declares]

theorem declaresUniform_uniformText (g : GlobalLine) : declaresUniform (uniformText g) = true := by
  have split : uniformText g = layoutText g.places ++ ("uniform " ++ (g.ty.baseName ++ (" " ++ (g.name ++
      (String.join (g.ty.dims.map fun n => "[" ++ toString n ++ "]") ++ ";"))))) := by
    simp only [uniformText,layoutText,List.isEmpty_iff,String.append_assoc]
  rw [split,declaresUniform,String.toList_append,behindLayout_layoutText g (by simp)]
  simp

theorem declaresUniform_localSize (d : Document) : ∀ l ∈ d.localSizeLines, declaresUniform l = false := by
  intro l mem
  unfold Document.localSizeLines at mem
  split at mem
  case h_2 => cases mem
  case h_1 x y z _ =>
    rw [mem_singleton] at mem
    have closed : ')' ∉ "local_size_x = ".toList ++ Nat.toDigits 10 x.toNat ++ ", local_size_y = ".toList ++
        Nat.toDigits 10 y.toNat ++ ", local_size_z = ".toList ++ Nat.toDigits 10 z.toNat := by
      simp [not_mem_digits]
    have same : behindLayout l.toList = "in;".toList := by
      rw [← behindLayout_of_layout "in;".toList closed,mem]
      simp
    rw [declaresUniform,same]
    rfl

/-- The lines before those of variables. -/
def Document.preamble (d : Document) : List String :=
  d.target.versionLine :: d.extensions.map (fun e => "#extension " ++ e ++ " : enable") ++
    d.precisionStatements ++ d.localSizeLines ++ if d.outer.isEmpty then [] else [""]

/-- The lines before the functions. -/
def Document.lines (d : Document) : List String := d.preamble ++ d.outer.map Outer.text

theorem Document.text_eq (d : Document) : d.text = String.join (d.lines.map (· ++ "\n")) ++
    String.join (d.functions.map fun f => "\n" ++ f.text) := by
  rw [Document.text,lines,preamble]
  cases d.outer <;> simp

theorem declaresUniform_preamble (d : Document) : ∀ l ∈ d.preamble, declaresUniform l = false := by
  intro l mem
  simp only [Document.preamble,mem_append,mem_cons,mem_map] at mem
  rcases mem with (((rfl | ⟨e,-,rfl⟩) | precision) | size) | empty
  · exact declaresUniform_of_isOther (isOther_append (isOther_append rfl))
  · exact declaresUniform_of_isOther (isOther_append (isOther_append rfl))
  · refine declaresUniform_of_isOther ?_
    unfold Document.precisionStatements at precision
    split at precision
    · simp only [mem_append,mem_cons,mem_map,not_mem_nil,or_false] at precision
      rcases precision with (rfl | rfl) | ⟨s,-,rfl⟩
      · exact isOther_append (isOther_append rfl)
      · rfl
      · exact isOther_append (isOther_append rfl)
    · cases precision
  · exact declaresUniform_localSize d l size
  · split at empty
    · cases empty
    · rw [mem_singleton.mp empty]
      rfl

end Shading.Emission
