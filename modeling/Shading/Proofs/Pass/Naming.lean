import Shading.Proofs.Bytecode.Parts
import Shading.Proofs.Bytecode.Renaming

/-! Names of local variables can be dropped, and ids can be numbered by the order of their definitions:
what is decorated keeps its name, and the numbers keep defined ids apart. -/
namespace Shading.Bytecode
open List Pass Instruction

def Instruction.NamesNone (ids : List Id) (i : Instruction) : Bool :=
  !(i.op == .debugName && i.operands.head?.any (ids.contains ·))

namespace Outline

variable {t : Outline}

def locals (t : Outline) : List Id :=
  results (t.routines.flatMap fun r =>
    r.code.filter fun i => i.op == .var || i.op == .functionParameter)

def unname (t : Outline) : Outline :=
  { t with outside := t.outside.filter (NamesNone t.locals) }

theorem Shaped.unname (shaped : t.Shaped) : t.unname.Shaped :=
  ⟨fun i m => shaped.outside i (mem_filter.mp m).1,shaped.routines⟩

theorem unname_sublist : t.unname.code.Sublist t.code :=
  filter_sublist.append (Sublist.refl _)

theorem namesNone_of_isNote_false {ids : List Id} {i : Instruction} (states : i.op.isNote = false) :
    NamesNone ids i = true := by
  have op : i.op ≠ .debugName := by
    intro op
    rw [op] at states
    cases states
  simp [NamesNone,op]

theorem Shaped.dropLocalNames_code (shaped : t.Shaped) :
    (dropLocalNames t.code).map Outcome.code = .ok t.unname.code := by
  have locals : localIds t.pieces = t.locals := by
    rw [localIds,functions_pieces,functions,flatMap_map]
    rfl
  have filtered : t.code.filter (NamesNone t.locals) = t.unname.code :=
    shaped.filter_outside fun i => namesNone_of_isNote_false
  rw [← filtered,← locals,dropLocalNames,shaped.parts_code]
  rfl

theorem results_filter_namesNone (ids : List Id) (l : List Instruction) :
    results (l.filter (NamesNone ids)) = results l := by
  refine results_filter ?_ l
  rintro ⟨op,operands⟩ names
  cases op <;> first | rfl | cases names

theorem results_unname : results t.unname.code = results t.code := by
  rw [unname,code,results_append,results_filter_namesNone,← results_append,← code]

theorem Valid.unname (valid : t.Valid) (shaped : t.Shaped) : t.unname.Valid := by
  refine valid.of_sublist unname_sublist (fun i mem => (mem_filter.mp mem).1)
    (fun r routine i mem => ⟨r,routine,mem⟩) valid.jumps (fun i mem => ?_) ?_
  · rw [results_unname]
    exact valid.closed shaped i (unname_sublist.subset mem)
  · rw [Outline.unname,filter_filter]
    refine filter_congr fun i _ => ?_
    obtain ⟨op,operands⟩ := i
    cases op <;> rfl

theorem Valid.not_mem_locals (valid : t.Valid) {x : Id} (outside : x ∈ results t.outside) :
    x ∉ t.locals := by
  intro mem
  have unique := valid.unique
  rw [code,results_append,nodup_append] at unique
  refine unique.2.2 x outside x ?_ rfl
  obtain ⟨i,here,result⟩ := mem_results.mp mem
  grind [mem_results]

theorem Valid.decorations_unname (valid : t.Valid) (shaped : t.Shaped)
    (decorated : ∀ i ∈ t.outside, i.op = .decorate → i.operand 0 ∈ results t.outside) :
    decorations t.unname.code = decorations t.code := by
  rw [shaped.unname.decorations_code,shaped.decorations_code]
  refine decorations_filter (fun i mem op => ⟨?_,decorated i mem op⟩) fun i _ op x target head => ?_
  · simp [NamesNone,op]
  · simp [NamesNone,op,head,valid.not_mem_locals target]

end Outline

namespace Pass

theorem firstRepeated?_of_nodup {ids : List Id} : ∀ {seen : List Id}, ids.Nodup →
    (∀ x ∈ ids, x ∉ seen) → firstRepeated? seen ids = none := by
  induction ids with
  | nil => exact fun _ _ => rfl
  | cons x ids ih =>
    grind [firstRepeated?]

theorem renumber_code {code : List Instruction} (unique : (results code).Nodup) :
    (renumber code).map Outcome.code = .ok (code.map (renameIds (number (results code)))) := by
  rw [renumber,firstRepeated?_of_nodup unique (by simp)]
  rfl

section Numbers

variable {ids : List Id} {x y : Id}

section

variable (small : ids.length < 2 ^ 32)
include small

theorem toNat_number (mem : x ∈ ids) : ∃ n, ids[n]? = some x ∧ (number ids x).toNat = n + 1 := by
  cases place : ids.idxOf? x with
  | none => exact absurd mem (idxOf?_eq_none_iff.mp place)
  | some n =>
    obtain ⟨inside,here,-⟩ := idxOf?_eq_some_iff.mp place
    refine ⟨n,List.getElem?_eq_some_iff.mpr ⟨inside,here⟩,?_⟩
    rw [number,place]
    exact Nat.mod_eq_of_lt (by omega)

theorem number_apart (first : x ∈ ids) (second : y ∈ ids) (same : number ids x = number ids y) :
    x = y := by
  grind [toNat_number]

theorem number_ne_zero (mem : x ∈ ids) : number ids x ≠ 0 := by
  obtain ⟨n,-,numbered⟩ := toNat_number small mem
  intro zero
  rw [zero] at numbered
  cases numbered

theorem number_le (mem : x ∈ ids) : (number ids x).toNat ≤ ids.length := by
  obtain ⟨n,here,numbered⟩ := toNat_number small mem
  obtain ⟨inside,-⟩ := List.getElem?_eq_some_iff.mp here
  omega

end

end Numbers

end Pass

namespace Outline

variable {t : Outline}

def compact (t : Outline) : Outline := t.rename (number (results t.code))

theorem Valid.renumber_code (valid : t.Valid) :
    (renumber t.code).map Outcome.code = .ok t.compact.code := by
  rw [Pass.renumber_code valid.unique,compact,code_rename]

theorem compact_apart (small : (results t.code).length < 2 ^ 32) :
    t.Apart (number (results t.code)) :=
  fun _ first _ second => number_apart small first second

theorem Valid.compact (valid : t.Valid) (shaped : t.Shaped)
    (small : (results t.code).length < 2 ^ 32) : t.compact.Valid :=
  valid.rename shaped (compact_apart small) fun _ => number_ne_zero small

end Outline

end Shading.Bytecode
