import Shading.Proofs.Pass.Naming

/-! Numbering ids by the order of their definitions, in any code with which nothing is found wrong. References follow
their definitions, literals stay, and nothing is found wrong with the new code under the bound next to the count. -/
namespace Shading.Bytecode

/-- Operands that are no ids: numbers of operators and functions, sizes, constants, components, words of a text and
of decorations. -/
def Opcode.isLiteral : Opcode → Nat → Bool
  | .nop, _ | .localSize, _ | .source, _ | .functionEnd, _ | .orElse, _ | .endIf, _ | .loop, _ | .loopContinue, _
  | .endLoop, _ | .breakLoop, _ | .continueLoop, _ | .ret, _ | .kill, _ => true
  | .debugName, p | .entryPoint, p | .decorate, p | .typeVoid, p | .typeBool, p | .typeInt, p | .typeFloat, p
  | .typeSampler, p | .ifThen, p | .loopCondition, p | .retValue, p => 1 ≤ p
  | .typeVector, p | .typeMatrix, p | .typeArray, p | .constant, p | .var, p | .functionParameter, p
  | .store, p => 2 ≤ p
  | .function, p | .load, p | .swizzle, p => 3 ≤ p
  | .extract, p => 4 ≤ p
  | .select, p => 5 ≤ p
  | .typePointer, p => p = 1 ∨ 3 ≤ p
  | .unary, p => p = 2 ∨ 4 ≤ p
  | .binary, p => p = 2 ∨ 5 ≤ p
  | .builtin, p => p = 2
  | .typeFunction, _ | .constantComposite, _ | .construct, _ | .accessChain, _ | .call, _ => false

open List Pass

theorem Instruction.isLiteral_eq_false {i : Instruction} {p : Nat} :
    i.op.isLiteral p = false ↔ i.refersAt p = true ∨ some p = i.resultPosition? := by
  obtain ⟨op,operands⟩ := i
  cases op <;>
    simp [Opcode.isLiteral,refersAt,resultPosition?,Opcode.hasResultType,Opcode.isType] <;> omega

section Renaming

variable {f : Id → Id} {code : List Instruction} {bound : Id}

theorem operands_renameIds (i : Instruction) (p : Nat) : (renameIds f i).operands[p]? =
    i.operands[p]?.map fun w => if i.op.isLiteral p then w else f w := by
  rw [getElem?_renameIds]
  cases literal : i.op.isLiteral p with
  | false => simp [Instruction.isLiteral_eq_false.mp literal]
  | true =>
    have other := mt Instruction.isLiteral_eq_false.mpr (ne_of_eq_of_ne literal Bool.true_eq_false.mp)
    simp [other]

/-- A renaming that keeps defined ids apart, below a bound and different from zero leaves nothing wrong. -/
theorem findings_rename {bound' : Id} (flawless : findings bound code = [])
    (apart : ∀ x ∈ results code, ∀ y ∈ results code, f x = f y → x = y)
    (low : ∀ x ∈ results code, f x ≠ 0 ∧ f x < bound') :
    findings bound' (code.map (renameIds f)) = [] := by
  obtain ⟨⟨ids,unique⟩,flawless,entry⟩ := findings_eq_nil_iff.mp flawless
  have renamed := flawless.rename apart unique fun zero => (ids 0 zero).1 rfl
  refine findings_eq_nil_iff.mpr ⟨⟨?_,nodup_map_renameIds apart unique⟩,renamed,?_⟩
  · rw [results_map_renameIds]
    exact forall_mem_map.mpr low
  · rw [countP_map]
    exact entry

end Renaming

namespace Pass

section Numbers

variable {ids : List Id} (small : ids.length < 2 ^ 32)
include small

/-- The numbers are those from one on, in order. -/
theorem map_number (once : ids.Nodup) :
    (ids.map (number ids)).map UInt32.toNat = List.range' 1 ids.length := by
  refine ext_getElem (by simp) fun k inside _ => ?_
  have here : k < ids.length := by simpa using inside
  obtain ⟨n,place,numbered⟩ := toNat_number small (getElem_mem here)
  obtain ⟨there,same⟩ := List.getElem?_eq_some_iff.mp place
  obtain rfl : n = k := once.getElem_inj_iff.mp same
  simp [numbered,Nat.add_comm]

theorem number_eq_self (counted : ids.map UInt32.toNat = List.range' 1 ids.length) {x : Id}
    (mem : x ∈ ids) : number ids x = x := by
  obtain ⟨n,place,numbered⟩ := toNat_number small mem
  obtain ⟨inside,rfl⟩ := List.getElem?_eq_some_iff.mp place
  have here : (ids.map UInt32.toNat)[n]? = (List.range' 1 ids.length)[n]? := by rw [counted]
  rw [getElem?_map,place,getElem?_range' inside] at here
  have counts : ids[n].toNat = 1 + 1 * n := by simpa using here
  exact UInt32.toNat_inj.mp (by omega)

end Numbers

section Renumber

variable {code : List Instruction}

/-- Code whose results count from one on is left as it is. -/
theorem renumber_counted (closed : ∀ i ∈ code, i.references ⊆ results code)
    (small : (results code).length < 2 ^ 32)
    (counted : (results code).map UInt32.toNat = List.range' 1 (results code).length) :
    (renumber code).map Outcome.code = .ok code := by
  have unique : (results code).Nodup := by
    refine List.Nodup.of_map UInt32.toNat ?_
    rw [counted]
    exact nodup_range'
  rw [renumber_code unique]
  refine congrArg Except.ok ((map_congr_left fun i mem => ?_).trans (map_id code))
  have fixed : ∀ x ∈ results code, number (results code) x = x := fun x => number_eq_self small counted
  have same : renameIds (number (results code)) i = renameIds id i :=
    renameIds_congr (fun x mentioned => fixed x (closed i mem mentioned))
      fun r defined => fixed r (mem_filterMap.mpr ⟨i,mem,defined⟩)
  rw [same,renameIds_id,id]

theorem toNat_boundOf (small : (results code).length + 1 < 2 ^ 32)
    (counted : (results code).map UInt32.toNat = List.range' 1 (results code).length) :
    (boundOf code).toNat = (results code).length + 1 := by
  have counts : ∀ n, n ∈ (results code).map UInt32.toNat ↔ 1 ≤ n ∧ n < 1 + (results code).length := by
    simp [counted,mem_range'_1]
  have below : (maxId code).toNat < (results code).length + 1 := by
    refine maxId_lt (by omega) fun x defined => ?_
    have := (counts x.toNat).mp (mem_map_of_mem defined)
    omega
  have above : (results code).length ≤ (maxId code).toNat := by
    rcases Nat.eq_zero_or_pos (results code).length with none | some
    · omega
    · obtain ⟨x,defined,last⟩ := mem_map.mp ((counts (results code).length).mpr (by omega))
      have := le_maxId defined
      omega
  rw [boundOf,UInt32.toNat_add]
  exact Nat.mod_eq_of_lt (by simp; omega) |>.trans (by simp; omega)

/-- Ids that are defined once, differ from zero and lie below a bound are fewer than the bound. -/
theorem length_results_lt {bound : Id} (ids : ∀ id ∈ results code, id ≠ 0 ∧ id < bound)
    (unique : (results code).Nodup) : (results code).length + 1 < 2 ^ 32 := by
  have inside : (results code).map UInt32.toNat ⊆ List.range' 1 (bound.toNat - 1) := by
    intro n mem
    obtain ⟨x,defined,rfl⟩ := mem_map.mp mem
    obtain ⟨nonzero,below⟩ := ids x defined
    have positive : x.toNat ≠ 0 := fun zero => nonzero (UInt32.toNat_inj.mp zero)
    have := UInt32.lt_iff_toNat_lt.mp below
    exact mem_range'_1.mpr ⟨by omega,by omega⟩
  have once : ((results code).map UInt32.toNat).Nodup :=
    unique.map fun _ _ => UInt32.toNat_inj.mp
  have := (subperm_of_subset once inside).length_le
  have := bound.toNat_lt
  simp only [length_map,length_range'] at *
  omega

/-- The code after the pass: a renaming that keeps ids apart and numbers results in their order, leaves literals as
they are and the rest without a flaw, and finds nothing more to do. -/
theorem renumber_outcome {bound : Id} (flawless : findings bound code = []) :
    ∃ f : Id → Id, ∃ out, (renumber code).map Outcome.code = .ok out ∧ out = code.map (renameIds f) ∧
      (∀ x ∈ results code, ∀ y ∈ results code, f x = f y → x = y) ∧
      (∀ i ∈ code, i.references ⊆ results code) ∧
      (results out).map UInt32.toNat = List.range' 1 (results code).length ∧
      (∀ i p, (renameIds f i).op = i.op ∧ (renameIds f i).operands[p]? =
        i.operands[p]?.map fun w => if i.op.isLiteral p then w else f w) ∧
      (boundOf out).toNat = (results code).length + 1 ∧ findings (boundOf out) out = [] ∧
      (renumber out).map Outcome.code = .ok out := by
  obtain ⟨⟨ids,unique⟩,⟨each,ordered,-⟩,-⟩ := findings_eq_nil_iff.mp flawless
  have closed := references_subset unique each ordered
  have small := length_results_lt ids unique
  have fits : (results code).length < 2 ^ 32 := by omega
  have renamed := results_map_renameIds (number (results code)) code
  have length : (results (code.map (renameIds (number (results code))))).length = (results code).length := by
    rw [renamed,length_map]
  have counted : (results (code.map (renameIds (number (results code))))).map UInt32.toNat =
      List.range' 1 (results code).length := by
    rw [renamed,map_number fits unique]
  have bounded := toNat_boundOf (by rwa [length]) (by rwa [length])
  rw [length] at bounded
  have apart : ∀ x ∈ results code, ∀ y ∈ results code,
      number (results code) x = number (results code) y → x = y :=
    fun x first y second => number_apart fits first second
  refine ⟨number (results code),_,renumber_code unique,rfl,apart,closed,counted,
    fun i p => ⟨rfl,operands_renameIds i p⟩,bounded,?_,?_⟩
  · refine findings_rename flawless apart fun x defined => ⟨number_ne_zero fits defined,?_⟩
    have := number_le fits defined
    exact UInt32.lt_iff_toNat_lt.mpr (by omega)
  · refine renumber_counted ?_ (by rwa [length]) (by rwa [length])
    rw [renamed]
    refine forall_mem_map.mpr fun i member => ?_
    rw [references_renameIds]
    exact map_subset _ (closed i member)

end Renumber

/-- The bits of a constant are also the id of a type. -/
def sparse : List Instruction :=
  [⟨.entryPoint, [9]⟩, ⟨.typeVoid, [3]⟩, ⟨.typeInt, [7, 1]⟩, ⟨.constant, [7, 5, 3]⟩, ⟨.typeFunction, [2, 3]⟩,
    ⟨.function, [3, 9, 2]⟩, ⟨.ret, []⟩, ⟨.functionEnd, []⟩]

theorem sparse_outcome : findings 10 sparse = [] ∧ ∃ out, (renumber sparse).map Outcome.code = .ok out ∧
    out[3]? = some ⟨.constant, [2, 3, 3]⟩ ∧ findings 6 out = [] ∧
    (renumber out).map Outcome.code = .ok out := by
  have flawless : findings 10 sparse = [] := by cbv
  obtain ⟨f,out,ran,-,-,-,-,-,bounded,flawless',again⟩ := renumber_outcome flawless
  have numbered : out[3]? = some ⟨.constant,[2,3,3]⟩ := by
    obtain rfl := Except.ok.inj ran
    decide
  have next : boundOf out = 6 := UInt32.toNat_inj.mp bounded
  exact ⟨flawless,out,ran,numbered,next ▸ flawless',again⟩

end Pass

end Shading.Bytecode
