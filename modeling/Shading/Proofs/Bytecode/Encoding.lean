import Shading.Bytecode.Optimize
import Shading.Proofs.Outcome

/-! Modules are put together from instructions that are short enough, and are read back if each has the
operands that it needs. -/
namespace Shading.Bytecode
open List Instruction

variable {i : Instruction} {ws : List UInt32} {code : List Instruction} {m : Module} {offset : Nat}
  {h : Header} {rest : List UInt32} {w : UInt32}

theorem Opcode.code_of_ofCode? {n : Nat} {op : Opcode} (found : ofCode? n = some op) : op.code = n :=
  eq_of_beq (find?_some found :)

namespace Instruction

def words (i : Instruction) : List UInt32 := i.firstWord :: i.operands

def Short (i : Instruction) : Prop := i.wordCount < 2 ^ 16

instance (i : Instruction) : Decidable i.Short := inferInstanceAs (Decidable (i.wordCount < 2 ^ 16))

def Full (i : Instruction) : Prop := i.op.minOperands ≤ i.operands.length

theorem encode_eq_ok : i.encode = .ok ws ↔ i.Short ∧ ws = i.words := by
  unfold encode
  by_cases short : i.wordCount < UInt16.size
  · rw [if_pos short,Except.ok.injEq,and_iff_right (show i.Short from short),eq_comm]
    rfl
  · rw [if_neg short]
    exact ⟨fun failed => (by cases failed),fun h => absurd h.1 short⟩

theorem toNat_firstWord (short : i.Short) :
    i.firstWord.toNat = i.wordCount * UInt16.size + i.op.code := by
  have small : i.wordCount < UInt16.size := short
  grind [Opcode.code_lt,firstWord,UInt32.toNat_ofNat_of_lt']

theorem decode_words (short : i.Short) (offset : Nat) (rest : List UInt32) :
    decode offset i.firstWord (i.operands ++ rest) =
      if i.op.minOperands ≤ i.operands.length then .ok i
      else .error (.missingOperands i.op offset) := by
  have code := i.op.code_lt
  have count : i.firstWord.toNat / UInt16.size = i.operands.length + 1 := by
    rw [toNat_firstWord short,wordCount]
    rw [UInt16.size] at code ⊢
    omega
  have op : i.firstWord.toNat % UInt16.size = i.op.code := by
    rw [toNat_firstWord short]
    rw [UInt16.size] at code ⊢
    omega
  simp only [decode,count,op,Opcode.ofCode?_code,Nat.add_sub_cancel,length_append,take_left']
  rw [if_neg (by omega),if_neg (by omega)]
  by_cases full : i.op.minOperands ≤ i.operands.length
  · rw [if_neg (by omega),if_pos full]
  · rw [if_pos (by omega),if_neg full]

theorem words_of_decode (read : decode offset w rest = .ok i) :
    i.Short ∧ w :: rest = i.words ++ rest.drop i.operands.length := by
  unfold decode at read
  dsimp only at read
  split at read
  · cases read
  · split at read
    · cases read
    · rename_i counted _ op found
      have code := Opcode.code_of_ofCode? found
      split at read
      · cases read
      · rename_i enough
        split at read
        · cases read
        · cases read
          have bound := w.toNat_lt
          have length : (rest.take (w.toNat / UInt16.size - 1)).length = w.toNat / UInt16.size - 1 := by
            rw [length_take]
            omega
          have count : (rest.take (w.toNat / UInt16.size - 1)).length + 1 = w.toNat / UInt16.size := by
            rw [UInt16.size] at *
            omega
          refine ⟨?_,?_⟩
          · show (rest.take _).length + 1 < 65536
            rw [count,UInt16.size]
            omega
          · have first : firstWord ⟨op,rest.take (w.toNat / UInt16.size - 1)⟩ = w := by
              rw [firstWord,wordCount,count,code,Nat.div_add_mod',UInt32.ofNat_toNat]
            rw [words,first,cons_append,length,take_append_drop]

end Instruction

namespace Module

theorem assemble_eq_ok : assemble h code = .ok m ↔
      (∀ i ∈ code, i.Short) ∧ m = ⟨h.words ++ code.flatMap Instruction.words⟩ := by
  have parts : ∀ {code : List Instruction} {ps : List (List UInt32)}, code.mapM encode = .ok ps ↔
        (∀ i ∈ code, i.Short) ∧ ps = code.map Instruction.words := by
    intro code
    induction code with
    | nil =>
      intro ps
      rw [mapM_nil,Except.pure_eq_ok]
      simp [eq_comm]
    | cons i code ih =>
      intro ps
      rw [mapM_cons,Except.bind_eq_ok]
      simp only [encode_eq_ok,Except.bind_eq_ok,ih,Except.pure_eq_ok,forall_mem_cons,map_cons]
      grind
  grind [assemble,Except.bind_eq_ok,Except.pure_eq_ok]

theorem decodeFrom_words : (∀ i ∈ code, i.Short) → ∀ {offset : Nat} {code' : List Instruction},
      decodeFrom offset (code.flatMap Instruction.words) = .ok code' ↔
        code' = code ∧ ∀ i ∈ code, i.Full := by
  induction code with
  | nil =>
    intro _ offset code'
    simp [decodeFrom,eq_comm]
  | cons i code ih =>
    intro short offset code'
    rw [forall_mem_cons] at short
    rw [flatMap_cons,Instruction.words,cons_append,decodeFrom,decode_words short.1,forall_mem_cons]
    grind [Except.bind_eq_ok,Except.pure_eq_ok,Full]

theorem full_of_decode (read : Instruction.decode offset w rest = .ok i) : i.Full := by
  grind [Instruction.decode,Full]

theorem words_of_decodeFrom (read : decodeFrom offset ws = .ok code) :
    (∀ i ∈ code, i.Short) ∧ ws = code.flatMap Instruction.words := by
  induction offset, ws using decodeFrom.induct generalizing code with
  | case1 offset =>
    rw [decodeFrom] at read
    cases read
    simp
  | case2 offset w rest ih =>
    rw [decodeFrom] at read
    obtain ⟨i,first,read⟩ := Except.bind_eq_ok.mp read
    obtain ⟨more,later,read⟩ := Except.bind_eq_ok.mp read
    cases read
    obtain ⟨short,split⟩ := Instruction.words_of_decode first
    grind

theorem full_of_decodeFrom (read : decodeFrom offset ws = .ok code) : ∀ i ∈ code, i.Full := by
  obtain ⟨short,rfl⟩ := words_of_decodeFrom read
  exact ((decodeFrom_words short).mp read).2

theorem full_of_instructions (read : m.instructions = .ok code) : ∀ i ∈ code, i.Full := by
  obtain ⟨_,-,read⟩ := Except.bind_eq_ok.mp read
  exact full_of_decodeFrom read

end Module

def Header.Current (h : Header) : Prop := h.version >>> 16 = currentVersion >>> 16

theorem Module.header_words (current : h.Current) (rest : List UInt32) :
    Module.header ⟨h.words ++ rest⟩ = .ok h := by
  have stage : Stage.ofCode? (UInt32.ofNat h.stage.code).toNat = some h.stage := by
    cases h.stage <;> rfl
  simp only [Header.words,cons_append,header,ne_eq,not_true_eq_false,if_false]
  rw [if_neg (not_not_intro (show h.version >>> 16 = _ from current)),stage]

theorem decode_assemble (current : h.Current) (assembled : Module.assemble h code = .ok m)
    {h' : Header} {code' : List Instruction} :
    decode m = .ok (h', code') ↔ h' = h ∧ code' = code ∧ ∀ i ∈ code, i.Full := by
  obtain ⟨short,rfl⟩ := Module.assemble_eq_ok.mp assembled
  have header := Module.header_words current (code.flatMap Instruction.words)
  have drop : (h.words ++ code.flatMap Instruction.words).drop Header.length =
      code.flatMap Instruction.words := rfl
  unfold decode Module.instructions
  rw [header,Except.ok_bind,Except.bind_eq_ok]
  simp only [drop,Except.pure_eq_ok]
  constructor
  · rintro ⟨read,ran,same⟩
    cases same
    exact ⟨rfl,(Module.decodeFrom_words short).mp ran⟩
  · rintro ⟨rfl,full⟩
    exact ⟨code',(Module.decodeFrom_words short).mpr full,rfl⟩

theorem Module.findings_eq_nil_iff :
    m.findings = [] ↔ ∃ h code, decode m = .ok (h, code) ∧ Bytecode.findings h.bound code = [] := by
  unfold Module.findings decode
  cases header : m.header with
  | error f => simp
  | ok h =>
    cases instructions : m.instructions with
    | error f =>
      constructor
      · exact fun none => absurd none (by simp)
      · rintro ⟨_,_,read,-⟩
        cases read
    | ok code =>
      simp

end Shading.Bytecode
