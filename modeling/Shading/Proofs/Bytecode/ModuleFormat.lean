import Shading.Proofs.Bytecode.Encoding
import Shading.Proofs.Bytecode.Text

/-! The format of modules, in both directions. What is put together is read back as it was given, and what
can be read is put together to the same words; only the length field of an instruction limits what can be
written. -/
namespace Shading
open List

theorem Stage.code_of_ofCode? {n : Nat} {s : Stage} (found : ofCode? n = some s) : s.code = n := by
  obtain ⟨below,rfl⟩ := List.getElem?_eq_some_iff.mp found
  match n, below with
  | 0, _ | 1, _ | 2, _ => rfl

namespace Bytecode

namespace Module

variable {ws : List UInt32} {code : List Instruction} {m : Module} {h : Header}

theorem words_of_header (read : m.header = .ok h) :
    m.words = h.words ++ m.words.drop Header.length := by
  unfold header at read
  split at read
  · rename_i magic version generator bound stage rest split
    split at read
    · cases read
    · rename_i magical
      split at read
      · cases read
      · split at read
        · cases read
        · rename_i s found
          cases read
          rw [split,Header.words,Stage.code_of_ofCode? found,UInt32.ofNat_toNat,Decidable.not_not.mp magical]
          rfl
  · cases read

theorem assemble_of_read (header : m.header = .ok h) (instructions : m.instructions = .ok code) :
    assemble h code = .ok m := by
  obtain ⟨_,-,decoded⟩ := Except.bind_eq_ok.mp instructions
  obtain ⟨short,rest⟩ := words_of_decodeFrom decoded
  apply assemble_eq_ok.mpr
  refine ⟨short,?_⟩
  rw [← rest,← words_of_header header]

theorem ofWords_eq_ok : ofWords ws = .ok m ↔ m = ⟨ws⟩ ∧ ∃ h, m.header = .ok h := by
  unfold ofWords
  constructor
  · intro made
    obtain ⟨_,read,same⟩ := Except.bind_eq_ok.mp made
    obtain ⟨h,read,-⟩ := Except.map_eq_ok.mp read
    cases same
    exact ⟨rfl,h,read⟩
  · rintro ⟨rfl,h,read⟩
    exact Except.bind_eq_ok.mpr ⟨(),Except.map_eq_ok.mpr ⟨h,read,rfl⟩,rfl⟩

theorem assemble_eq_error {f : Fault} : assemble h code = .error f ↔
      ∃ i, code.find? (fun i => 65534 < i.operands.length) = some i ∧ f = .tooLong i.op i.wordCount := by
  have parts : ∀ code : List Instruction, code.mapM Instruction.encode = .error f ↔
      ∃ i, code.find? (fun i => 65534 < i.operands.length) = some i ∧ f = .tooLong i.op i.wordCount := by
    intro code
    induction code with
    | nil => simp [pure,Except.pure]
    | cons i code ih =>
      rw [mapM_cons]
      by_cases long : 65534 < i.operands.length
      · have refused : i.encode = .error (.tooLong i.op i.wordCount) :=
          if_neg (by rw [Instruction.wordCount,UInt16.size]; omega)
        simp [refused,long,eq_comm]
      · have short : i.Short := by
          rw [Instruction.Short,Instruction.wordCount]
          omega
        rw [Instruction.encode_eq_ok.mpr ⟨short,rfl⟩,Except.ok_bind,find?_cons_of_neg (by simpa using long),
          ← ih]
        cases code.mapM Instruction.encode with
        | error e => rfl
        | ok ps => simp [pure,Except.pure]
  rw [← parts,assemble]
  cases code.mapM Instruction.encode with
  | error e => simp only [Except.error_bind,Except.error.injEq]
  | ok ps => simp [pure,Except.pure]

/-- Headers of this version and instructions with operands enough and not too many are read back from the
module that they make; only too many operands stop it from being made. A module that is read makes the
words that it was read from, and a module with a header is the one that its bytes are. -/
theorem format_invertible : (∀ (h : Header) (code : List Instruction), h.version >>> 16 = 1 →
      (∀ i ∈ code, i.op.minOperands ≤ i.operands.length ∧ i.operands.length ≤ 65534) →
        ∃ m, assemble h code = .ok m ∧ m.header = .ok h ∧ m.instructions = .ok code) ∧
    (∀ (h : Header) (code : List Instruction) (f : Fault), assemble h code = .error f ↔
      ∃ i, code.find? (fun i => 65534 < i.operands.length) = some i ∧ f = .tooLong i.op i.wordCount) ∧
    (∀ (ws : List UInt32) (m : Module) (code : List Instruction), ofWords ws = .ok m →
      m.instructions = .ok code → ∃ h, m.header = .ok h ∧ assemble h code = .ok m ∧ m.words = ws) ∧
    ∀ (m : Module) (h : Header), m.header = .ok h → ofBytes m.bytes = .ok m := by
  refine ⟨fun h code current fits => ?_,fun h code f => assemble_eq_error,fun ws m code made read => ?_,
    fun m h read => ?_⟩
  · have current : h.Current := current
    have assembled : assemble h code = .ok ⟨h.words ++ code.flatMap Instruction.words⟩ :=
      assemble_eq_ok.mpr ⟨fun i member => by
        have := (fits i member).2
        rw [Instruction.Short,Instruction.wordCount]
        omega,rfl⟩
    have decoded := (decode_assemble current assembled).mpr ⟨rfl,rfl,fun i member => (fits i member).1⟩
    obtain ⟨h',header,decoded⟩ := Except.bind_eq_ok.mp decoded
    obtain ⟨code',instructions,same⟩ := Except.bind_eq_ok.mp decoded
    cases same
    exact ⟨_,assembled,header,instructions⟩
  · obtain ⟨rfl,h,header⟩ := ofWords_eq_ok.mp made
    exact ⟨h,header,assemble_of_read header read,rfl⟩
  · have aligned : m.bytes.length % 4 = 0 := by
      rw [bytes,length_ofWords,Nat.mul_mod_right]
    unfold ofBytes
    rw [if_neg (not_not_intro aligned),bytes,Bytes.toWords_ofWords]
    exact ofWords_eq_ok.mpr ⟨rfl,h,read⟩

def halfCode : List Instruction := [⟨.typeFloat, [1]⟩, ⟨.constant, [1, 2, 0x3f000000]⟩, ⟨.ret, []⟩]

def half : Module := ⟨[0x58534c47, 65536, 0, 3, 0, 131085, 1, 262164, 1, 2, 0x3f000000, 65605]⟩

/-- A module that has a half and leaves a function. -/
theorem format_of_half : ((Header.new .vertex 3).version >>> 16 = 1 ∧
      ∀ i ∈ halfCode, i.op.minOperands ≤ i.operands.length ∧ i.operands.length ≤ 65534) ∧
    (∃ m, assemble (Header.new .vertex 3) halfCode = .ok m ∧ m.header = .ok (Header.new .vertex 3) ∧
      m.instructions = .ok halfCode) ∧
    ∃ h, half.header = .ok h ∧ assemble h halfCode = .ok half ∧ ofBytes half.bytes = .ok half := by
  obtain ⟨writes,-,reads,carries⟩ := format_invertible
  obtain ⟨h,header,assembled,-⟩ := reads half.words half halfCode (by cbv) (by cbv)
  exact ⟨by decide,writes _ _ (by decide) (by decide),h,header,assembled,carries _ h header⟩

end Module

end Bytecode

end Shading
