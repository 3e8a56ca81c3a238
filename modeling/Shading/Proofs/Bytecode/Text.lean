import Mathlib
import Shading.Bytecode.Instruction

/-! A text that was written in words is read back up to its first zero character. -/
namespace Shading.Bytecode
open List Text

variable {s : String} {ws : List UInt32}

theorem utf8_eq (s : String) : utf8 s = s.toList.flatMap String.utf8EncodeChar := by
  rw [utf8,String.toUTF8,← String.utf8Encode_toList,List.utf8Encode,toList_data_toByteArray]

theorem utf8EncodeChar_ne_zero {c : Char} (nonzero : c ≠ '\x00') :
    ∀ b ∈ String.utf8EncodeChar c, b ≠ 0 := by
  have positive : c.val.toNat ≠ 0 := fun zero => nonzero (Char.toNat_inj.mp zero)
  have word {n : Nat} (low : n ≠ 0) (high : n < 256) : UInt8.ofNat n ≠ 0 := by
    intro zero
    have := congrArg UInt8.toNat zero
    rw [UInt8.toNat_ofNat_of_lt' high] at this
    exact low this
  grind [String.utf8EncodeChar]

theorem takeWhile_flatMap_utf8EncodeChar (cs : List Char) (rest : List UInt8)
    (ends : rest.head? = some 0) : (cs.flatMap String.utf8EncodeChar ++ rest).takeWhile (· != 0) =
      (cs.takeWhile (· != '\x00')).flatMap String.utf8EncodeChar := by
  induction cs with
  | nil =>
    obtain ⟨more,rfl⟩ := head?_eq_some_iff.mp ends
    simp
  | cons c cs ih =>
    rw [flatMap_cons,List.append_assoc]
    by_cases zero : c = '\x00'
    · subst zero
      simp [String.utf8EncodeChar]
    grind [utf8EncodeChar_ne_zero,takeWhile_append_of_pos,takeWhile_cons_of_pos]

theorem takeWhile_utf8 (s : String) {rest : List UInt8} (ends : rest.head? = some 0) :
    (utf8 s ++ rest).takeWhile (· != 0) = utf8 (.ofList (s.toList.takeWhile (· != '\x00'))) := by
  rw [utf8_eq,utf8_eq,String.toList_ofList]
  exact takeWhile_flatMap_utf8EncodeChar _ rest ends

theorem length_ofWords (ws : List UInt32) : (Bytes.ofWords ws).length = 4 * ws.length := by
  induction ws with
  | nil => rfl
  | cons w ws ih =>
    rw [Bytes.ofWords,flatMap_cons,length_append,Bytes.length_ofWord,← Bytes.ofWords,ih,length_cons]
    omega

theorem ofWords_toWords {bytes : List UInt8} (whole : bytes.length % 4 = 0) :
    Bytes.ofWords (Bytes.toWords bytes) = bytes := by
  fun_induction Bytes.toWords bytes with
  | case1 a b c d rest ih =>
    grind [Bytes.ofWords,Bytes.ofWord_word]
  | case2 bytes short =>
    match bytes, short with
    | [], _ => rfl
    | [_], _ | [_,_], _ | [_,_,_], _ => simp at whole
    | a :: b :: c :: d :: rest, short => exact absurd rfl (short a b c d rest)

theorem ofWords_encodeText (s : String) : Bytes.ofWords (encodeText s) =
    utf8 s ++ List.replicate (4 - (utf8 s).length % 4) 0 := by
  refine ofWords_toWords ?_
  rw [length_append,length_replicate]
  omega

theorem decodeText_encodeText_append (s : String) (rest : List UInt32) :
    decodeText (encodeText s ++ rest) = .ok (.ofList (s.toList.takeWhile (· != '\x00'))) := by
  have zeros : List.replicate (4 - (utf8 s).length % 4) (0 : UInt8) =
      0 :: List.replicate (3 - (utf8 s).length % 4) 0 := by
    have : 4 - (utf8 s).length % 4 = (3 - (utf8 s).length % 4) + 1 := by omega
    rw [this,replicate_succ]
  have bytes : Bytes.ofWords (encodeText s ++ rest) = utf8 s ++
      0 :: (List.replicate (3 - (utf8 s).length % 4) 0 ++ Bytes.ofWords rest) := by
    rw [Bytes.ofWords,flatMap_append]
    show Bytes.ofWords (encodeText s) ++ Bytes.ofWords rest = _
    rw [ofWords_encodeText,zeros,List.append_assoc,cons_append]
  grind [decodeText,takeWhile_utf8,ofUtf8?_utf8]

theorem decodeText_encodeText (s : String) :
    decodeText (encodeText s) = .ok (.ofList (s.toList.takeWhile (· != '\x00'))) := by
  simpa using decodeText_encodeText_append s []

theorem decodeText_encodeText_of_free (free : '\x00' ∉ s.toList) :
    decodeText (encodeText s) = .ok s := by
  have all : (s.toList ++ []).takeWhile (· != '\x00') = s.toList ++ takeWhile (· != '\x00') [] :=
    takeWhile_append_of_pos fun c mem => bne_iff_ne.mpr fun zero => free (zero ▸ mem)
  rw [append_nil,takeWhile_nil,append_nil] at all
  rw [decodeText_encodeText,all,String.ofList_toList]

theorem length_encodeText (s : String) : (encodeText s).length = s.utf8ByteSize / 4 + 1 := by
  have bytes := congrArg List.length (ofWords_encodeText s)
  rw [length_ofWords,length_append,length_replicate,length_utf8] at bytes
  omega

theorem takeWhile_of_decodeText (read : decodeText ws = .ok s) :
    (Bytes.ofWords ws).takeWhile (· != 0) = utf8 s := by
  simp only [decodeText] at read
  split at read
  · split at read
    · rename_i found
      cases read
      exact (utf8_of_ofUtf8? found).symm
    · cases read
  · cases read

/-- No word follows the one with the first zero byte, and only zeros follow that byte. -/
def EndsInZeros (ws : List UInt32) : Prop :=
  ws.length = ((Bytes.ofWords ws).takeWhile (· != 0)).length / 4 + 1 ∧
    ∀ b ∈ (Bytes.ofWords ws).dropWhile (· != 0), b = 0

theorem encodeText_eq_iff (read : decodeText ws = .ok s) : encodeText s = ws ↔ EndsInZeros ws := by
  have before := takeWhile_of_decodeText read
  have bytes : (Bytes.ofWords ws).takeWhile (· != 0) ++ (Bytes.ofWords ws).dropWhile (· != 0) =
      Bytes.ofWords ws := takeWhile_append_dropWhile
  have whole := congrArg List.length bytes
  rw [before] at bytes whole
  rw [length_append,length_ofWords] at whole
  calc encodeText s = ws
    _ ↔ Bytes.ofWords (encodeText s) = Bytes.ofWords ws :=
      ⟨congrArg _,fun same => by simpa using congrArg Bytes.toWords same⟩
    _ ↔ (Bytes.ofWords ws).dropWhile (· != 0) = List.replicate (4 - (utf8 s).length % 4) 0 := by
      rw [ofWords_encodeText,eq_comm]
      exact ⟨fun same => append_cancel_left (bytes.trans same),fun same => bytes.symm.trans (congrArg _ same)⟩
    _ ↔ EndsInZeros ws := by
      rw [eq_replicate_iff,EndsInZeros,before]
      refine and_congr_left' ?_
      omega

theorem Instruction.text?_named (target : Id) (s : String) :
    (Instruction.named target s).text?.isSome = true := by
  show (decodeText (encodeText s)).toOption.isSome = true
  rw [decodeText_encodeText]
  rfl

/-- What is written can be read up to its first zero character, whatever words follow; and what is read
is written with the same words exactly if these end with the text. -/
theorem text_in_words (s : String) (target : Id) :
    (∀ rest, decodeText (encodeText s ++ rest) = .ok (.ofList (s.toList.takeWhile (· != '\x00')))) ∧
    (encodeText s).length = s.utf8ByteSize / 4 + 1 ∧
    (∀ ws, decodeText ws = .ok s → (encodeText s = ws ↔ EndsInZeros ws)) ∧
    ('\x00' ∉ s.toList → (Instruction.named target s).text? = some s) := by
  refine ⟨decodeText_encodeText_append s,length_encodeText s,fun _ => encodeText_eq_iff,fun free => ?_⟩
  show (decodeText (encodeText s)).toOption = some s
  rw [decodeText_encodeText_of_free free]
  rfl

theorem short_text_in_words :
    decodeText [0x6261] = .ok "ab" ∧ EndsInZeros [0x6261] ∧ '\x00' ∉ "ab".toList ∧
      (Instruction.named 7 "ab").text? = some "ab" := by
  obtain ⟨-,-,written,named⟩ := text_in_words "ab" 7
  have free : '\x00' ∉ "ab".toList := by decide
  have words : encodeText "ab" = [0x6261] := by cbv
  have read : decodeText [0x6261] = .ok "ab" := words ▸ decodeText_encodeText_of_free free
  exact ⟨read,(written _ read).mp words,free,named free⟩

end Shading.Bytecode
