/-! Text as UTF-8 bytes. `ofUtf8?` accepts exactly the encodings; `ofUtf8Lossy` accepts every byte
string and writes one U+FFFD for each maximal ill-formed part. -/
namespace Shading.Text

def utf8 (s : String) : List UInt8 := s.toUTF8.data.toList

def ofUtf8? (bytes : List UInt8) : Option String := String.fromUTF8? ⟨bytes.toArray⟩

@[simp] theorem ofUtf8?_utf8 (s : String) : ofUtf8? (utf8 s) = some s := by
  have valid : s.toByteArray.IsValidUTF8 := s.isValidUTF8
  simp [ofUtf8?,utf8,String.toUTF8,String.fromUTF8?,String.fromUTF8,valid]

theorem utf8_of_ofUtf8? {bytes : List UInt8} {s : String} (h : ofUtf8? bytes = some s) :
    utf8 s = bytes := by
  simp only [ofUtf8?,String.fromUTF8?] at h
  split at h
  · cases h; simp [utf8,String.toUTF8,String.fromUTF8]
  · contradiction

theorem length_utf8 (s : String) : (utf8 s).length = s.utf8ByteSize := by
  simp [utf8,String.toUTF8]

/-- What the first byte of a sequence of several bytes announces: its payload, how many bytes
follow, and the range that the second one must lie in. -/
structure Lead where
  payload : Nat
  more : Nat
  low : Nat
  high : Nat

def lead? (b : Nat) : Option Lead :=
  if 0xC2 ≤ b ∧ b ≤ 0xDF then some ⟨b - 0xC0, 1, 0x80, 0xBF⟩
  else if b = 0xE0 then some ⟨0, 2, 0xA0, 0xBF⟩
  else if b = 0xED then some ⟨0xD, 2, 0x80, 0x9F⟩
  else if 0xE1 ≤ b ∧ b ≤ 0xEF then some ⟨b - 0xE0, 2, 0x80, 0xBF⟩
  else if b = 0xF0 then some ⟨0, 3, 0x90, 0xBF⟩
  else if 0xF1 ≤ b ∧ b ≤ 0xF3 then some ⟨b - 0xF0, 3, 0x80, 0xBF⟩
  else if b = 0xF4 then some ⟨4, 3, 0x80, 0x8F⟩
  else none

/-- Read the announced continuation bytes. The rest starts at the first byte that does not fit. -/
def continuation (low high : Nat) : Nat → Nat → List UInt8 → Option Nat × List UInt8
  | 0, payload, bytes => (some payload, bytes)
  | _ + 1, _, [] => (none, [])
  | more + 1, payload, b :: bytes =>
    if low ≤ b.toNat ∧ b.toNat ≤ high then
      continuation 0x80 0xBF more (payload * 64 + (b.toNat - 0x80)) bytes
    else (none, b :: bytes)

theorem length_continuation_le (low high more payload : Nat) (bytes : List UInt8) :
    (continuation low high more payload bytes).2.length ≤ bytes.length := by
  induction more generalizing low high payload bytes with
  | zero => simp [continuation]
  | succ more ih =>
    cases bytes with
    | nil => simp [continuation]
    | cons b bytes =>
      simp only [continuation]
      split
      · exact Nat.le_succ_of_le (ih _ _ _ _)
      · simp

def ofUtf8Lossy : List UInt8 → List Char
  | [] => []
  | b :: bytes =>
    if b.toNat < 0x80 then Char.ofNat b.toNat :: ofUtf8Lossy bytes
    else match lead? b.toNat with
      | none => '�' :: ofUtf8Lossy bytes
      | some l =>
        have := length_continuation_le l.low l.high l.more l.payload bytes
        ((continuation l.low l.high l.more l.payload bytes).1.elim '�' Char.ofNat) ::
          ofUtf8Lossy (continuation l.low l.high l.more l.payload bytes).2
termination_by bytes => bytes.length

end Shading.Text
