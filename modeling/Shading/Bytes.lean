/-! Little-endian words in byte sequences, and numbers in hexadecimal. -/
namespace Shading.Bytes

def digit (i n : Nat) : UInt8 := .ofNat (n >>> (8 * i))

def ofWord (w : UInt32) : List UInt8 := [0, 1, 2, 3].map fun i => digit i w.toNat

def word (a b c d : UInt8) : UInt32 :=
  .ofNat (a.toNat + 256 * (b.toNat + 256 * (c.toNat + 256 * d.toNat)))

def ofHalf (h : UInt16) : List UInt8 := [0, 1].map fun i => digit i h.toNat

def half (a b : UInt8) : UInt16 := .ofNat (a.toNat + 256 * b.toNat)

@[simp] theorem length_ofWord (w : UInt32) : (ofWord w).length = 4 := rfl

@[simp] theorem toNat_digit (i n : Nat) : (digit i n).toNat = n >>> (8 * i) % 256 := by simp [digit]

theorem word_digits (w : UInt32) :
    word (digit 0 w.toNat) (digit 1 w.toNat) (digit 2 w.toNat) (digit 3 w.toNat) = w := by
  have bound := w.toNat_lt
  apply UInt32.toNat.inj
  simp only [word,toNat_digit,UInt32.toNat_ofNat']
  omega

theorem ofWord_word (a b c d : UInt8) : ofWord (word a b c d) = [a, b, c, d] := by
  have ha := a.toNat_lt
  have hb := b.toNat_lt
  have hc := c.toNat_lt
  have hd := d.toNat_lt
  simp only [ofWord,List.map_cons,List.map_nil,List.cons.injEq,and_true]
  refine ⟨?_,?_,?_,?_⟩ <;> apply UInt8.toNat.inj <;>
    simp only [toNat_digit,word,UInt32.toNat_ofNat'] <;> omega

theorem half_digits (h : UInt16) : half (digit 0 h.toNat) (digit 1 h.toNat) = h := by
  have bound := h.toNat_lt
  apply UInt16.toNat.inj
  simp only [half,toNat_digit,UInt16.toNat_ofNat']
  omega

theorem ofHalf_half (a b : UInt8) : ofHalf (half a b) = [a, b] := by
  have ha := a.toNat_lt
  have hb := b.toNat_lt
  simp only [ofHalf,List.map_cons,List.map_nil,List.cons.injEq,and_true]
  constructor <;> apply UInt8.toNat.inj <;>
    simp only [toNat_digit,half,UInt16.toNat_ofNat'] <;> omega

def toWords : List UInt8 → List UInt32
  | a :: b :: c :: d :: rest => word a b c d :: toWords rest
  | _ => []

def ofWords (ws : List UInt32) : List UInt8 := ws.flatMap ofWord

@[simp] theorem toWords_ofWords (ws : List UInt32) : toWords (ofWords ws) = ws := by
  induction ws with
  | nil => rfl
  | cons w ws ih =>
    show toWords (ofWord w ++ ofWords ws) = w :: ws
    simp [ofWord,toWords,word_digits,ih]

def hex (width n : Nat) : String :=
  let digits := Nat.toDigits 16 n
  String.ofList (List.replicate (width - digits.length) '0' ++ digits)

end Shading.Bytes
