import Mathlib
import Shading.Emission.Phrase
import Shading.Surface.Lexer

/-! Which tokens a written text is read as. A text spells its tokens by itself if the character
behind it cannot continue its last token, so spellings are put together like the texts. -/
namespace Shading.Surface
open List Text Rule

variable {r : Rule} {n : Nat} {c : Char} {p : Char → Bool} {rest : List Char}

theorem byteLength_append (cs ds : List Char) :
    byteLength (cs ++ ds) = byteLength cs + byteLength ds := by
  have sum (cs : List Char) : byteLength cs = (cs.map Char.utf8Size).sum := by
    rw [byteLength,sum_eq_foldl,foldl_map]
  simp [sum]

/-- If nothing but a character of the class `next` follows, `cs` is read as `ts`, and reading goes
on behind it. -/
def Spells (cs : List Char) (next : Char → Bool) (ts : List Token) : Prop :=
  ∀ offset rest, rest.head?.all next = true → ∃ ls offset', ls.map Lexeme.token = ts ∧
    scanFrom offset (cs ++ rest) =
      ⟨ls ++ (scanFrom offset' rest).lexemes, (scanFrom offset' rest).fault⟩

namespace Spells

variable {cs cs' : List Char} {next next' : Char → Bool} {ts ts' : List Token}

theorem nil : Spells [] next [] := fun offset rest _ => ⟨[],offset,rfl,by simp⟩

theorem append (first : Spells cs next ts) (second : Spells cs' next' ts')
    (boundary : ∀ rest : List Char, rest.head?.all next' = true → (cs' ++ rest).head?.all next = true) :
    Spells (cs ++ cs') next' (ts ++ ts') := by
  intro offset rest follows
  obtain ⟨ls,middle,rfl,scanned⟩ := first offset (cs' ++ rest) (boundary rest follows)
  obtain ⟨ls',last,rfl,scanned'⟩ := second middle rest follows
  refine ⟨ls ++ ls',last,by simp,?_⟩
  rw [List.append_assoc,scanned,scanned',List.append_assoc]

theorem append_cons (first : Spells cs next ts) (second : Spells (c :: cs') next' ts')
    (boundary : next c = true) : Spells (cs ++ c :: cs') next' (ts ++ ts') :=
  first.append second fun _ _ => by simpa using boundary

theorem append_anything (first : Spells cs (fun _ => true) ts) (second : Spells cs' next' ts') :
    Spells (cs ++ cs') next' (ts ++ ts') :=
  first.append second fun rest _ => by cases (cs' ++ rest).head? <;> rfl

theorem mono (spells : Spells cs next ts) (narrower : ∀ c, next' c = true → next c = true) :
    Spells cs next' ts := by
  intro offset rest follows
  refine spells offset rest ?_
  cases rest with
  | nil => rfl
  | cons c rest => exact narrower c follows

theorem blank (second : Spells cs next ts) : Spells (' ' :: cs) next ts := by
  intro offset rest follows
  obtain ⟨ls,last,same,scanned⟩ := second (offset + 1) rest follows
  refine ⟨ls,last,same,?_⟩
  rw [cons_append,scanFrom,if_pos (by decide),scanned]

theorem token {r : Rule} {t : Token} (solid : isSeparator c = false)
    (found : r.token? (c :: cs) = some t)
    (taken : ∀ rest : List Char, rest.head?.all next = true →
      furthest (c :: cs ++ rest) = r ∧ r.length (c :: cs ++ rest) = cs.length + 1) :
    Spells (c :: cs) next [t] := by
  intro offset rest follows
  obtain ⟨rule,length⟩ := taken rest follows
  refine ⟨[⟨t,⟨offset,offset + byteLength (c :: cs)⟩⟩],offset + byteLength (c :: cs),rfl,?_⟩
  rw [cons_append] at rule length ⊢
  have text : c :: (cs ++ rest).take cs.length = c :: cs := by simp
  rw [scanFrom,if_neg (by simp [solid])]
  simp only [rule,length,text,found]
  simp

end Spells

section Words

variable {c : Char} {cs rest : List Char}

theorem isWordChar_of_isWordStart (start : isWordStart c = true) : isWordChar c = true := by
  simp only [isWordStart,isWordChar,Bool.or_eq_true,Char.isAlphanum] at start ⊢
  exact start.imp_left .inl

theorem isWordChar_of_isDigit (digit : c.isDigit = true) : isWordChar c = true := by
  simp [isWordChar,Char.isAlphanum,digit]

theorem isDigit_of_isWordStart (start : isWordStart c = true) : c.isDigit = false := by
  simp only [isWordStart,Char.isAlpha,Char.isUpper,Char.isLower,Bool.or_eq_true,
    Bool.and_eq_true,decide_eq_true_eq,beq_iff_eq,UInt32.le_iff_toNat_le] at start
  rw [Char.isDigit,Bool.and_eq_false_iff]
  right
  rw [decide_eq_false_iff_not,UInt32.le_iff_toNat_le]
  rcases start with (h | h) | rfl
  · have := h.1
    simp at this ⊢; omega
  · have := h.1
    simp at this ⊢; omega
  · decide

theorem isSeparator_of_isWordChar (word : isWordChar c = true) : isSeparator c = false := by
  rw [Bool.eq_false_iff]
  intro blank
  simp only [isSeparator,Bool.or_eq_true,beq_iff_eq] at blank
  rcases blank with (((rfl | rfl) | rfl) | rfl) | rfl <;> exact absurd word (by decide)

theorem symbolAt?_isWordChar (word : isWordChar c = true) : symbolAt? (c :: rest) = none := by
  have signs : ∀ s ∈ Symbol.all, ∃ d ds, s.text.toList = d :: ds ∧ isWordChar d = false := by
    intro s _
    cases s <;> exact ⟨_,_,rfl,rfl⟩
  refine List.find?_eq_none.2 fun s mem fits => ?_
  grind

theorem run_append (all : cs.all p = true) (ends : rest.head?.all (!p ·) = true) :
    run p (cs ++ rest) = cs.length := by
  have stops : rest.takeWhile p = [] := by
    cases rest with
    | nil => rfl
    | cons d rest => exact takeWhile_cons_of_neg (by simpa using ends)
  rw [run,takeWhile_append_of_pos (by simpa using all),stops,append_nil]

def endsWord (c : Char) : Bool := !isWordChar c

theorem furthest_eq (reaches : 0 < r.length cs) (alone : ∀ r' ≠ r, r'.length cs = 0) :
    furthest cs = r := by
  cases r <;> simp [furthest,Rule.all,alone,reaches]

theorem floatLength_eq_zero (point : (cs.drop (run Char.isDigit cs)).head? ≠ some '.')
    (exponent : run Char.isDigit cs = 0 ∨ exponentLength (cs.drop (run Char.isDigit cs)) = 0) :
    floatLength cs = 0 := by
  grind [floatLength]

theorem exponentLength_eq_zero (mark : cs.head?.all (!isExponentMark ·) = true) :
    exponentLength cs = 0 := by
  cases cs with
  | nil => rfl
  | cons c cs =>
    have none : isExponentMark c = false := by simpa using mark
    simp [exponentLength,none]

theorem hexadecimalLength_eq_zero (mark : c = '0' → rest.head? ≠ some 'x' ∧ rest.head? ≠ some 'X') :
    hexadecimalLength (c :: rest) = 0 := by
  unfold hexadecimalLength
  grind

theorem length_of_isWordStart (start : isWordStart c = true) (other : r ≠ .word) :
    r.length (c :: cs) = 0 := by
  have word : isWordChar c = true := isWordChar_of_isWordStart start
  have none : run Char.isDigit (c :: cs) = 0 := by simp [run,isDigit_of_isWordStart start]
  cases r with
  | word => contradiction
  | float =>
    refine floatLength_eq_zero ?_ (.inl none)
    rw [none]
    rintro h; cases h; exact absurd word (by decide)
  | decimal => simp [Rule.length,none]
  | hexadecimal =>
    refine hexadecimalLength_eq_zero ?_
    rintro rfl; exact absurd start (by decide)
  | symbol => simp [Rule.length,symbolAt?_isWordChar word]

theorem spells_word (start : isWordStart c = true) (all : cs.all isWordChar = true) :
    Spells (c :: cs) endsWord [wordToken (c :: cs)] := by
  have word : isWordChar c = true := isWordChar_of_isWordStart start
  refine .token (r := .word) (isSeparator_of_isWordChar word) rfl fun rest follows => ?_
  have length : Rule.length (c :: cs ++ rest) .word = cs.length + 1 := by
    rw [Rule.length,if_pos (by simpa [startsWith] using start),
      run_append (by simp [word,all]) (by exact follows)]
    rfl
  exact ⟨furthest_eq (by omega) fun r => length_of_isWordStart start,length⟩

end Words

section Numerals

def endsNumeral (c : Char) : Bool := !isWordChar c && c != '.'

theorem head?_toDigits (positive : 0 < n) : (Nat.toDigits 10 n).head? ≠ some '0' := by
  induction n using Nat.strongRecOn with
  | ind n ih =>
    by_cases small : n < 10
    · rw [Nat.toDigits_of_lt_base small]
      interval_cases n <;> decide
    · have shorter := ih (n / 10) (by omega) (by omega)
      obtain ⟨d,ds,digits⟩ :=
        exists_cons_of_ne_nil (Nat.toDigits_ne_nil (b := 10) (n := n / 10))
      rw [Nat.toDigits_of_base_le (by omega) (by omega),digits]
      rwa [digits] at shorter

theorem decimalValue?_toDigits (fits : n < 2 ^ 64) :
    decimalValue? (Nat.toDigits 10 n) = some n := by
  have digit (c : Char) (mem : c ∈ Nat.toDigits 10 n) : c.isDigit = true :=
    Nat.isDigit_of_mem_toDigits (by omega) (by omega) mem
  have value : numberOf 10 (Nat.toDigits 10 n) = n := by
    conv_rhs => rw [← Nat.ofDigitChars_ten_toDigits (n := n)]
    refine foldl_ext _ _ _ fun m c mem => ?_
    rw [digitValue,if_pos (digit c mem)]
  have decimal : (1 < (Nat.toDigits 10 n).length &&
      startsWith (· == '0') (Nat.toDigits 10 n)) = false := by
    rcases Nat.eq_zero_or_pos n with rfl | positive
    · decide
    · have head := head?_toDigits positive
      cases h : Nat.toDigits 10 n <;> simp_all [startsWith]
  grind [decimalValue?]

def unsignedMark (unsigned : Bool) : List Char := if unsigned then ['u'] else []

def numeral (unsigned : Bool) (n : Nat) : List Char := Nat.toDigits 10 n ++ unsignedMark unsigned

theorem isDigit_toDigits (n : Nat) : (Nat.toDigits 10 n).all Char.isDigit = true :=
  all_eq_true.2 fun _ => Nat.isDigit_of_mem_toDigits (by omega) (by omega)

theorem isUnsignedMark_eq_false (holds : p c = true) (small : p 'u' = false)
    (large : p 'U' = false) : isUnsignedMark c = false := by
  rw [Bool.eq_false_iff]
  intro mark
  simp only [isUnsignedMark,Bool.or_eq_true,beq_iff_eq] at mark
  rcases mark with rfl | rfl
  · simp [small] at holds
  · simp [large] at holds

theorem behind_digits (unsigned : Bool) (follows : rest.head?.all endsNumeral = true)
    (head : (unsignedMark unsigned ++ rest).head? = some c) :
    c.isDigit = false ∧ c ∉ ['.', 'e', 'E', 'x', 'X'] := by
  cases unsigned with
  | true =>
    cases head
    decide
  | false =>
    have ends : endsNumeral c = true := by
      rw [show unsignedMark false ++ rest = rest from rfl] at head
      simpa [head] using follows
    simp only [endsNumeral,Bool.and_eq_true,Bool.not_eq_true',bne_iff_ne] at ends
    refine ⟨?_,?_⟩
    · rw [Bool.eq_false_iff]
      intro digit
      simp [isWordChar_of_isDigit digit] at ends
    · intro mem
      obtain ⟨noWord,noPoint⟩ := ends
      simp only [mem_cons,not_mem_nil,or_false] at mem
      rcases mem with rfl | rfl | rfl | rfl | rfl
      · exact noPoint rfl
      all_goals exact absurd noWord (by decide)

theorem spells_numeral (unsigned : Bool) (fits : n < 2 ^ 64) :
    Spells (numeral unsigned n) endsNumeral [if unsigned then .uint n else .int n] := by
  obtain ⟨d,ds,digits⟩ := exists_cons_of_ne_nil (Nat.toDigits_ne_nil (b := 10) (n := n))
  have all : (d :: ds).all Char.isDigit = true := digits ▸ isDigit_toDigits n
  have digit : d.isDigit = true := by simp_all
  have word : isWordChar d = true := isWordChar_of_isDigit digit
  have value : decimalValue? (d :: ds) = some n := digits ▸ decimalValue?_toDigits fits
  rw [numeral,digits,cons_append]
  refine .token (r := .decimal) (isSeparator_of_isWordChar word) ?_ fun rest follows => ?_
  · have taken : (d :: (ds ++ unsignedMark unsigned)).takeWhile Char.isDigit = d :: ds := by
      rw [← cons_append,takeWhile_append_of_pos (by simpa using all)]
      cases unsigned <;> simp [unsignedMark]
    have marked : (d :: (ds ++ unsignedMark unsigned)).any isUnsignedMark = unsigned := by
      have unmarked : (d :: ds).any isUnsignedMark = false := by
        simpa using fun c mem => isUnsignedMark_eq_false (all_eq_true.1 all c mem) rfl rfl
      rw [← cons_append,any_append,unmarked]
      cases unsigned <;> rfl
    rw [token?,taken,value,Option.map_some,integerToken,marked]
  · have behind {c : Char} := behind_digits (c := c) unsigned follows
    rw [← cons_append,List.append_assoc]
    have whole : run Char.isDigit (d :: ds ++ (unsignedMark unsigned ++ rest)) = ds.length + 1 := by
      refine run_append all ?_
      cases h : (unsignedMark unsigned ++ rest).head? with
      | none => rfl
      | some c => simp [(behind h).1]
    have after : (d :: ds ++ (unsignedMark unsigned ++ rest)).drop (ds.length + 1) =
        unsignedMark unsigned ++ rest := by simp
    have length : Rule.length (d :: ds ++ (unsignedMark unsigned ++ rest)) .decimal =
        (ds ++ unsignedMark unsigned).length + 1 := by
      simp only [Rule.length,whole,withMark,after]
      cases unsigned with
      | true => simp [unsignedMark,startsWith,isUnsignedMark]
      | false =>
        have ends : startsWith isUnsignedMark rest = false := by
          cases rest with
          | nil => rfl
          | cons c rest => exact isUnsignedMark_eq_false (p := endsNumeral) (by simpa using follows) rfl rfl
        simp [unsignedMark,ends]
    refine ⟨furthest_eq (by omega) fun r other => ?_,length⟩
    cases r with
    | word =>
      have start : isWordStart d = false := by
        rw [Bool.eq_false_iff]
        intro start
        simp [isDigit_of_isWordStart start] at digit
      simp [Rule.length,startsWith,start]
    | float =>
      refine floatLength_eq_zero ?_ (.inr ?_)
      · rw [whole,after]
        intro h
        simpa using (behind h).2
      · refine exponentLength_eq_zero ?_
        rw [whole,after]
        cases h : (unsignedMark unsigned ++ rest).head? with
        | none => rfl
        | some c =>
          have := (behind h).2
          simp_all [isExponentMark]
    | decimal => contradiction
    | hexadecimal =>
      refine hexadecimalLength_eq_zero fun _ => ?_
      have plain {c : Char} (head : (ds.append (unsignedMark unsigned ++ rest)).head? = some c) :
          c ≠ 'x' ∧ c ≠ 'X' := by
        cases ds with
        | nil => have := (behind head).2; simp_all
        | cons c' ds =>
          cases head
          have : c.isDigit = true := by simp_all
          constructor <;> rintro rfl <;> exact absurd this (by decide)
      exact ⟨fun h => (plain h).1 rfl,fun h => (plain h).2 rfl⟩
    | symbol => simp [Rule.length,symbolAt?_isWordChar word]
end Numerals

section Signs

def anything (_ : Char) : Bool := true

/-- The signs that no other sign continues. -/
def isolated : Symbol → Bool
  | .leftParen | .rightParen | .leftBracket | .rightBracket | .comma | .colon | .question => true
  | _ => false

theorem spells_isolated {s : Symbol} (alone : isolated s = true) :
    Spells s.text.toList anything [.symbol s] := by
  revert alone
  cases s <;> intro alone <;> first
    | exact .token (r := .symbol) rfl rfl fun _ _ => ⟨rfl,rfl⟩
    | cases alone

theorem spells_dot : Spells ['.'] (!Char.isDigit ·) [.symbol .dot] := by
  refine .token (r := .symbol) rfl rfl fun rest follows => ?_
  have fraction : run Char.isDigit ([] ++ rest) = 0 := run_append rfl follows
  refine ⟨furthest_eq Nat.one_pos fun r other => ?_,rfl⟩
  cases r with
  | float => exact if_pos (show 0 + run Char.isDigit ([] ++ rest) = 0 by omega)
  | symbol => contradiction
  | _ => rfl

/-- The sign of an operator. -/
def binarySign : BinaryOp → Symbol
  | .add => .plus
  | .sub => .minus
  | .mul => .star
  | .div => .slash
  | .mod => .percent
  | .lt => .lt
  | .le => .le
  | .gt => .gt
  | .ge => .ge
  | .eq => .eqEq
  | .ne => .notEq
  | .logicalAnd => .andAnd
  | .logicalOr => .orOr
  | .logicalXor => .xorXor
  | .bitAnd => .amp
  | .bitOr => .pipe
  | .bitXor => .caret
  | .shl => .shl
  | .shr => .shr

theorem spells_symbol (s : Symbol) : Spells s.text.toList (· == ' ') [.symbol s] := by
  have behind (rest : List Char) (follows : rest.head?.all (· == ' ') = true) :
      rest = [] ∨ ∃ more, rest = ' ' :: more := by
    cases rest with
    | nil => exact .inl rfl
    | cons c more => exact .inr ⟨more,by simpa using follows⟩
  cases s <;> refine .token (r := .symbol) rfl rfl fun rest follows => ?_ <;>
    obtain rfl | ⟨more,rfl⟩ := behind rest follows <;> exact ⟨rfl,rfl⟩

theorem spells_binary (op : BinaryOp) :
    Spells op.symbol.toList (· == ' ') [.symbol (binarySign op)] := by
  have spells := spells_symbol (binarySign op)
  cases op <;> exact spells

def unarySign : UnaryOp → Symbol
  | .neg => .minus
  | .not => .bang
  | .bitNot => .tilde

def unaryChar : UnaryOp → Char
  | .neg => '-'
  | .not => '!'
  | .bitNot => '~'

theorem toList_symbol (op : UnaryOp) : op.symbol.toList = [unaryChar op] := by cases op <;> rfl

def besides (op : UnaryOp) (c : Char) : Bool := c != '=' && c != unaryChar op

theorem symbolAt?_unary {op : UnaryOp} (follows : rest.head?.all (besides op) = true) :
    symbolAt? (unaryChar op :: rest) = some (unarySign op) := by
  cases rest with
  | nil => cases op <;> rfl
  | cons c rest =>
    have apart : c ≠ '=' ∧ c ≠ unaryChar op := by simpa [besides] using follows
    cases op <;> simp [unaryChar] at apart <;>
      simp [unaryChar,symbolAt?,Symbol.all,Symbol.text,List.isPrefixOf,unarySign,apart,
        eq_comm (b := c)]

theorem spells_unary (op : UnaryOp) :
    Spells op.symbol.toList (besides op) [.symbol (unarySign op)] := by
  rw [toList_symbol]
  refine .token (r := .symbol) (by cases op <;> rfl) (by cases op <;> rfl) fun rest follows => ?_
  have length : Rule.length (unaryChar op :: rest) .symbol = 1 := by
    rw [Rule.length,symbolAt?_unary follows]
    cases op <;> rfl
  refine ⟨furthest_eq (length ▸ Nat.one_pos) fun r other => ?_,length⟩
  cases r with
  | symbol => contradiction
  | _ => cases op <;> rfl

end Signs

end Shading.Surface
