import Shading.Proofs.Source.LineMap

/-! Macro expansion ends and settles. The depth of its recursion is bounded by the number of macros, and where no
macro leads back to itself, nothing in the result is left to replace: what is put in may run together with its
surroundings into longer numbers when it is read again, but into no other words. -/
namespace Shading.Source
open List Text

variable {place : Place} {m : Macros}

/-- Expansion with a limit on the depth of its recursion. -/
def expandWithin (place : Place) : (limit : Nat) → Macros → List Char → Option (List Char)
  | 0, _, _ => none
  | limit + 1, m, text => (·.flatten) <$> (pieces text).mapM fun
    | .other c => some [c]
    | .number cs => some cs
    | .word cs =>
      let name := String.ofList cs
      match place.predefined? name, m.lookup name with
      | some value, _ => some value
      | none, some body => expandWithin place limit (m.erase name) body
      | none, none => some cs

theorem mapM_eq_some_map {α β : Type} {f : α → Option β} {g : α → β} {l : List α} (each : ∀ a, f a = some (g a)) :
    l.mapM f = some (l.map g) := by
  obtain rfl : f = fun a => some (g a) := funext each
  exact mapM_pure

theorem expandWithin_eq {limit : Nat} (text : List Char) (within : m.length < limit) :
    expandWithin place limit m text = some (expand place m text) := by
  induction limit generalizing m text with
  | zero => omega
  | succ limit ih =>
    rw [expandWithin,expand,flatMap_def,mapM_eq_some_map fun p => ?_]
    · rfl
    · cases p with
      | other | number => rfl
      | word cs =>
        dsimp only
        split
        · rename_i h; simp [h]
        · rename_i h h'
          have := Macros.length_erase_lt h'
          rw [ih _ (by omega)]
          simp only [h]
          split <;> simp_all
        · rename_i h h'
          simp only [h]
          split <;> simp_all

/-- A macro whose body has a word. -/
def Mentions (m : Macros) (name word : String) : Prop :=
  ∃ body, m.lookup name = some body ∧ .word word.toList ∈ pieces body

theorem lookup_erase {name other : String} (apart : other ≠ name) :
    (m.erase name).lookup other = m.lookup other := by
  induction m with
  | nil => rfl
  | cons d m ih => grind [Macros.erase]

section Reading

variable {c last : Char} {w cs ds rest : List Char}

/-- What follows a number that is read behind the character `last`. -/
def afterNumber (last : Char) (cs : List Char) : List Char := cs.drop (numberLength last cs)

theorem pieces_number (noWord : ¬isWordStart c = true) (starts : startsNumber c rest = true) :
    pieces (c :: rest) = .number (c :: rest.take (numberLength c rest)) :: pieces (afterNumber c rest) := by
  rw [pieces,if_neg noWord,if_pos starts]
  rfl

/-- A number takes a character and goes on behind it, or ends before it. -/
theorem afterNumber_cons (last c : Char) (cs : List Char) : afterNumber last (c :: cs) = afterNumber c cs ∨
    isWordChar c = false ∧ c ≠ '.' ∧ afterNumber last (c :: cs) = c :: cs := by
  unfold afterNumber
  rw [numberLength]
  split
  · exact .inl rfl
  · simp_all

theorem afterNumber_take (last : Char) (cs ds : List Char) :
    ∃ last', afterNumber last (cs.take (numberLength last cs) ++ ds) = afterNumber last' ds := by
  induction cs generalizing last with
  | nil => exact ⟨last,rfl⟩
  | cons c cs ih =>
    rw [numberLength]
    split
    · rw [take_succ_cons,cons_append,afterNumber,numberLength,if_pos ‹_›]
      exact ih c
    · exact ⟨last,rfl⟩

theorem afterNumber_append (last : Char) (cs ds : List Char) :
    afterNumber last (cs ++ ds) = afterNumber last cs ++ ds ∨
      ∃ last', afterNumber last (cs ++ ds) = afterNumber last' ds := by
  induction cs generalizing last with
  | nil => exact .inr ⟨last,rfl⟩
  | cons c cs ih =>
    rw [cons_append]
    unfold afterNumber at ih ⊢
    rw [numberLength,numberLength]
    split
    · exact ih c
    · exact .inl rfl

theorem afterNumber_dropWhile (last : Char) (cs : List Char) :
    ∃ last', afterNumber last cs = afterNumber last' (cs.dropWhile isWordChar) := by
  induction cs generalizing last with
  | nil => exact ⟨last,rfl⟩
  | cons c cs ih =>
    rw [dropWhile_cons]
    split
    · rcases afterNumber_cons last c cs with on | ⟨other,-⟩
      · exact on ▸ ih c
      · simp_all
    · exact ⟨last,rfl⟩

theorem head?_dropWhile (cs : List Char) : (cs.dropWhile isWordChar).head?.any isWordChar = false := by
  have := head?_dropWhile_not isWordChar cs
  cases h : (cs.dropWhile isWordChar).head? <;> simp_all

/-- A number in front takes no word apart. -/
theorem word_of_afterNumber (mem : .word w ∈ pieces (afterNumber last cs)) : .word w ∈ pieces cs := by
  fun_induction pieces cs generalizing last with
  | case1 => simp [afterNumber,pieces] at mem
  | case2 c rest start ih =>
    rcases afterNumber_cons last c rest with on | ⟨other,-⟩
    · obtain ⟨last',same⟩ := afterNumber_dropWhile c rest
      rw [on,same] at mem
      exact mem_cons_of_mem _ (ih mem)
    · simp [Surface.isWordChar_of_isWordStart start] at other
  | case3 c rest noWord starts n =>
    have taken : isWordChar c = true ∨ c = '.' := by
      simp only [startsNumber,Bool.or_eq_true,Bool.and_eq_true,beq_iff_eq] at starts
      exact starts.imp Surface.isWordChar_of_isDigit And.left
    rcases afterNumber_cons last c rest with on | ⟨other,noPoint,-⟩
    · rw [on] at mem
      exact mem_cons_of_mem _ mem
    · simp [other,noPoint] at taken
  | case4 c rest noWord noNumber ih =>
    rcases afterNumber_cons last c rest with on | ⟨-,-,same⟩
    · exact mem_cons_of_mem _ (ih (on ▸ mem))
    · rwa [same,pieces,if_neg noWord,if_neg noNumber] at mem

theorem word_of_cons (noWord : ¬isWordStart c = true) (mem : .word w ∈ pieces (c :: cs)) : .word w ∈ pieces cs := by
  by_cases starts : startsNumber c cs = true
  · rw [pieces_number noWord starts] at mem
    exact word_of_afterNumber (by simpa using mem)
  · simpa [pieces,noWord,starts] using mem

/-- Where no character of a word follows, no word grows. -/
theorem word_of_append (behind : ds.head?.any isWordChar = false) (mem : .word w ∈ pieces (cs ++ ds)) :
    .word w ∈ pieces cs ∨ .word w ∈ pieces ds := by
  have number (c : Char) (rest : List Char) : startsNumber c (rest ++ ds) = startsNumber c rest := by
    cases rest <;> cases ds <;> grind [startsNumber,Surface.isWordChar_of_isDigit]
  fun_induction pieces cs with
  | case1 => exact .inr mem
  | case2 c rest start ih =>
    have split : (rest ++ ds).takeWhile isWordChar = rest.takeWhile isWordChar ∧
        (rest ++ ds).dropWhile isWordChar = rest.dropWhile isWordChar ++ ds := by
      clear ih mem
      induction rest with
      | nil => cases ds <;> simp_all
      | cons d rest ih => simp only [cons_append,takeWhile_cons,dropWhile_cons]; split <;> simp_all
    rw [cons_append,pieces,if_pos start,split.1,split.2] at mem
    rcases mem_cons.mp mem with same | later
    · exact .inl (same ▸ mem_cons_self)
    · exact (ih later).imp_left (mem_cons_of_mem _)
  | case3 c rest noWord starts n ih =>
    rw [cons_append,pieces_number noWord ((number ..).trans starts)] at mem
    have later : .word w ∈ pieces (afterNumber c (rest ++ ds)) := by simpa using mem
    rcases afterNumber_append c rest ds with same | ⟨last',same⟩
    · exact (ih (same ▸ later)).imp_left (mem_cons_of_mem _)
    · exact .inr (word_of_afterNumber (same ▸ later))
  | case4 c rest noWord noNumber ih =>
    rw [cons_append,pieces,if_neg noWord,if_neg (number c rest ▸ noNumber)] at mem
    exact (ih (by simpa using mem)).imp_left (mem_cons_of_mem _)

/-- What comes out where words are replaced has no words but those that are put in. -/
theorem word_of_flatMap {f : Piece → List Char} (numbers : ∀ cs, f (.number cs) = cs) (others : ∀ c, f (.other c) = [c])
    (mem : .word w ∈ pieces ((pieces cs).flatMap f)) : ∃ v, .word v ∈ pieces cs ∧ .word w ∈ pieces (f (.word v)) := by
  have behind {cs : List Char} (ends : cs.head?.any isWordChar = false) :
      ((pieces cs).flatMap f).head?.any isWordChar = false := by
    cases cs with
    | nil => simp [pieces]
    | cons c cs =>
      have noWord : ¬isWordStart c = true := fun start => by
        simp [Surface.isWordChar_of_isWordStart start] at ends
      rw [pieces,if_neg noWord]
      split <;> simpa [numbers,others] using ends
  fun_induction pieces cs with
  | case1 => simp [pieces] at mem
  | case2 c rest start ih =>
    rw [flatMap_cons] at mem
    rcases word_of_append (behind (head?_dropWhile rest)) mem with own | later
    · exact ⟨_,mem_cons_self,own⟩
    · exact (ih later).imp fun v h => h.imp_left (mem_cons_of_mem _)
  | case3 c rest noWord starts n ih =>
    obtain ⟨last',same⟩ := afterNumber_take c rest ((pieces (rest.drop n)).flatMap f)
    have starts' : startsNumber c (rest.take n ++ (pieces (rest.drop n)).flatMap f) = true := by
      cases rest <;> grind [startsNumber,numberLength,Surface.isWordChar_of_isDigit]
    rw [flatMap_cons,numbers,cons_append,pieces_number noWord starts',same] at mem
    exact (ih (word_of_afterNumber (by simpa using mem))).imp fun v h => h.imp_left (mem_cons_of_mem _)
  | case4 c rest noWord noNumber ih =>
    rw [flatMap_cons,others] at mem
    exact (ih (word_of_cons noWord mem)).imp fun v h => h.imp_left (mem_cons_of_mem _)

theorem pieces_word (mem : .word w ∈ pieces cs) : pieces w = [.word w] := by
  fun_induction pieces cs with
  | case1 => cases mem
  | case2 c rest start ih =>
    rcases mem_cons.mp mem with same | later
    · cases same
      have all : ∀ c ∈ rest.takeWhile isWordChar, isWordChar c = true := fun c => mem_takeWhile_imp
      rw [pieces,if_pos start,takeWhile_eq_self_iff.mpr all,dropWhile_eq_nil_iff.mpr all,pieces]
    · exact ih later
  | case3 c rest noWord starts n ih => exact ih (by simpa using mem)
  | case4 c rest noWord noNumber ih => exact ih (by simpa using mem)

theorem word_not_mem_digits (digits : ∀ c ∈ cs, c.isDigit = true) : .word w ∉ pieces cs := by
  fun_induction pieces cs with
  | case1 => exact not_mem_nil
  | case2 c rest start => simp [Surface.isDigit_of_isWordStart start] at digits
  | case3 c rest noWord starts n ih =>
    simpa using ih fun c mem => digits c (mem_cons_of_mem _ (mem_of_mem_drop mem))
  | case4 c rest noWord noNumber => simp [startsNumber,digits c mem_cons_self] at noNumber

end Reading

/-- A word that nothing stands for. -/
def Final (place : Place) (m : Macros) (w : List Char) : Prop :=
  place.predefined? (String.ofList w) = none ∧ m.lookup (String.ofList w) = none

theorem expand_of_final {text : List Char} (final : ∀ w, .word w ∈ pieces text → Final place m w) :
    expand place m text = text := by
  conv_rhs => rw [← flatMap_chars_pieces text]
  rw [expand]
  refine flatMap_congr fun p mem => ?_
  cases p with
  | other | number => rfl
  | word w =>
    obtain ⟨noValue,noBody⟩ := final w mem
    simp only [noValue]
    split
    · simp_all
    · rfl

theorem final_of_expand {m₀ : Macros} {text w : List Char} (acyclic : ∀ a, ¬Relation.TransGen (Mentions m₀) a a)
    (known : ∀ w, .word w ∈ pieces text → ∀ v, Relation.ReflTransGen (Mentions m₀) (String.ofList w) v →
      m.lookup v = m₀.lookup v)
    (mem : .word w ∈ pieces (expand place m text)) : Final place m₀ w := by
  fun_induction expand place m text with
  | case1 m text ih =>
    obtain ⟨v,outer,inner⟩ := word_of_flatMap (fun _ => rfl) (fun _ => rfl) mem
    dsimp only at inner
    split at inner
    · rename_i value predefined
      obtain ⟨n,rfl⟩ := predefined?_eq_some predefined
      refine absurd inner (word_not_mem_digits ?_)
      simpa using Surface.isDigit_toDigits n
    · rename_i noValue
      split at inner
      · rename_i body found
        -- While the body is expanded its macro is missing, but nothing that the body leads to asks for it.
        refine ih v body found (fun u asked name path => ?_) inner
        have step : Mentions m₀ (String.ofList v) (String.ofList u) :=
          ⟨body,known v outer _ .refl ▸ found,by simpa using asked⟩
        rw [lookup_erase,known v outer name (.head step path)]
        rintro rfl
        exact acyclic _ (.head' step path)
      · rename_i noBody
        rw [pieces_word outer,mem_singleton] at inner
        cases inner
        exact ⟨noValue,known w outer _ .refl ▸ noBody⟩

/-- Expansion goes no deeper than there are macros and once more, and where no macro leads back to itself, the
result is not expanded any further. -/
theorem expand_outcome (place : Place) (m : Macros) (text : List Char) :
    expandWithin place (m.length + 1) m text = some (expand place m text) ∧
    ((∀ name, ¬Relation.TransGen (Mentions m) name name) →
      expand place m (expand place m text) = expand place m text) :=
  ⟨expandWithin_eq text (Nat.lt_succ_self _),fun acyclic =>
    expand_of_final fun _ => final_of_expand acyclic fun _ _ _ _ => rfl⟩

/-- Macros that mention only what comes behind them in the alphabet. -/
def layered : Macros := [("A", "B + C".toList), ("B", ['C'])]

theorem lt_of_mentions {a b : String} (mentions : Mentions layered a b) : a < b := by
  have all : (layered.all fun d => (pieces d.2).all fun
      | .word w => d.1 < String.ofList w
      | _ => true) = true := by cbv
  obtain ⟨body,found,word⟩ := mentions
  obtain ⟨_,_,parts,-⟩ := lookup_eq_some_iff.mp found
  have inside := all_eq_true.mp all (a, body) (by simp [parts])
  simpa using all_eq_true.mp inside _ word

theorem layered_outcome : (∀ name, ¬Relation.TransGen (Mentions layered) name name) ∧
    expand ⟨1, 100⟩ layered ['A'] = "C + C".toList ∧
    expand ⟨1, 100⟩ layered "C + C".toList = "C + C".toList := by
  have acyclic (name : String) : ¬Relation.TransGen (Mentions layered) name name := fun cycle => by
    have rises : Relation.TransGen (· < ·) name name := cycle.lift id fun _ _ => lt_of_mentions
    rw [Relation.transGen_eq_self] at rises
    exact lt_irrefl name rises
  have once : expand ⟨1,100⟩ layered ['A'] = "C + C".toList := by cbv
  exact ⟨acyclic,once,once ▸ (expand_outcome ⟨1,100⟩ layered ['A']).2 acyclic⟩

end Shading.Source
