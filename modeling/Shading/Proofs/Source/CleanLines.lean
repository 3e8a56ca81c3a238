import Shading.Proofs.Source.LineMap

/-! Logical lines are the source without comments, continuations and carriage returns. -/
namespace Shading.Source

variable {m : Mode} {start line : Nat} {done : List Char}

/-- What is left of the text, each character with the source up to it. Comments of one line, joints
of lines and carriage returns are gone; of a block comment its line breaks are left and, if it ends,
a blank. -/
def kept : Mode → (seen : List Char) → List Char → List (Char × List Char)
  | _, _, [] => []
  | .blockComment, seen, '\n' :: rest =>
    ('\n', seen ++ ['\n']) :: kept .blockComment (seen ++ ['\n']) rest
  | .blockComment, seen, '*' :: '/' :: rest =>
    (' ', seen ++ ['*', '/']) :: kept .code (seen ++ ['*', '/']) rest
  | .blockComment, seen, c :: rest => kept .blockComment (seen ++ [c]) rest
  | _, seen, '\n' :: rest => ('\n', seen ++ ['\n']) :: kept .code (seen ++ ['\n']) rest
  | .lineComment, seen, c :: rest => kept .lineComment (seen ++ [c]) rest
  | .code, seen, '\\' :: '\r' :: '\n' :: rest => kept .code (seen ++ ['\\', '\r', '\n']) rest
  | .code, seen, '\\' :: '\n' :: rest => kept .code (seen ++ ['\\', '\n']) rest
  | .code, seen, '/' :: '/' :: rest => kept .lineComment (seen ++ ['/', '/']) rest
  | .code, seen, '/' :: '*' :: rest => kept .blockComment (seen ++ ['/', '*']) rest
  | .code, seen, '\r' :: rest => kept .code (seen ++ ['\r']) rest
  | .code, seen, c :: rest => (c, seen ++ [c]) :: kept .code (seen ++ [c]) rest

/-- Cuts the text at its line feeds. A line that starts behind one has the number that follows the
line feeds up to there, and nothing is left for an empty end. -/
def split (start : Nat) (done : List Char) : List (Char × List Char) → List LogicalLine
  | [] => if done.isEmpty then [] else [⟨start, done⟩]
  | (c, seen) :: rest =>
    if c = '\n' then ⟨start, done⟩ :: split (1 + seen.count '\n') [] rest
    else split start (done ++ [c]) rest

/-- Every carriage return stands before a line feed. -/
def Paired (text : List Char) : Prop :=
  ∀ s ∈ text.tails, s.head? = some '\r' → s.tail.head? = some '\n'

theorem Paired.tail {c : Char} {text : List Char} (paired : Paired (c :: text)) : Paired text :=
  fun s mem => paired s (List.mem_cons_of_mem _ mem)

theorem count_break (seen : List Char) : 1 + (seen ++ ['\n']).count '\n' = 1 + seen.count '\n' + 1 := by
  simp [Nat.add_assoc]

theorem count_other (seen : List Char) {c : Char} (other : c ≠ '\n') :
    1 + (seen ++ [c]).count '\n' = 1 + seen.count '\n' := by
  simp [other]

theorem linesFrom_eq_split {text seen : List Char} (paired : Paired text)
    (reached : line = 1 + seen.count '\n') :
    linesFrom m start line done text = split start done (kept m seen text) := by
  fun_induction linesFrom generalizing seen with
  | case1 => simp_all [kept,split]
  | case2 => simp_all [kept,split]
  | case3 start line done rest ih =>
    rw [ih paired.tail (by rw [reached,count_break]),reached,← count_break]
    rfl
  | case4 start line done rest ih => exact ih paired.tail.tail (by simp [reached])
  | case5 start line done c rest other within ih =>
    rw [ih paired.tail (reached.trans (count_other seen other).symm)]
    simp only [kept]
  | case6 m start line done rest outside ih =>
    rw [ih paired.tail (by rw [reached,count_break])]
    cases m <;> simp_all [kept,split,Nat.add_assoc]
  | case7 start line done c rest other ih =>
    rw [ih paired.tail (reached.trans (count_other seen other).symm)]
    simp only [kept]
  | case8 start line done rest ih => exact ih paired.tail.tail.tail (by simp [reached]; omega)
  | case9 start line done rest unpaired ih =>
    obtain ⟨more,rfl⟩ := List.head?_eq_some_iff.mp (paired.tail _ (List.mem_cons_self ..) rfl)
    exact absurd rfl (unpaired more)
  | case10 start line done rest ih => exact ih paired.tail.tail (by simp [reached]; omega)
  | case11 start line done rest ih => exact ih paired.tail.tail (by simp [reached])
  | case12 start line done rest ih => exact ih paired.tail.tail (by simp [reached])
  | case13 start line done rest ih => exact ih paired.tail (by simp [reached])
  | case14 start line done c rest other joins cut joined comment block returns ih =>
    rw [ih paired.tail (reached.trans (count_other seen other).symm)]
    simp only [kept,split,if_neg other]

theorem linesFrom_increasing {text : List Char} (le : start ≤ line) :
    (∀ n ∈ (linesFrom m start line done text).map LogicalLine.number, start ≤ n) ∧
    ((linesFrom m start line done text).map LogicalLine.number).Pairwise (· < ·) := by
  fun_induction linesFrom with
  | case1 => simp
  | case2 => simp
  | case3 | case6 =>
    rename_i ih
    obtain ⟨above,increasing⟩ := ih le_rfl
    rw [List.map_cons,List.forall_mem_cons,List.pairwise_cons]
    exact ⟨⟨le_rfl,fun n mem => le.trans (Nat.le_of_succ_le (above n mem))⟩,
      fun n mem => le.trans_lt (above n mem),increasing⟩
  | _ =>
    rename_i ih
    exact ih (by omega)

theorem split_eq_nil {text : List (Char × List Char)} :
    split start done text = [] ↔ done = [] ∧ text = [] := by
  induction text generalizing done with
  | nil => simp [split]
  | cons p text ih => by_cases h : p.1 = '\n' <;> simp [split,h,ih]

/-- The lines, without the last one if that holds nothing. -/
def dropEmptyEnd (lines : List LogicalLine) : List LogicalLine :=
  if lines.getLast?.any (·.text.isEmpty) then lines.dropLast else lines

theorem dropEmptyEnd_cons (l : LogicalLine) {lines : List LogicalLine} (more : lines ≠ []) :
    dropEmptyEnd (l :: lines) = l :: dropEmptyEnd lines := by
  obtain ⟨next,rest,rfl⟩ := List.exists_cons_of_ne_nil more
  simp only [dropEmptyEnd,List.getLast?_cons_cons,List.dropLast_cons_cons,apply_ite (List.cons l)]

theorem split_eq_dropEmptyEnd (whole : '\n' ∉ done) (text : List (Char × List Char)) :
    split start done text = dropEmptyEnd (List.zipWith LogicalLine.mk
      (start :: (text.filter (·.1 = '\n')).map (1 + ·.2.count '\n')) ((done ++ text.map Prod.fst).splitOn '\n')) := by
  induction text generalizing start done with
  | nil =>
    rw [List.map_nil,List.append_nil,List.splitOn_eq_singleton whole]
    simp [split,dropEmptyEnd]
  | cons p text ih =>
    by_cases h : p.1 = '\n'
    · rw [split,if_pos h,ih (by simp),List.map_cons,h,List.splitOn_append_cons_self_of_not_mem whole,
        List.filter_cons_of_pos (by simpa using h),List.map_cons,List.zipWith_cons_cons,dropEmptyEnd_cons]
      · rfl
      · simp [List.splitOn_ne_nil]
    · rw [split,if_neg h,ih (by simp [whole,Ne.symm h])]
      simp [h]

theorem split_texts (start : Nat) (done : List Char) (text : List (Char × List Char)) :
    let joined := ['\n'].intercalate ((split start done text).map LogicalLine.text)
    done ++ text.map Prod.fst = joined ∨ done ++ text.map Prod.fst = joined ++ ['\n'] := by
  induction text generalizing start done with
  | nil => by_cases h : done = [] <;> simp [split,h]
  | cons p text ih =>
    by_cases h : p.1 = '\n'
    · cases rest : split (1 + p.2.count '\n') [] text with
      | nil =>
        obtain ⟨-,rfl⟩ := split_eq_nil.mp rest
        simp [split,h]
      | cons l lines =>
        have := ih (1 + p.2.count '\n') []
        rw [rest] at this
        simpa [split,h,rest] using this
    · simpa [split,h] using ih start (done ++ [p.1])

/-- The lines of a text whose carriage returns stand before line feeds. Their numbers increase, and none
holds a line feed. They are the pieces between the line feeds of the text that is kept, but for an empty end;
the number of each is one more than the line feeds before its place. -/
theorem logicalLines_outcome {text : List Char} (paired : Paired text) :
    let lines := logicalLines text
    let left := kept .code [] text
    let joined := ['\n'].intercalate (lines.map LogicalLine.text)
    (lines.map LogicalLine.number).Pairwise (· < ·) ∧ (∀ l ∈ lines, '\n' ∉ l.text) ∧
    lines = dropEmptyEnd (List.zipWith LogicalLine.mk
      (1 :: (left.filter (·.1 = '\n')).map (1 + ·.2.count '\n')) ((left.map Prod.fst).splitOn '\n')) ∧
    (left.map Prod.fst = joined ∨ left.map Prod.fst = joined ++ ['\n']) := by
  have same : logicalLines text = split 1 [] (kept .code [] text) := linesFrom_eq_split paired rfl
  refine ⟨(linesFrom_increasing le_rfl).2,fun l mem => newline_not_mem_linesFrom (by simp) mem,?_,?_⟩
  · rw [same]
    exact split_eq_dropEmptyEnd (by simp) _
  · rw [same]
    exact split_texts 1 [] _

theorem numbered_lines :
    let text := "a/*\n*/b\\\r\nc//d\r\n".toList
    Paired text ∧ logicalLines text = [⟨1, ['a']⟩, ⟨2, [' ', 'b', 'c']⟩] := by
  have paired : Paired "a/*\n*/b\\\r\nc//d\r\n".toList := by unfold Paired; decide
  exact ⟨paired,(logicalLines_outcome paired).2.2.1.trans (by decide)⟩

end Shading.Source
