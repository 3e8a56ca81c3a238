import Shading.Proofs.Bytecode.Deletion

/-! Which code a terminator makes unreachable. Constructs divide a function into segments, which nest: a branch, the
parts of a loop before and after a condition, what runs before the next turn. After a terminator the rest of its
segment is not reached, with all constructs in it; the next segment is. -/
namespace Shading.Bytecode
open List Pass

variable {bound : Id} {code : List Instruction}

/-- The flaw is about the place of an instruction among functions and constructs. -/
def Flaw.isStructural : Flaw → Bool
  | .declaredInside _ | .nestedFunction | .endOutside | .openConstruct | .outsideBody _ | .strayElse | .strayEndIf
  | .strayCondition | .strayContinue | .strayEndLoop | .strayJump _ | .openFunction => true
  | _ => false

def Nested : Nesting → List Instruction → Prop
  | n, [] => n.inFunction = false
  | n, i :: rest =>
    if i.op.isNote then Nested n rest else (n.step i.op).1 = [] ∧ Nested (n.step i.op).2 rest

variable {op : Opcode}

theorem Nesting.isStructural_step {n : Nesting} : ∀ f ∈ (n.step op).1, f.isStructural = true := by
  unfold Nesting.step Nesting.control
  repeat' split
  all_goals simp [Flaw.isStructural]

theorem isStructural_local (code : List Instruction) (defined : List Id) (inside : Bool) (i : Instruction) :
    (∀ f ∈ annotationFlaws code i, f.isStructural = false) ∧ (∀ f ∈ referenceFlaws defined i, f.isStructural = false) ∧
      (∀ f ∈ typeFlaws code i, f.isStructural = false) ∧
      ∀ f ∈ operandFlaws code inside i, f.isStructural = false := by
  refine ⟨?_,fun f mem => ?_,?_,?_⟩
  · unfold annotationFlaws
    dsimp only
    repeat' split
    all_goals simp [Flaw.isStructural]
  · obtain ⟨x,-,rfl⟩ := mem_map.mp mem
    rfl
  · unfold typeFlaws
    repeat' split
    all_goals simp [Flaw.isStructural]
  · unfold operandFlaws
    repeat' split
    all_goals simp [Flaw.isStructural]

theorem nested_iff_orderFindings (code : List Instruction) (index : Nat) (defined : List Id) {n : Nesting}
    {rest : List Instruction} :
    Nested n rest ↔ ∀ f ∈ orderFindings code index defined n rest, f.flaw.isStructural = false := by
  induction rest generalizing index defined n with
  | nil =>
    cases inside : n.inFunction <;> simp [Nested,orderFindings,inside,Flaw.isStructural]
  | cons i rest ih =>
    obtain ⟨annotations,references,types,operands⟩ := isStructural_local code defined n.inFunction i
    rw [Nested,orderFindings]
    split
    · rw [forall_mem_append,forall_mem_map,ih]
      exact ⟨fun later => ⟨annotations,later⟩,And.right⟩
    · rw [forall_mem_append,forall_mem_map,ih,forall_mem_append,forall_mem_append,forall_mem_append]
      refine ⟨fun nested => ⟨⟨⟨⟨references,types⟩,operands⟩,by simp [nested.1]⟩,nested.2⟩,
        fun sound => ⟨eq_nil_iff_forall_not_mem.mpr fun f flawed => ?_,sound.2⟩⟩
      have structural := sound.1.2 f flawed
      rw [Nesting.isStructural_step f flawed] at structural
      cases structural

theorem isStructural_definitionFindings {index : Nat} {seen : List Id} :
    ∀ f ∈ definitionFindings bound index seen code, f.flaw.isStructural = false := by
  induction code generalizing index seen with
  | nil => simp [definitionFindings]
  | cons i code ih =>
    rw [definitionFindings]
    split
    · exact ih
    · refine forall_mem_append.mpr ⟨forall_mem_append.mpr ⟨?_,?_⟩,ih⟩
      all_goals
        split
        all_goals simp [Flaw.isStructural]

theorem nested_iff_findings :
    Nested {} code ↔ ∀ f ∈ findings bound code, f.flaw.isStructural = false := by
  have entry : ∀ f ∈ entryFindings code, f.flaw.isStructural = false := by
    unfold entryFindings
    dsimp only
    split
    all_goals simp [Flaw.isStructural]
  rw [nested_iff_orderFindings code 0 [],findings,forall_mem_append,forall_mem_append]
  exact ⟨fun sound => ⟨⟨isStructural_definitionFindings,sound⟩,entry⟩,fun all => all.1.2⟩

/-- What an instruction does to the segments. -/
inductive Turn where
  | opens
  | turns
  | closes
  | begins
  | finishes
  | stays
  deriving DecidableEq

def Opcode.turn : Opcode → Turn
  | .ifThen | .loop => .opens
  | .orElse | .loopCondition | .loopContinue => .turns
  | .endIf | .endLoop => .closes
  | .function => .begins
  | .functionEnd => .finishes
  | _ => .stays

/-- The segments that are open around an instruction, the innermost first, and those that are open after it. Each is
known by the position of the instruction that starts it. -/
def Turn.segments (position : Nat) (opened : List Nat) : Turn → List Nat × List Nat
  | .opens | .begins => (opened, position :: opened)
  | .turns => (opened.tail, position :: opened.tail)
  | .closes | .finishes => (opened.tail, opened.tail)
  | .stays => (opened, opened)

/-- Every instruction with the segments around it. -/
def placed : Nat → List Nat → List Instruction → List (Instruction × List Nat)
  | _, _, [] => []
  | position, opened, i :: rest =>
    (i, (i.op.turn.segments position opened).1) ::
      placed (position + 1) (i.op.turn.segments position opened).2 rest

def isEnded (before : List (Instruction × List Nat)) (segment : Nat) : Bool :=
  before.any fun p => p.1.op.isTerminator && p.2.head? == some segment

/-- The instructions for which no terminator stands before them in a segment around them. -/
def reached : List (Instruction × List Nat) → List (Instruction × List Nat) → List Instruction
  | _, [] => []
  | before, p :: rest => (if p.2.any (isEnded before) then [] else [p.1]) ++ reached (p :: before) rest

/-- How a function or construct may go on. -/
inductive Moves : Nesting → Turn → Nesting → Prop
  | opens {stack : List Construct} {c : Construct} : Moves ⟨true, stack⟩ .opens ⟨true, c :: stack⟩
  | turns {stack : List Construct} {c c' : Construct} : Moves ⟨true, c :: stack⟩ .turns ⟨true, c' :: stack⟩
  | closes {stack : List Construct} {c : Construct} : Moves ⟨true, c :: stack⟩ .closes ⟨true, stack⟩
  | begins {stack : List Construct} : Moves ⟨false, stack⟩ .begins ⟨true, []⟩
  | finishes : Moves ⟨true, []⟩ .finishes ⟨false, []⟩
  | stays {n : Nesting} : Moves n .stays n

variable {n : Nesting} {i : Instruction} {rest : List Instruction}

theorem Nesting.moves_step (sound : (n.step op).1 = []) :
    Moves n op.turn (n.step op).2 ∧ (op.isTerminator = true → n.inFunction = true) := by
  obtain ⟨inside,stack⟩ := n
  cases inside with
  | false =>
    cases op <;> first
      | exact ⟨.stays,Bool.noConfusion⟩
      | exact ⟨.begins,Bool.noConfusion⟩
      | cases sound
  | true =>
    refine ⟨?_,fun _ => rfl⟩
    cases op <;> first
      | exact .stays
      | exact .opens
      | cases sound
      | rcases stack with - | ⟨_ | _ | _ | _,stack⟩ <;> first
        | exact .turns
        | exact .closes
        | exact .finishes
        | cases sound

theorem Nested.step (nested : Nested n (i :: rest)) : ∃ n', Moves n i.op.turn n' ∧ Nested n' rest ∧
    (i.op.isTerminator = true → n.inFunction = true) ∧ ∀ rest', Nested n' rest' → Nested n (i :: rest') := by
  simp only [Nested] at nested ⊢
  split at nested
  · rename_i annotates
    obtain ⟨op,operands⟩ := i
    refine ⟨n,?_,nested,?_,fun _ later => by rwa [if_pos annotates]⟩
    · cases op <;> first | exact .stays | cases annotates
    · cases op <;> first | exact Bool.noConfusion | cases annotates
  · rename_i states
    obtain ⟨moves,inside⟩ := Nesting.moves_step nested.1
    exact ⟨_,moves,nested.2,inside,fun _ later => by rw [if_neg states]; exact ⟨nested.1,later⟩⟩

theorem skipBlock_cons (depth : Nat) : skipBlock depth (i :: rest) =
    match i.op.turn, depth with
    | .opens, depth => skipBlock (depth + 1) rest
    | .closes, depth + 1 => skipBlock depth rest
    | .turns, 0 | .closes, 0 | .finishes, 0 => i :: keepReached rest
    | _, depth => skipBlock depth rest := by
  obtain ⟨op,operands⟩ := i
  cases depth <;> cases op <;> rfl

theorem Nested.keepReached :
    (∀ {n : Nesting}, Nested n code → Nested n (keepReached code)) ∧
      ∀ (inner : List Construct) {stack : List Construct}, Nested ⟨true, inner ++ stack⟩ code →
        Nested ⟨true, stack⟩ (skipBlock inner.length code) := by
  induction code with
  | nil => exact ⟨id,fun _ _ nested => nomatch nested⟩
  | cons i code ih =>
    refine ⟨fun {n} nested => ?_,fun inner stack nested => ?_⟩
    · obtain ⟨n',moves,later,inside,again⟩ := nested.step
      rw [Pass.keepReached]
      refine again _ ?_
      split
      · rename_i ends
        obtain ⟨_,stack⟩ := n
        cases inside ends
        have same : n' = ⟨true,stack⟩ := by
          obtain ⟨op,operands⟩ := i
          cases op <;> first | (cases ends; done) | cases moves; rfl
        subst same
        exact ih.2 [] later
      · exact ih.1 later
    · obtain ⟨n',moves,later,-,again⟩ := nested.step
      rw [skipBlock_cons]
      generalize i.op.turn = turn at moves
      cases inner with
      | nil =>
        cases moves with
        | opens => exact ih.2 [_] later
        | turns | closes => exact again _ (ih.1 later)
        | finishes => exact again _ (ih.1 later)
        | stays => exact ih.2 [] later
      | cons c inner =>
        cases moves with
        | opens => exact ih.2 (_ :: _ :: inner) later
        | turns => exact (ih.2 (_ :: inner) later :)
        | closes => exact ih.2 inner later
        | stays => exact ih.2 (_ :: inner) later

/-- The open segments are those of the nesting: one for the function and one for each construct, younger ones first. -/
structure Segmented (n : Nesting) (position : Nat) (opened : List Nat) (before : List (Instruction × List Nat)) :
    Prop where
  outside : n.inFunction = false → opened = []
  inside : n.inFunction = true → opened.length = n.stack.length + 1
  younger : opened.Pairwise (· > ·)
  old : ∀ g ∈ opened, g < position
  heads : ∀ p ∈ before, ∀ g ∈ p.2.head?, g < position

section Segments

variable {position : Nat} {opened : List Nat} {before : List (Instruction × List Nat)} {p : Instruction × List Nat}
  {g : Nat}

theorem isEnded_cons : isEnded (p :: before) g =
    (p.1.op.isTerminator && p.2.head? == some g || isEnded before g) := rfl

/-- What stands in another segment ends none of these. -/
theorem isEnded_cons_eq_false {gs : List Nat} (open_ : ∀ g ∈ gs, isEnded before g = false)
    (apart : p.1.op.isTerminator = true → ∀ g ∈ p.2.head?, g ∉ gs) :
    ∀ g ∈ gs, isEnded (p :: before) g = false := by
  intro g mem
  rw [isEnded_cons,open_ g mem,Bool.or_false,Bool.and_eq_false_imp]
  intro ends
  exact beq_eq_false_iff_ne.mpr fun head => apart ends g head mem

theorem Segmented.isEnded_position (segmented : Segmented n position opened before) :
    isEnded before position = false := by
  refine any_eq_false.mpr fun p mem ended => ?_
  simp only [Bool.and_eq_true,beq_iff_eq] at ended
  exact Nat.lt_irrefl _ (segmented.heads p mem position ended.2)

theorem Segmented.step {n' : Nesting} (segmented : Segmented n position opened before)
    (moves : Moves n i.op.turn n') : Segmented n' (position + 1) (i.op.turn.segments position opened).2
      ((i, (i.op.turn.segments position opened).1) :: before) := by
  obtain ⟨outside,inside,younger,old,heads⟩ := segmented
  have later : ∀ g ∈ opened, g < position + 1 := fun g mem => Nat.lt_succ_of_lt (old g mem)
  have tail : ∀ g ∈ opened.tail, g < position + 1 := fun g mem => later g (mem_of_mem_tail mem)
  have above : ∀ g ∈ opened.tail, position > g := fun g mem => old g (mem_of_mem_tail mem)
  have first {gs : List Nat} (less : gs ⊆ opened) : ∀ q ∈ (i, gs) :: before, ∀ g ∈ q.2.head?, g < position + 1 := by
    refine forall_mem_cons.mpr ⟨fun g head => later g (less (mem_of_mem_head? head)),fun q mem g head => ?_⟩
    exact Nat.lt_succ_of_lt (heads q mem g head)
  generalize i.op.turn = turn at moves
  cases moves with
  | opens =>
    exact ⟨nofun,fun _ => by simp [Turn.segments,inside rfl],pairwise_cons.mpr ⟨old,younger⟩,
      forall_mem_cons.mpr ⟨Nat.lt_succ_self _,later⟩,first (Subset.refl _)⟩
  | turns =>
    exact ⟨nofun,fun _ => by simp [Turn.segments,inside rfl],pairwise_cons.mpr ⟨above,younger.tail⟩,
      forall_mem_cons.mpr ⟨Nat.lt_succ_self _,tail⟩,first fun _ => mem_of_mem_tail⟩
  | closes =>
    exact ⟨nofun,fun _ => by simp [Turn.segments,inside rfl],younger.tail,tail,first fun _ => mem_of_mem_tail⟩
  | begins =>
    exact ⟨nofun,fun _ => by simp [Turn.segments,outside rfl],pairwise_cons.mpr ⟨old,younger⟩,
      forall_mem_cons.mpr ⟨Nat.lt_succ_self _,later⟩,first (Subset.refl _)⟩
  | finishes =>
    refine ⟨fun _ => ?_,nofun,younger.tail,tail,first fun _ => mem_of_mem_tail⟩
    exact eq_nil_of_length_eq_zero (by simp [Turn.segments,inside rfl])
  | stays => exact ⟨outside,inside,younger,later,first (Subset.refl _)⟩

theorem Turn.segments_sublist (position : Nat) (opened : List Nat) (turn : Turn) :
    (turn.segments position opened).1.Sublist opened := by
  cases turn <;> first | exact Sublist.refl _ | exact tail_sublist _

theorem Turn.mem_segments {turn : Turn} (mem : g ∈ (turn.segments position opened).2) :
    g = position ∨ g ∈ (turn.segments position opened).1 := by
  cases turn <;> first | exact .inr mem | exact mem_cons.mp mem

/-- The segment of an instruction is none of those around a segment that is still open. -/
theorem not_mem_of_head? (inner : List Nat) {outer : List Nat} {x : Nat}
    (younger : (inner ++ g :: outer).Pairwise (· > ·))
    (head : (inner ++ g :: outer).head? = some x) : x ∉ outer := by
  intro mem
  cases inner with
  | nil =>
    cases head
    exact Nat.lt_irrefl _ ((pairwise_cons.mp younger).1 _ mem)
  | cons a inner =>
    cases head
    exact Nat.lt_irrefl _ ((pairwise_cons.mp younger).1 _ (by simp [mem]))

theorem turn_of_isTerminator (ends : i.op.isTerminator = true) : i.op.turn = .stays := by
  obtain ⟨op,operands⟩ := i
  cases op <;> first | rfl | cases ends

/-- Counting constructs finds the end of a segment. -/
theorem Nested.keepReached_eq : ∀ {n : Nesting} {position : Nat} {opened : List Nat}
    {before : List (Instruction × List Nat)}, Nested n code → Segmented n position opened before →
      ((∀ g ∈ opened, isEnded before g = false) → Pass.keepReached code = reached before (placed position opened code)) ∧
      ∀ (inner : List Nat) {outer : List Nat} {g : Nat}, opened = inner ++ g :: outer → isEnded before g = true →
        (∀ h ∈ outer, isEnded before h = false) →
          skipBlock inner.length code = reached before (placed position opened code) := by
  induction code with
  | nil => exact fun _ _ => ⟨fun _ => rfl,fun _ _ _ _ _ _ => rfl⟩
  | cons i code ih =>
    intro n position opened before nested segmented
    obtain ⟨n',moves,later,inside,-⟩ := nested.step
    obtain ⟨live,skipping⟩ := ih later (segmented.step moves)
    have sub := i.op.turn.segments_sublist position opened
    -- An instruction that is reached and does not end its segment.
    have goes (open_ : ∀ g ∈ (i.op.turn.segments position opened).1, isEnded before g = false)
        (going : i.op.isTerminator = false) :
        i :: Pass.keepReached code = reached before (placed position opened (i :: code)) := by
      have none : (i.op.turn.segments position opened).1.any (isEnded before) = false := by simpa using open_
      rw [placed,reached,none,live (isEnded_cons_eq_false (fun g mem => ?_) (by simp [going]))]
      · rfl
      · rcases Turn.mem_segments mem with rfl | around
        · exact segmented.isEnded_position
        · exact open_ g around
    refine ⟨fun open_ => ?_,fun inner outer g split ended open_ => ?_⟩
    · have around := fun g mem => open_ g (sub.subset mem)
      rw [Pass.keepReached]
      cases ends : i.op.isTerminator with
      | false => exact goes around ends
      | true =>
        have none : (i.op.turn.segments position opened).1.any (isEnded before) = false := by simpa using around
        rw [placed,reached,none]
        rw [turn_of_isTerminator ends] at skipping ⊢
        refine congrArg (i :: ·) ?_
        obtain ⟨g,outer,rfl⟩ := exists_cons_of_length_eq_add_one (segmented.inside (inside ends))
        refine skipping [] rfl (by simp [isEnded_cons,ends,Turn.segments]) ?_
        refine isEnded_cons_eq_false (forall_mem_cons.mp open_).2 fun _ x head => ?_
        exact not_mem_of_head? [] segmented.younger head
    · -- An instruction of the segment that ended, or of a construct in it.
      have skips (inner' inner'' : List Nat) (around : (i.op.turn.segments position opened).1 = inner' ++ g :: outer)
          (after : (i.op.turn.segments position opened).2 = inner'' ++ g :: outer) :
          skipBlock inner''.length code = reached before (placed position opened (i :: code)) := by
        have some : (i.op.turn.segments position opened).1.any (isEnded before) = true := by
          simp [around,ended]
        rw [placed,reached,some]
        refine skipping inner'' after (by rw [isEnded_cons,ended,Bool.or_true]) (isEnded_cons_eq_false open_ ?_)
        intro _ x head
        exact not_mem_of_head? inner' (around ▸ segmented.younger.sublist sub) (around ▸ head)
      rw [skipBlock_cons]
      have ordinary (turns : i.op.turn ≠ .stays) : i.op.isTerminator = false :=
        Bool.eq_false_iff.mpr fun ends => turns (turn_of_isTerminator ends)
      subst split
      generalize i.op.turn = turn at *
      cases inner with
      | nil =>
        cases moves with
        | opens => exact skips [] [_] rfl rfl
        | turns => exact goes open_ (ordinary (by simp))
        | closes => exact goes open_ (ordinary (by simp))
        | finishes => exact goes open_ (ordinary (by simp))
        | begins => cases segmented.outside rfl
        | stays => exact skips [] [] rfl rfl
      | cons h inner =>
        cases moves with
        | opens => exact skips (_ :: inner) (_ :: _ :: inner) rfl rfl
        | turns => exact skips inner (position :: inner) rfl rfl
        | closes => exact skips inner inner rfl rfl
        | finishes => simpa using segmented.inside rfl
        | begins => cases segmented.outside rfl
        | stays => exact skips (_ :: inner) (_ :: inner) rfl rfl

end Segments

/-- After a terminator comes the end of its segment, if anything. -/
def Stopped : List Instruction → Prop
  | [] => True
  | i :: rest => (∀ j ∈ rest.head?, i.op.isTerminator = true → endsBlock j.op = true) ∧ Stopped rest

theorem isTerminator_of_endsBlock (ends : endsBlock op = true) : op.isTerminator = false := by
  cases op <;> first | rfl | cases ends

theorem stopped_keepReached (code : List Instruction) : Stopped (keepReached code) ∧
    ∀ depth, Stopped (skipBlock depth code) ∧ ∀ j ∈ (skipBlock depth code).head?, endsBlock j.op = true := by
  induction code with
  | nil => exact ⟨trivial,fun _ => ⟨trivial,nofun⟩⟩
  | cons i code ih =>
    obtain ⟨live,skipping⟩ := ih
    refine ⟨?_,fun depth => ?_⟩
    · rw [keepReached]
      split
      · exact ⟨fun j head _ => (skipping 0).2 j head,(skipping 0).1⟩
      · rename_i going
        exact ⟨fun _ _ ends => absurd ends going,live⟩
    · have kept (turn : i.op.turn ≠ .opens) (turn' : i.op.turn ≠ .begins) (turn'' : i.op.turn ≠ .stays) :
          Stopped (i :: keepReached code) ∧ ∀ j ∈ (i :: keepReached code).head?, endsBlock j.op = true := by
        have ends : endsBlock i.op = true := by
          obtain ⟨op,operands⟩ := i
          cases op <;> first | rfl | exact absurd rfl turn | exact absurd rfl turn' | exact absurd rfl turn''
        refine ⟨⟨fun _ _ stops => ?_,live⟩,fun j head => ?_⟩
        · rw [isTerminator_of_endsBlock ends] at stops
          cases stops
        · cases head
          exact ends
      rw [skipBlock_cons]
      generalize i.op.turn = turn at kept
      cases turn with
      | opens => exact skipping (depth + 1)
      | begins => exact skipping depth
      | stays => exact skipping depth
      | turns | closes | finishes =>
        cases depth
        · exact kept (by simp) (by simp) (by simp)
        · exact skipping _

theorem keepReached_sublist :
    (keepReached code).Sublist code ∧ ∀ depth, (skipBlock depth code).Sublist code := by
  induction code with
  | nil => exact ⟨.slnil,fun _ => .slnil⟩
  | cons i code ih =>
    obtain ⟨live,skipping⟩ := ih
    refine ⟨?_,fun depth => ?_⟩
    · rw [keepReached]
      split
      · exact (skipping 0).cons_cons i
      · exact live.cons_cons i
    · rw [skipBlock_cons]
      split
      all_goals first | exact (skipping _).cons i | exact live.cons_cons i

theorem Stopped.keepReached_eq (stopped : Stopped code) : keepReached code = code := by
  induction code with
  | nil => rfl
  | cons i code ih =>
    obtain ⟨ender,later⟩ := stopped
    rw [keepReached]
    split
    · rename_i ends
      refine congrArg (i :: ·) ?_
      cases code with
      | nil => rfl
      | cons j code =>
        have closes := ender j rfl ends
        have same := ih later
        rw [keepReached,isTerminator_of_endsBlock closes] at same
        obtain ⟨op,operands⟩ := j
        cases op <;> first | exact same | cases closes
    · rw [ih later]

variable {keep : Instruction → Bool} {code : List Instruction}

section

variable (all : ∀ i, i.op.isNote = false → keep i = true)
include all

theorem Stopped.filter (stopped : Stopped code) : Stopped (code.filter keep) := by
  induction code with
  | nil => trivial
  | cons i code ih =>
    obtain ⟨ender,later⟩ := stopped
    rw [filter_cons]
    split
    · refine ⟨fun j head ends => ?_,ih later⟩
      cases code with
      | nil => cases head
      | cons j' code =>
        have closes := ender j' rfl ends
        have kept : keep j' = true := all j' (by
          obtain ⟨op,operands⟩ := j'
          cases op <;> first | rfl | cases closes)
        rw [filter_cons,if_pos kept] at head
        cases head
        exact closes
    · exact ih later

theorem Nested.filter {n : Nesting} (nested : Nested n code) : Nested n (code.filter keep) := by
  induction code generalizing n with
  | nil => exact nested
  | cons i code ih =>
    rw [filter_cons]
    rw [Nested] at nested
    split at nested
    · rename_i annotates
      split
      · rw [Nested,if_pos annotates]
        exact ih nested
      · exact ih nested
    · rename_i states
      rw [if_pos (all i (Bool.eq_false_iff.mpr states)),Nested,if_neg states]
      exact ⟨nested.1,ih nested.2⟩

end

/-- What is neither a name nor a decoration. -/
def stated (code : List Instruction) : List Instruction :=
  code.filter fun i => i.op ≠ .debugName ∧ i.op ≠ .decorate

/-- Deleting what is unreachable gives the same when done again. A terminator is left only at the end of its
segment. In nested code what is left nests, and up to names and decorations it is what no terminator stands
before in a segment around it. -/
theorem dropUnreachable_outcome (code : List Instruction) : ∃ out,
    (dropUnreachable code).map Outcome.code = .ok out ∧ (dropUnreachable out).map Outcome.code = .ok out ∧
      out.Sublist code ∧ Stopped out ∧ ∀ bound, (∀ f ∈ findings bound code, f.flaw.isStructural = false) →
        (∀ f ∈ findings bound out, f.flaw.isStructural = false) ∧
          stated out = stated (reached [] (placed 0 [] code)) := by
  have again {out : List Instruction} (stopped : Stopped out) : (dropUnreachable out).map Outcome.code = .ok out := by
    rw [dropUnreachable,stopped.keepReached_eq,if_pos rfl]
    rfl
  have exact_ (nested : Nested {} code) : Pass.keepReached code = reached [] (placed 0 [] code) :=
    (nested.keepReached_eq ⟨fun _ => rfl,nofun,.nil,by simp,by simp⟩).1 (by simp)
  by_cases same : (Pass.keepReached code).length = code.length
  · have all := keepReached_sublist.1.eq_of_length same
    have stopped : Stopped code := all ▸ (stopped_keepReached code).1
    refine ⟨code,again stopped,again stopped,.refl _,stopped,fun bound accepted => ⟨accepted,?_⟩⟩
    rw [← exact_ (nested_iff_findings.mpr accepted),all]
  · have fresh (i : Instruction) : i.op.isNote = false → i.IsFresh (results (Pass.keepReached code)) = true :=
      Instruction.isFresh_of_isNote_false
    have stopped := (stopped_keepReached code).1.filter fresh
    refine ⟨_,?_,again stopped,filter_sublist.trans keepReached_sublist.1,stopped,fun bound accepted => ?_⟩
    · rw [dropUnreachable,if_neg same]
      rfl
    · have nested := nested_iff_findings.mpr accepted
      refine ⟨nested_iff_findings.mp ((Nested.keepReached.1 nested).filter fresh),?_⟩
      rw [← exact_ nested,stated,filter_filter]
      refine filter_congr fun i _ => ?_
      cases kept : i.IsFresh (results (Pass.keepReached code)) with
      | true => exact Bool.and_true _
      | false =>
        obtain ⟨op | op,-⟩ := Instruction.isFresh_eq_false.mp kept
        all_goals simp [op]

def returning : List Instruction :=
  [⟨.entryPoint, [1]⟩, ⟨.function, [9, 1, 10]⟩, ⟨.ret, []⟩, ⟨.ifThen, [5]⟩, ⟨.orElse, []⟩, ⟨.kill, []⟩,
    ⟨.endIf, []⟩, ⟨.functionEnd, []⟩]

/-- A branch after a return goes as a whole. -/
theorem branch_dropped : (∀ f ∈ findings 20 returning, f.flaw.isStructural = false) ∧
    ∃ out, (dropUnreachable returning).map Outcome.code = .ok out ∧
      stated out = [⟨.entryPoint, [1]⟩, ⟨.function, [9, 1, 10]⟩, ⟨.ret, []⟩, ⟨.functionEnd, []⟩] := by
  have accepted : ∀ f ∈ findings 20 returning, f.flaw.isStructural = false := by decide
  obtain ⟨out,made,-,-,-,rest⟩ := dropUnreachable_outcome returning
  exact ⟨accepted,out,made,(rest 20 accepted).2.trans (by decide)⟩

end Shading.Bytecode
