import Shading.Proofs.Bytecode.Renaming

/-! Constant folding goes once through the code. Results of operations on constants, and of choices with
a constant condition, are deleted, and all that mentions them mentions a constant or the chosen value.
`Folds` says why that is right, for each instruction that is deleted. -/
namespace Shading.Bytecode
open List Pass

variable {code : List Instruction} {i : Instruction} {v : Id}

def Instruction.scalar? (i : Instruction) : Option (Id × Scalar) :=
  match i.op, i.operands with
  | .typeBool, id :: _ => some (id, .bool)
  | .typeFloat, id :: _ => some (id, .float)
  | .typeInt, id :: sign :: _ => some (id, if sign ≠ 0 then .int else .uint)
  | _, _ => none

theorem Instruction.scalar?_eq_some {ty : Id} {kind : Scalar}
    (declares : i.scalar? = some (ty, kind)) :
    (∃ rest, i = ⟨.typeBool, ty :: rest⟩ ∧ kind = .bool) ∨
      (∃ rest, i = ⟨.typeFloat, ty :: rest⟩ ∧ kind = .float) ∨
        ∃ sign rest, i = ⟨.typeInt, ty :: sign :: rest⟩ ∧ kind = if sign ≠ 0 then .int else .uint := by
  obtain ⟨op,operands⟩ := i
  unfold scalar? at declares
  grind

def Typed (code : List Instruction) (ty : Id) (kind : Scalar) : Prop :=
  ∃ i ∈ code, i.scalar? = some (ty, kind)

def Known (code : List Instruction) (x : Id) (c : Const) : Prop :=
  ∃ ty word rest, ⟨.constant, ty :: x :: word :: rest⟩ ∈ code ∧
    ∃ kind, Typed code ty kind ∧ c = .ofBits kind word

section Declarations

variable {code code' : List Instruction} {ty x : Id} {kind : Scalar} {c : Const}

theorem Typed.mono (typed : Typed code ty kind) (sub : code ⊆ code') : Typed code' ty kind :=
  let ⟨i,mem,declared⟩ := typed
  ⟨i,sub mem,declared⟩

theorem Known.mono (known : Known code x c) (sub : code ⊆ code') : Known code' x c :=
  let ⟨ty,word,rest,mem,kind,typed,value⟩ := known
  ⟨ty,word,rest,sub mem,kind,typed.mono sub,value⟩

theorem Typed.mem_results (typed : Typed code ty kind) : ty ∈ results code := by
  obtain ⟨i,mem,declares⟩ := typed
  refine Bytecode.mem_results.mpr ⟨i,mem,?_⟩
  obtain ⟨rest,rfl,-⟩ | ⟨rest,rfl,-⟩ | ⟨sign,rest,rfl,-⟩ := Instruction.scalar?_eq_some declares
  all_goals rfl

theorem Known.mem_results (known : Known code x c) : x ∈ results code :=
  let ⟨_,_,_,mem,_⟩ := known
  Bytecode.mem_results.mpr ⟨_,mem,rfl⟩

end Declarations

/-- Why an instruction can be deleted: its value is that of another id. -/
inductive Folds (code : List Instruction) : Instruction → Id → Prop
  | select {ty r x a b : Id} {rest : List UInt32} {cond : Bool} (condition : Known code x (.bool cond)) :
      Folds code ⟨.select, ty :: r :: x :: a :: b :: rest⟩ (if cond then a else b)
  | binary {ty r w x y v : Id} {rest : List UInt32} {op : BinaryOp} {left right c : Const}
      (operator : BinaryOp.ofCode? w.toNat = some op) (first : Known code x left)
      (second : Known code y right) (computed : Const.binary? op left right = some c)
      (typed : Typed code ty c.kind) (value : Known code v c) :
      Folds code ⟨.binary, ty :: r :: w :: x :: y :: rest⟩ v
  | unary {ty r w x v : Id} {rest : List UInt32} {op : UnaryOp} {operand c : Const}
      (operator : UnaryOp.ofCode? w.toNat = some op) (first : Known code x operand)
      (computed : Const.unary? op operand = some c) (typed : Typed code ty c.kind)
      (value : Known code v c) : Folds code ⟨.unary, ty :: r :: w :: x :: rest⟩ v
  | construct {ty r x v : Id} {operand : Const} {kind : Scalar} (first : Known code x operand)
      (typed : Typed code ty kind) (value : Known code v (operand.cast kind)) :
      Folds code ⟨.construct, [ty, r, x]⟩ v

section

variable (folds : Folds code i v)
include folds

theorem Folds.mem : v ∈ i.references ∨ v ∈ results code := by
  cases folds with
  | @select ty r x a b rest cond condition =>
    refine .inl (Instruction.mem_references.mpr ?_)
    cases cond
    · exact ⟨4,rfl,rfl⟩
    · exact ⟨3,rfl,rfl⟩
  | binary _ _ _ _ _ value => exact .inr value.mem_results
  | unary _ _ _ _ value => exact .inr value.mem_results
  | construct _ _ value => exact .inr value.mem_results

theorem Folds.mono {code' : List Instruction} (sub : code ⊆ code') : Folds code' i v := by
  cases folds with
  | select condition => exact .select (condition.mono sub)
  | binary operator first second computed typed value =>
    exact .binary operator (first.mono sub) (second.mono sub) computed (typed.mono sub) (value.mono sub)
  | unary operator first computed typed value =>
    exact .unary operator (first.mono sub) computed (typed.mono sub) (value.mono sub)
  | construct first typed value => exact .construct (first.mono sub) (typed.mono sub) (value.mono sub)

def Opcode.isComputed : Opcode → Bool
  | .select | .binary | .unary | .construct => true
  | _ => false

theorem Folds.isComputed : i.op.isComputed = true := by
  cases folds <;> rfl

end

namespace Pass.Folding

variable {s : Folding} {i : Instruction} {x r v ty : Id} {c : Const} {outside code : List Instruction}
  {base : Nat}

def subst (s : Folding) (x : Id) : Id := (s.replaced.lookup x).getD x

def keeps (s : Folding) (i : Instruction) : Bool :=
  i.result?.all fun r => (s.replaced.lookup r).isNone

theorem subst_of_lookup_none (absent : s.replaced.lookup x = none) : s.subst x = x := by
  rw [subst,absent]
  rfl

theorem rename_eq (new : ∀ r, i.result? = some r → s.replaced.lookup r = none) :
    s.rename i = renameIds s.subst i := by
  refine renameIds_congr (fun x _ => ?_) fun x result => ?_
  · split
    · rename_i result
      exact (subst_of_lookup_none (new x result.symm)).symm
    · rfl
  · rw [if_pos result.symm,subst_of_lookup_none (new x result)]

def isLearned : Opcode → Bool
  | .typeBool | .typeFloat | .typeInt | .constant => true
  | _ => false

theorem learn_eq_self (op : isLearned i.op = false) : s.learn i = s := by
  obtain ⟨op',operands⟩ := i
  cases op' <;> first | rfl | cases op

theorem chosen?_eq_some : s.chosen? i = some v ↔
    ∃ ty r c a b rest cond, i = ⟨.select, ty :: r :: c :: a :: b :: rest⟩ ∧
      s.constants.lookup c = some (.bool cond) ∧ v = if cond then a else b := by
  constructor
  · intro chosen
    obtain ⟨op,operands⟩ := i
    simp only [chosen?,Instruction.reach_eq] at chosen
    grind
  · rintro ⟨ty,r,c,a,b,rest,cond,rfl,found,rfl⟩
    simp [chosen?,found]

theorem eval?_eq_some : s.eval? i = some c ↔
    (∃ ty r w x y rest op cx cy, i = ⟨.binary, ty :: r :: w :: x :: y :: rest⟩ ∧
      BinaryOp.ofCode? w.toNat = some op ∧ s.constants.lookup x = some cx ∧
        s.constants.lookup y = some cy ∧ Const.binary? op cx cy = some c) ∨
    (∃ ty r w x rest op cx, i = ⟨.unary, ty :: r :: w :: x :: rest⟩ ∧
      UnaryOp.ofCode? w.toNat = some op ∧ s.constants.lookup x = some cx ∧
        Const.unary? op cx = some c) ∨
    ∃ ty r x cx kind, i = ⟨.construct, [ty, r, x]⟩ ∧ s.kinds.lookup ty = some kind ∧
      s.constants.lookup x = some cx ∧ c = cx.cast kind := by
  constructor
  · intro value
    obtain ⟨op,operands⟩ := i
    simp only [eval?,Instruction.reach_eq] at value
    split at value
    · simp only [Option.bind_eq_bind,Option.bind_eq_some_iff] at value
      grind
    · grind [Option.bind_eq_some_iff]
    · grind [Option.bind_eq_some_iff]
    · cases value
  grind [eval?,Instruction.reach_eq]

def settle (s : Folding) (ty : Id) (c : Const) : Folding :=
  { (s.intern ty c).2 with constants := ((s.intern ty c).1, c) :: (s.intern ty c).2.constants }

theorem step_cases (new : isLearned i.op = false) : s.step i = (some (s.rename i), s) ∨
    (∃ v, s.chosen? (s.rename i) = some v ∧
      s.step i = (none, s.replace ((s.rename i).operand 1) v)) ∨
    ∃ c, s.eval? (s.rename i) = some c ∧ s.kinds.lookup ((s.rename i).operand 0) = some c.kind ∧
      s.step i = (none, (s.settle ((s.rename i).operand 0) c).replace ((s.rename i).operand 1)
        (s.intern ((s.rename i).operand 0) c).1) := by
  have learned : s.learn (s.rename i) = s := learn_eq_self new
  simp only [step,learned]
  cases chosen : s.chosen? (s.rename i) with
  | some v => exact .inr (.inl ⟨v,rfl,rfl⟩)
  | none =>
    cases value : s.eval? (s.rename i) with
    | none => exact .inl rfl
    | some c =>
      by_cases typed : s.kinds.lookup ((s.rename i).operand 0) = some c.kind
      · exact .inr (.inr ⟨c,rfl,typed,by simp only [typed]; rfl⟩)
      · exact .inl (by simp only [typed]; rfl)

theorem result?_rename : (s.rename i).result? = i.result? := by
  rw [rename,result?_renameIds]
  cases i.result? <;> simp

theorem result?_of_folded (folded : (s.chosen? (s.rename i)).isSome ∨ (s.eval? (s.rename i)).isSome) :
    i.result? = some ((s.rename i).operand 1) := by
  rw [← result?_rename (s := s)]
  generalize s.rename i = j at folded ⊢
  rcases folded with chosen | value
  · obtain ⟨v,chosen⟩ := Option.isSome_iff_exists.mp chosen
    obtain ⟨ty,r,c,a,b,rest,cond,rfl,-⟩ := chosen?_eq_some.mp chosen
    rfl
  · obtain ⟨c,value⟩ := Option.isSome_iff_exists.mp value
    obtain ⟨ty,r,w,x,y,rest,op,cx,cy,rfl,-⟩ | ⟨ty,r,w,x,rest,op,cx,rfl,-⟩ |
      ⟨ty,r,x,cx,kind,rfl,-⟩ := eval?_eq_some.mp value
    all_goals rfl

theorem lookup_replace :
    (s.replace r v).replaced.lookup x = if x = r then some v else s.replaced.lookup x := by
  rw [replace,lookup_cons]
  by_cases same : x = r
  · simp [same]
  · simp [same,beq_false_of_ne same]

theorem intern_replaced : (s.intern ty c).2.replaced = s.replaced := by
  unfold intern
  split <;> rfl

theorem lookup_step (new : isLearned i.op = false) (other : i.result? ≠ some x) :
    (s.step i).2.replaced.lookup x = s.replaced.lookup x := by
  grind [step_cases,result?_of_folded,lookup_replace,settle,intern_replaced]

theorem lookup_run : ∀ {s : Folding}, (∀ i ∈ code, isLearned i.op = false) → x ∉ results code →
    (s.run code).2.replaced.lookup x = s.replaced.lookup x := by
  induction code with
  | nil => exact fun _ _ => rfl
  | cons i code ih =>
    intro s new absent
    rw [forall_mem_cons] at new
    rw [results_cons,mem_append,not_or] at absent
    have other : i.result? ≠ some x := fun same => absent.1 (by simp [same])
    exact (ih new.2 absent.2).trans (lookup_step new.1 other)

/-- What is known of types and constants is declared, outside of functions or by a new constant. -/
structure Sound (outside : List Instruction) (s : Folding) : Prop where
  kinds : ∀ {ty kind}, s.kinds.lookup ty = some kind → Typed outside ty kind
  constants : ∀ {x c}, s.constants.lookup x = some c → Known (outside ++ s.added) x c
  interned : ∀ {ty word x}, s.interned.lookup (ty, word) = some x →
    ∃ rest, ⟨.constant, ty :: x :: word :: rest⟩ ∈ outside ++ s.added
  added : ∀ i ∈ s.added, ∃ ty x word kind, i = ⟨.constant, [ty, x, word]⟩ ∧ Typed outside ty kind

section

variable (sound : s.Sound outside)
include sound

theorem Sound.replace : (s.replace r v).Sound outside :=
  ⟨sound.kinds,sound.constants,sound.interned,sound.added⟩

theorem Sound.intern (typed : Typed outside ty c.kind) :
    (s.intern ty c).2.Sound outside ∧ Known (outside ++ (s.intern ty c).2.added) (s.intern ty c).1 c := by
  have typed' : ∀ added, Typed (outside ++ added) ty c.kind :=
    fun added => typed.mono (subset_append_left _ _)
  unfold Folding.intern
  split
  · rename_i x found
    obtain ⟨rest,declared⟩ := sound.interned found
    exact ⟨sound,ty,c.bits,rest,declared,c.kind,typed' _,by simp⟩
  · have wider : outside ++ s.added ⊆
        outside ++ (s.added ++ [⟨.constant,[ty,s.nextId,c.bits]⟩]) := by
      rw [← List.append_assoc]
      exact subset_append_left _ _
    have declared : ⟨.constant,[ty,s.nextId,c.bits]⟩ ∈
        outside ++ (s.added ++ [⟨.constant,[ty,s.nextId,c.bits]⟩]) := by simp
    refine ⟨⟨sound.kinds,fun found => (sound.constants found).mono wider,fun found => ?_,
      fun i mem => ?_⟩,ty,c.bits,[],declared,c.kind,typed' _,by simp⟩
    · grind [Sound.interned]
    grind [Sound.added]

theorem Sound.settle (typed : Typed outside ty c.kind) : (s.settle ty c).Sound outside := by
  obtain ⟨interned,known⟩ := sound.intern typed
  refine ⟨interned.kinds,fun found => ?_,interned.interned,interned.added⟩
  grind [settle,Sound.constants]

theorem Sound.step (new : isLearned i.op = false) : (s.step i).2.Sound outside := by
  grind [step_cases,Sound.replace,Sound.settle,Sound.kinds]

end

theorem Sound.run : ∀ {s : Folding}, s.Sound outside → (∀ i ∈ code, isLearned i.op = false) →
    (s.run code).2.Sound outside := by
  induction code with
  | nil => exact fun sound _ => sound
  | cons i code ih =>
    intro s sound new
    rw [forall_mem_cons] at new
    exact ih (sound.step new.1) new.2

theorem intern_cases (s : Folding) (ty : Id) (c : Const) : (s.intern ty c).2.added = s.added ∨
    (s.intern ty c).2.added = s.added ++ [⟨.constant, [ty, s.nextId, c.bits]⟩] := by
  unfold intern
  split
  · exact .inl rfl
  · exact .inr rfl

theorem added_step (new : isLearned i.op = false) : s.added <+: (s.step i).2.added ∧
      (s.step i).2.added.length + (s.step i).1.toList.length ≤ s.added.length + 1 := by
  obtain kept | ⟨v,-,step⟩ | ⟨c,-,-,step⟩ := step_cases (s := s) new
  · rw [kept]
    exact ⟨prefix_rfl,Nat.le_refl _⟩
  · rw [step]
    exact ⟨prefix_rfl,Nat.le_add_right _ _⟩
  · rw [step]
    show s.added <+: (s.intern ((s.rename i).operand 0) c).2.added ∧
      (s.intern ((s.rename i).operand 0) c).2.added.length + 0 ≤ s.added.length + 1
    grind [intern_cases]

theorem added_run : ∀ {s : Folding}, (∀ i ∈ code, isLearned i.op = false) →
    s.added <+: (s.run code).2.added ∧
      (s.run code).2.added.length + (s.run code).1.length ≤ s.added.length + code.length := by
  induction code with
  | nil => exact fun _ => ⟨prefix_rfl,Nat.le_refl _⟩
  | cons i code ih =>
    intro s new
    rw [forall_mem_cons] at new
    obtain ⟨first,count⟩ := added_step (s := s) new.1
    obtain ⟨second,counts⟩ := ih (s := (s.step i).2) new.2
    refine ⟨first.trans second,?_⟩
    simp only [run,length_append,length_cons]
    omega

def Numbered (base : Nat) (s : Folding) : Prop :=
  s.nextId = .ofNat (base + s.added.length) ∧
    results s.added = (List.range' base s.added.length).map UInt32.ofNat

theorem Numbered.intern (numbered : s.Numbered base) : (s.intern ty c).2.Numbered base := by
  unfold Folding.intern
  split
  · exact numbered
  · obtain ⟨next,ids⟩ := numbered
    refine ⟨?_,?_⟩
    · rw [next]
      simp [← Nat.add_assoc,UInt32.ofNat_add]
    · simp only [results_append,ids,next,length_append,length_singleton,
        range'_1_concat,map_append,map_cons,map_nil]
      rfl

theorem Numbered.step (numbered : s.Numbered base) (new : isLearned i.op = false) :
    (s.step i).2.Numbered base := by
  obtain kept | ⟨v,-,step⟩ | ⟨c,-,-,step⟩ := step_cases (s := s) new
  · rwa [kept]
  · rw [step]
    exact numbered
  · rw [step]
    exact numbered.intern

theorem Numbered.run : ∀ {s : Folding}, s.Numbered base →
    (∀ i ∈ code, isLearned i.op = false) → (s.run code).2.Numbered base := by
  induction code with
  | nil => exact fun numbered _ => numbered
  | cons i code ih =>
    intro s numbered new
    rw [forall_mem_cons] at new
    exact ih (numbered.step new.1) new.2

def Keyed (ids : List Id) (s : Folding) : Prop := ∀ x ∉ ids, s.replaced.lookup x = none

theorem Keyed.step {ids : List Id} (keyed : s.Keyed ids) (new : isLearned i.op = false) :
    (s.step i).2.Keyed (i.result?.toList ++ ids) := by
  intro x absent
  rw [mem_append,not_or] at absent
  rw [lookup_step new fun same => absent.1 (by simp [same])]
  exact keyed x absent.2

theorem keeps_of_lookup_none (absent : ∀ r, i.result? = some r → s.replaced.lookup r = none) :
    s.keeps i = true := by
  unfold keeps
  cases result : i.result? with
  | none => rfl
  | some r => simp [absent r result]

theorem keeps_of_lookup_some (result : i.result? = some r) (found : s.replaced.lookup r = some v) :
    s.keeps i = false := by
  simp [keeps,result,found]

/-- Code that may follow where some ids are defined, in functions. -/
structure Continues (defined : List Id) (code : List Instruction) : Prop where
  ordered : Ordered defined code
  unique : (results code).Nodup
  new : ∀ x ∈ results code, x ∉ defined
  learns : ∀ i ∈ code, isLearned i.op = false
  states : ∀ i ∈ code, i.op.isNote = false

section Continues

variable {defined : List Id}

section

variable (continues : Continues defined (i :: code))
include continues

theorem Continues.tail : Continues (i.result?.toList ++ defined) code := by
  obtain ⟨ordered,unique,new,learns,states⟩ := continues
  rw [results_cons,nodup_append] at unique
  rw [results_cons] at new
  rw [forall_mem_cons] at learns states
  refine ⟨ordered.2,unique.2.1,fun x mem => ?_,learns.2,states.2⟩
  rw [mem_append,not_or]
  exact ⟨fun here => unique.2.2 x here x mem rfl,new x (mem_append_right _ mem)⟩

theorem Continues.result (result : i.result? = some r) : r ∉ defined ∧ r ∉ results code := by
  obtain ⟨-,unique,new,-,-⟩ := continues
  grind [results_cons]

theorem Continues.lookup_mentioned (mentioned : x ∈ i.references) :
    (s.run (i :: code)).2.replaced.lookup x = s.replaced.lookup x := by
  have known := continues.ordered.1 (continues.states i mem_cons_self) mentioned
  exact lookup_run continues.learns fun later => continues.new x later known

theorem Continues.rename_eq (keyed : s.Keyed defined)
    (kept : ∀ r, i.result? = some r → (s.run (i :: code)).2.replaced.lookup r = none) :
    s.rename i = renameIds (s.run (i :: code)).2.subst i := by
  have new : ∀ r, i.result? = some r → s.replaced.lookup r = none :=
    fun r result => keyed r (continues.result result).1
  grind [rename_eq,renameIds_congr,subst,Continues.lookup_mentioned]

end

end Continues

/-- What is left is what is not replaced, with the ids that stand for others in the end. -/
theorem run_code : ∀ {s : Folding} {defined : List Id}, s.Keyed defined → Continues defined code →
    (s.run code).1 = (code.filter (s.run code).2.keeps).map (renameIds (s.run code).2.subst) := by
  induction code with
  | nil => exact fun _ _ => rfl
  | cons i code ih =>
    intro s defined keyed continues
    have new := continues.learns i mem_cons_self
    have learns := (forall_mem_cons.mp continues.learns).2
    have rest := ih (keyed.step new) continues.tail
    have last : (s.run (i :: code)).2 = ((s.step i).2.run code).2 := rfl
    have first : (s.run (i :: code)).1 = (s.step i).1.toList ++ ((s.step i).2.run code).1 := rfl
    have dropped : ∀ {v}, i.result? = some ((s.rename i).operand 1) →
        (s.step i).2.replaced.lookup ((s.rename i).operand 1) = some v →
        (s.run (i :: code)).2.keeps i = false := by
      intro v result found
      refine keeps_of_lookup_some result (v := v) ?_
      rw [last,lookup_run learns (continues.result result).2,found]
    rw [first,rest,filter_cons,← last]
    obtain kept | ⟨v,chosen,step⟩ | ⟨c,value,-,step⟩ := step_cases (s := s) new
    · have absent : ∀ r, i.result? = some r → (s.run (i :: code)).2.replaced.lookup r = none := by
        intro r result
        obtain ⟨before,after⟩ := continues.result result
        rw [last,lookup_run learns after,kept]
        exact keyed r before
      rw [keeps_of_lookup_none absent,kept,continues.rename_eq keyed absent]
      rfl
    · grind [result?_of_folded,lookup_replace]
    · have result : i.result? = some _ := result?_of_folded (s := s) (.inr (by simp [value]))
      grind [lookup_replace]

theorem Sound.folds_chosen (sound : s.Sound outside) (chosen : s.chosen? i = some v) :
    Folds (outside ++ s.added) i v := by
  obtain ⟨ty,r,c,a,b,rest,cond,rfl,found,rfl⟩ := chosen?_eq_some.mp chosen
  exact .select (sound.constants found)

theorem Sound.folds_computed (sound : s.Sound outside) (value : s.eval? i = some c)
    (typed : s.kinds.lookup (i.operand 0) = some c.kind) :
    Folds (outside ++ (s.intern (i.operand 0) c).2.added) i (s.intern (i.operand 0) c).1 := by
  obtain ⟨-,known⟩ := sound.intern (sound.kinds typed)
  have typed' := (sound.kinds typed).mono
    (subset_append_left outside (s.intern (i.operand 0) c).2.added)
  have wider : outside ++ s.added ⊆ outside ++ (s.intern (i.operand 0) c).2.added := by
    grind [intern_cases]
  obtain ⟨ty,r,w,x,y,rest,op,cx,cy,rfl,operator,left,right,value⟩ |
    ⟨ty,r,w,x,rest,op,cx,rfl,operator,found,value⟩ |
    ⟨ty,r,x,cx,kind,rfl,found',found,rfl⟩ := eval?_eq_some.mp value
  · exact .binary operator ((sound.constants left).mono wider) ((sound.constants right).mono wider)
      value typed' known
  · exact .unary operator ((sound.constants found).mono wider) value typed' known
  · refine .construct ((sound.constants found).mono wider) ?_ known
    exact (sound.kinds found').mono (subset_append_left _ _)

theorem run_folds : ∀ {s : Folding} {defined : List Id}, s.Sound outside → s.Keyed defined →
    Continues defined code → ∀ i ∈ code, ∀ r v, i.result? = some r →
      (s.run code).2.replaced.lookup r = some v →
      Folds (outside ++ (s.run code).2.added) ((s.run code).2.rename i) v := by
  induction code with
  | nil => simp
  | cons i code ih =>
    intro s defined sound keyed continues
    have new := continues.learns i mem_cons_self
    have learns := (forall_mem_cons.mp continues.learns).2
    refine forall_mem_cons.mpr ⟨fun r v result found => ?_,?_⟩
    · obtain ⟨before,after⟩ := continues.result result
      have last : (s.run (i :: code)).2 = ((s.step i).2.run code).2 := rfl
      rw [last,lookup_run learns after] at found
      have renamed : (s.run (i :: code)).2.rename i = s.rename i := by
        refine renameIds_congr (fun x mentioned => ?_) fun x same => by rw [if_pos same.symm,if_pos same.symm]
        rw [continues.lookup_mentioned mentioned]
      obtain ⟨more,-⟩ := added_run (s := (s.step i).2) learns
      have folds : Folds (outside ++ (s.step i).2.added) (s.rename i) v := by
        obtain kept | ⟨w,chosen,step⟩ | ⟨c,value,typed,step⟩ := step_cases (s := s) new
        · rw [kept,keyed r before] at found
          cases found
        · have key : some r = some _ := result.symm.trans (result?_of_folded (s := s) (.inl (by simp [chosen])))
          rw [step,lookup_replace,if_pos (Option.some.inj key)] at found
          rw [step,← Option.some.inj found]
          exact sound.folds_chosen chosen
        · have key : some r = some _ := result.symm.trans (result?_of_folded (s := s) (.inr (by simp [value])))
          rw [step,lookup_replace,if_pos (Option.some.inj key)] at found
          rw [step,← Option.some.inj found]
          exact sound.folds_computed value typed
      grind [Folds.mono]
    · exact ih (sound.step new) (keyed.step new) continues.tail

theorem run_append (a b : List Instruction) : s.run (a ++ b) =
    ((s.run a).1 ++ ((s.run a).2.run b).1, ((s.run a).2.run b).2) := by
  induction a generalizing s with
  | nil => rfl
  | cons i a ih => simp [run,ih]

theorem learn_frame : (s.learn i).replaced = s.replaced ∧ (s.learn i).added = s.added ∧
    (s.learn i).nextId = s.nextId := by
  unfold learn
  split <;> first | exact ⟨rfl,rfl,rfl⟩ | skip
  split <;> exact ⟨rfl,rfl,rfl⟩

theorem foldl_learn_frame (code : List Instruction) : ∀ s : Folding,
    (code.foldl learn s).replaced = s.replaced ∧ (code.foldl learn s).added = s.added ∧
      (code.foldl learn s).nextId = s.nextId := by
  induction code with
  | nil => exact fun _ => ⟨rfl,rfl,rfl⟩
  | cons i code ih =>
    grind [learn_frame]

theorem run_outside : ∀ {s : Folding}, s.replaced = [] → (∀ i ∈ code, i.op.isOutside = true) →
    s.run code = (code, code.foldl learn s) := by
  induction code with
  | nil => exact fun _ _ => rfl
  | cons i code ih =>
    intro s none outside
    rw [forall_mem_cons] at outside
    have same : s.rename i = i := by
      rw [rename_eq (by simp [none])]
      refine Eq.trans (renameIds_congr (g := id) (fun x _ => ?_) fun x _ => ?_) renameIds_id <;>
        simp [subst,none]
    have step : s.step i = (some i, s.learn i) := by
      have plain := outside.1
      simp only [Folding.step,same]
      obtain ⟨op,operands⟩ := i
      cases op <;> first | rfl | exact absurd plain Bool.false_ne_true
    have rest := ih (s := s.learn i) (learn_frame.1.trans none) outside.2
    simp only [run,step,rest]
    rfl

theorem Sound.learn {before : List Instruction} (sound : s.Sound before) (none : s.added = []) :
    (s.learn i).Sound (before ++ [i]) := by
  have wider : before ⊆ before ++ [i] := subset_append_left _ _
  have here : i ∈ before ++ [i] := by simp
  have same : s.Sound (before ++ [i]) := by
    refine ⟨fun found => (sound.kinds found).mono wider,fun found => ?_,fun found => ?_,?_⟩
    · have known := sound.constants found
      rw [none,append_nil] at known ⊢
      exact known.mono wider
    · grind [Sound.interned]
    · simp [none]
  have kinds : ∀ {ty kind}, i.scalar? = some (ty, kind) →
      ({ s with kinds := (ty, kind) :: s.kinds } : Folding).Sound (before ++ [i]) := by
    intro ty kind declared
    refine ⟨fun found => ?_,same.constants,same.interned,same.added⟩
    rw [lookup_cons] at found
    split at found
    · rename_i eq
      rw [beq_iff_eq.mp eq,← Option.some.inj found]
      exact ⟨i,here,declared⟩
    · exact same.kinds found
  obtain ⟨op,operands⟩ := i
  simp only [Folding.learn,Instruction.reach_eq]
  split
  · exact kinds rfl
  · exact kinds rfl
  · exact kinds rfl
  · rename_i ty id bits rest
    split
    · exact same
    · rename_i kind typed
      refine ⟨same.kinds,fun found => ?_,fun found => ?_,same.added⟩
      · rw [lookup_cons] at found
        split at found
        · rename_i eq
          rw [beq_iff_eq.mp eq,← Option.some.inj found]
          exact ⟨ty,bits,rest,mem_append_left _ here,kind,
            (same.kinds typed).mono (subset_append_left _ _),rfl⟩
        · exact same.constants found
      grind [Sound.interned]
  · exact same

theorem Sound.foldl_learn : ∀ {s : Folding} {before : List Instruction}, s.Sound before → s.added = [] →
    (code.foldl Folding.learn s).Sound (before ++ code) := by
  induction code with
  | nil =>
    intro s before sound _
    rwa [append_nil]
  | cons i code ih =>
    intro s before sound none
    have rest := ih (sound.learn none (i := i)) (learn_frame.2.1.trans none)
    rwa [List.append_assoc,singleton_append] at rest

end Pass.Folding

end Shading.Bytecode
