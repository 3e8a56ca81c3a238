import Shading.Proofs.Lowering.Production
import Shading.Proofs.Pass.FoldBehavior
import Shading.Proofs.Typed.Meaning

/-! Running the code of expressions. A block stands for work on memory if it does that work on all that was
there before, whatever it keeps in variables of its own. Blocks that stand for pieces of work are put
together as the work is. -/
namespace Shading.Bytecode.Instruction
open List

theorem filter_zipIdx_append (front rest : List UInt32) (select : Nat → Bool)
    (late : ∀ p, front.length ≤ p → select p = true) :
    ((front ++ rest).zipIdx.filter fun (_, p) => select p).map Prod.fst =
      (front.zipIdx.filter fun (_, p) => select p).map Prod.fst ++ rest := by
  rw [zipIdx_append,filter_append,map_append]
  grind [filter_eq_self,zipIdx_map_fst]

theorem filter_zipIdx_append_none (front rest : List UInt32) (select : Nat → Bool)
    (late : ∀ p, front.length ≤ p → select p = false) :
    ((front ++ rest).zipIdx.filter fun (_, p) => select p).map Prod.fst =
      (front.zipIdx.filter fun (_, p) => select p).map Prod.fst := by
  grind [filter_eq_nil_iff]

variable {t x w y : Id} {rest : List Id}

@[simp] theorem arguments_construct : (⟨.construct, t :: x :: rest⟩ : Instruction).arguments = rest := by
  refine congrArg List.tail (filter_zipIdx_append [t,x] rest
    (fun p => refersAt ⟨.construct,[]⟩ p && true) fun p late => ?_)
  simp only [refersAt,Bool.and_true,Bool.or_eq_true,decide_eq_true_eq]
  exact .inr late

@[simp] theorem literals_construct : (⟨.construct, t :: x :: rest⟩ : Instruction).literals = [] := by
  refine filter_zipIdx_append_none [t,x] rest (fun p => !refersAt ⟨.construct,[]⟩ p && (some 1 != some p))
    fun p late => ?_
  have refers : refersAt ⟨.construct,[]⟩ p = true := by
    simp only [refersAt,Bool.or_eq_true,decide_eq_true_eq]
    exact .inr late
  rw [refers]
  rfl

@[simp] theorem arguments_builtin : (⟨.builtin, t :: x :: w :: rest⟩ : Instruction).arguments = rest := by
  refine congrArg List.tail (filter_zipIdx_append [t,x,w] rest
    (fun p => refersAt ⟨.builtin,[]⟩ p && true) fun p late => ?_)
  simp only [refersAt,Bool.and_true,Bool.or_eq_true,decide_eq_true_eq]
  exact .inr late

@[simp] theorem literals_builtin : (⟨.builtin, t :: x :: w :: rest⟩ : Instruction).literals = [w] := by
  refine filter_zipIdx_append_none [t,x,w] rest (fun p => !refersAt ⟨.builtin,[]⟩ p && (some 1 != some p))
    fun p late => ?_
  have refers : refersAt ⟨.builtin,[]⟩ p = true := by
    simp only [refersAt,Bool.or_eq_true,decide_eq_true_eq]
    exact .inr late
  rw [refers]
  rfl

@[simp] theorem arguments_swizzle : (⟨.swizzle, t :: x :: y :: rest⟩ : Instruction).arguments = [y] := by
  refine arguments_append .swizzle [t,x,y] fun p late => ?_
  simp only [length_cons,length_nil] at late
  simp only [refersAt,Bool.or_eq_false_iff,beq_eq_false_iff_ne]
  omega

@[simp] theorem literals_swizzle : (⟨.swizzle, t :: x :: y :: rest⟩ : Instruction).literals = rest := by
  refine filter_zipIdx_append [t,x,y] rest (fun p => !refersAt ⟨.swizzle,[]⟩ p && (some 1 != some p))
    fun p late => ?_
  simp only [length_cons,length_nil] at late
  have refers : refersAt ⟨.swizzle,[]⟩ p = false := by
    simp only [refersAt,Bool.or_eq_false_iff,beq_eq_false_iff_ne]
    omega
  rw [refers]
  simp only [Bool.not_false,Bool.true_and,bne_iff_ne,ne_eq,Option.some.injEq]
  omega

end Shading.Bytecode.Instruction

namespace Shading.Lowering
open List Bytecode Typed Execution Pass

variable {ids : List Id}

theorem exec_append {V : Type} {m : Machine V} {step : Instruction → Execution.State V → Result V}
    {again : Block → Execution.State V → Result V} (a b : Block) :
    ∀ s, exec m step again (a ++ b) s = Result.andThen (exec m step again a s) (exec m step again b) := by
  have assoc (r : Result V) (k k' : Execution.State V → Result V) :
      Result.andThen (Result.andThen r k) k' = Result.andThen r fun s => Result.andThen (k s) k' := by
    match r with
    | none | some (.next, _) | some (.broke, _) | some (.continued, _) | some (.returned _, _)
    | some (.killed, _) => rfl
  induction a with
  | done => exact fun _ => rfl
  | plain i rest ih => exact fun s => by rw [Block.plain_append,exec,exec,assoc,funext ih]
  | ifThen c yes rest _ ih => exact fun s => by rw [Block.ifThen_append,exec,exec,assoc,funext ih]
  | ifElse c yes no rest _ _ ih => exact fun s => by rw [Block.ifElse_append,exec,exec,assoc,funext ih]
  | loop t body continuing rest _ _ ih =>
    exact fun s => by rw [Block.loop_append,exec,exec,assoc,funext ih]

/-- Where the code of an expression runs: in a call of a function of a module, with the ids that are known
there. Types have their shapes, and variables lie somewhere in memory. -/
structure World (V : Type) where
  machine : Machine V
  code : List Instruction
  shapes : Id → Shape
  depth : Nat
  directory : Directory
  place : VarRef → Cell × List V
  lawful : machine.Lawful
  shaped : ∀ {t ty}, Denotes code t ty → shapes t = ty.shape

namespace World

variable {V : Type} (W : World V)

/-- The block reaches its end, without calls and loops. -/
structure Ends (b : Block) (σ σ' : Execution.State V) : Prop where
  calm : b.Calm
  exec : ∀ call again,
    exec W.machine (step W.machine W.shapes W.depth call) again b σ = some (.next, σ')

def Fixed (x : Id) : Prop :=
  (∃ c, IsConstant W.code c x) ∨ ∃ v storage, W.directory.var? v = some (x, storage)

def Visible (c : Cell) : Prop := ∃ v r, W.directory.var? v = some r ∧ c = (W.place v).1

def Scratch (ids : List Id) (c : Cell) : Prop := ∃ x ∈ ids, c = .frame W.depth x

/-- New ids: each is defined once, and none is that of a constant or a variable. -/
structure Clean (ids : List Id) : Prop where
  nodup : ids.Nodup
  own : ∀ x ∈ ids, ¬W.Fixed x ∧ ¬W.Visible (.frame W.depth x)

/-- The state knows constants and variables, and its memory is the given one but for what is declared
under the ids. -/
structure Fits (ids : List Id) (σ : Execution.State V) (μ : Memory V) : Prop where
  constants : ∀ {c x}, IsConstant W.code c x → σ.env x = .value (W.machine.scalar c)
  vars : ∀ {v x storage}, W.directory.var? v = some (x, storage) →
    σ.env x = .pointer (W.place v).1 (W.place v).2
  apart : ∀ c, W.Visible c → ¬W.Scratch ids c
  memory : ∀ c, ¬W.Scratch ids c → σ.memory c = μ c

/-- New are only the given ids and what is declared under them. What was declared under older ids is kept,
and all other memory is the given one. -/
structure Changes (ids old : List Id) (σ σ' : Execution.State V) (μ : Memory V) : Prop where
  env : ∀ x ∉ ids, σ'.env x = σ.env x
  kept : ∀ c, W.Scratch old c → ¬W.Scratch ids c → σ'.memory c = σ.memory c
  memory : ∀ c, ¬W.Scratch old c → ¬W.Scratch ids c → σ'.memory c = μ c

section Changes

variable {W} {ids ids' old : List Id} {σ σ' σ'' : Execution.State V} {μ μ' μ'' : Memory V}

theorem scratch_append : W.Scratch (ids ++ ids') c ↔ W.Scratch ids c ∨ W.Scratch ids' c := by
  simp [Scratch,or_and_right,exists_or]

theorem Clean.append (clean : W.Clean (ids ++ ids')) : W.Clean ids ∧ W.Clean ids' ∧
    ∀ x, x ∈ ids ∨ W.Fixed x → x ∉ ids' := by
  obtain ⟨first,second,apart⟩ := nodup_append.mp clean.nodup
  refine ⟨⟨first,fun x here => clean.own x (mem_append_left _ here)⟩,
    ⟨second,fun x here => clean.own x (mem_append_right _ here)⟩,fun x from_ here => ?_⟩
  grind [Clean.own]

theorem Changes.trans (first : W.Changes ids old σ σ' μ') (second : W.Changes ids' (old ++ ids) σ' σ'' μ'') :
    W.Changes (ids ++ ids') old σ σ'' μ'' where
  env x absent := by
    rw [mem_append,not_or] at absent
    exact (second.env x absent.2).trans (first.env x absent.1)
  kept c before absent := by
    rw [scratch_append,not_or] at absent
    rw [second.kept c (scratch_append.mpr (.inl before)) absent.2,first.kept c before absent.1]
  memory c before absent := by
    grind [scratch_append,Changes.memory]

theorem Changes.mono (changes : W.Changes ids old σ σ' μ') (more : ids ⊆ ids') :
    W.Changes ids' old σ σ' μ' where
  env x absent := changes.env x fun here => absent (more here)
  kept c before absent := changes.kept c before fun ⟨x,here,same⟩ => absent ⟨x,more here,same⟩
  memory c before absent := changes.memory c before fun ⟨x,here,same⟩ => absent ⟨x,more here,same⟩

theorem Fits.after (fits : W.Fits old σ μ) (changes : W.Changes ids old σ σ' μ')
    (own : ∀ x ∈ ids, ¬W.Fixed x ∧ ¬W.Visible (.frame W.depth x)) : W.Fits (old ++ ids) σ' μ' where
  constants {c x} constant := by
    rw [changes.env x fun here => (own x here).1 (.inl ⟨c,constant⟩)]
    exact fits.constants constant
  vars {v x storage} known := by
    rw [changes.env x fun here => (own x here).1 (.inr ⟨v,storage,known⟩)]
    exact fits.vars known
  apart c visible inside := by
    rcases scratch_append.mp inside with before | ⟨x,here,rfl⟩
    · exact fits.apart c visible before
    · exact (own x here).2 visible
  memory c absent := by
    rw [scratch_append,not_or] at absent
    exact changes.memory c absent.1 absent.2

end Changes

end World

/-- What may be known of a state while a block runs. -/
inductive Fact (V : Type) where
  /-- What an id stands for. -/
  | env (x : Id) (d : Datum V)
  /-- What a variable of the block holds. -/
  | own (x : Id) (v : V)
  | truth (p : Prop)

namespace Fact

variable {V : Type} {W : World V}

def Holds (W : World V) (old : List Id) (σ : Execution.State V) : Fact V → Prop
  | .env x d => σ.env x = d
  | .own x v => x ∈ old ∧ σ.memory (.frame W.depth x) = v
  | .truth p => p

def Apart (ids : List Id) : Fact V → Prop
  | .env x _ | .own x _ => x ∉ ids
  | .truth _ => True

theorem Holds.after {old : List Id} {σ σ' : Execution.State V} {μ : Memory V} :
    ∀ {p : Fact V}, p.Holds W old σ → W.Changes ids old σ σ' μ → p.Apart ids → p.Holds W (old ++ ids) σ'
  | .env x _, holds, changes, apart => (changes.env x apart).trans holds
  | .own x _, ⟨here,holds⟩, changes, apart => by
    refine ⟨mem_append_left _ here,(changes.kept _ ⟨x,here,rfl⟩ ?_).trans holds⟩
    rintro ⟨y,new,same⟩
    cases same
    exact apart new
  | .truth _, holds, _, _ => holds

theorem Holds.mono {old old' : List Id} {σ : Execution.State V} (more : old ⊆ old') :
    ∀ {p : Fact V}, p.Holds W old σ → p.Holds W old' σ
  | .env _ _, holds => holds
  | .own _ _, ⟨here,holds⟩ => ⟨more here,holds⟩
  | .truth _, holds => holds

end Fact

/-- From where the first facts hold, the block does the work, and then the second ones hold for what the work
gives. Only the given ids are new. -/
def Runs {V α : Type} (W : World V) (ids : List Id) (F : List (Fact V)) (f : StateM (Memory V) α)
    (G : α → List (Fact V)) (b : Block) : Prop :=
  ∀ old σ μ, (∀ p ∈ F, p.Holds W old σ) → W.Fits old σ μ →
    ∃ σ', W.Ends b σ σ' ∧ W.Changes ids old σ σ' (f μ).2 ∧
      ∀ p ∈ G (f μ).1, p.Holds W (old ++ ids) σ'

namespace Runs

variable {V α β : Type} {W : World V} {ids ids' : List Id} {F F' : List (Fact V)} {f : StateM (Memory V) α}
  {g : α → StateM (Memory V) β} {G G' : α → List (Fact V)} {H : β → List (Fact V)} {b b' : Block} {p : Prop}
  {c : V} {x : Id}

theorem bind (first : Runs W ids F' f G b) (needed : F' ⊆ F)
    (own : ∀ x ∈ ids, ¬W.Fixed x ∧ ¬W.Visible (.frame W.depth x)) (K : List (Fact V)) (kept : K ⊆ F)
    (apart : ∀ p ∈ K, p.Apart ids) (second : ∀ μ, Runs W ids' (G (f μ).1 ++ K) (g (f μ).1) H b') :
    Runs W (ids ++ ids') F (f >>= g) H (b ++ b') := by
  intro old σ μ holds fits
  obtain ⟨σ₁,ends,changes,given⟩ := first old σ μ (fun p here => holds p (needed here)) fits
  have both : ∀ p ∈ G (f μ).1 ++ K, p.Holds W (old ++ ids) σ₁ := forall_mem_append.mpr
    ⟨given,fun p here => (holds p (kept here)).after changes (apart p here)⟩
  obtain ⟨σ₂,ends',changes',given'⟩ := second μ _ σ₁ _ both (fits.after changes own)
  refine ⟨σ₂,⟨Block.all_append.mpr ⟨ends.calm,ends'.calm⟩,fun call again => ?_⟩,
    changes.trans changes',?_⟩
  · rw [exec_append,ends.exec]
    exact ends'.exec call again
  · rw [← List.append_assoc]
    exact given'

variable {a : α}

theorem before {h : StateM (Memory V) β} (first : Runs W ids F' (pure a) G b) (needed : F' ⊆ F)
    (own : ∀ x ∈ ids, ¬W.Fixed x ∧ ¬W.Visible (.frame W.depth x)) (K : List (Fact V)) (kept : K ⊆ F)
    (apart : ∀ p ∈ K, p.Apart ids) (second : Runs W ids' (G a ++ K) h H b') :
    Runs W (ids ++ ids') F h H (b ++ b') :=
  first.bind (g := fun _ => h) needed own K kept apart fun _ => second

theorem imp (runs : Runs W ids F f G b) (before : F ⊆ F') (after : ∀ a, G' a ⊆ G a) :
    Runs W ids F' f G' b := by
  intro old σ μ holds fits
  obtain ⟨σ',ends,changes,given⟩ := runs old σ μ (fun p here => holds p (before here)) fits
  exact ⟨σ',ends,changes,fun p here => given p (after _ here)⟩

theorem frame (runs : Runs W ids F' f G b) (needed : F' ⊆ F) (K : List (Fact V)) (kept : K ⊆ F)
    (apart : ∀ p ∈ K, p.Apart ids) : Runs W ids F f (fun a => G a ++ K) b := by
  intro old σ μ holds fits
  obtain ⟨σ',ends,changes,given⟩ := runs old σ μ (fun p here => holds p (needed here)) fits
  grind [Fact.Holds.after]

theorem map {h : α → β} (runs : Runs W ids F f G b)
    (given : ∀ a old σ, (∀ p ∈ G a, p.Holds W old σ) → ∀ p ∈ H (h a), p.Holds W old σ) :
    Runs W ids F (f >>= fun a => pure (h a)) H b := by
  intro old σ μ holds fits
  obtain ⟨σ',ends,changes,known⟩ := runs old σ μ holds fits
  exact ⟨σ',ends,changes,given _ _ _ known⟩

theorem give {c : β} (runs : Runs W ids F (pure a) G b)
    (given : ∀ q ∈ H c, q ∈ G a ∨ ∀ old σ, q.Holds W old σ) : Runs W ids F (pure c) H b := by
  intro old σ μ holds fits
  obtain ⟨σ',ends,changes,known⟩ := runs old σ μ holds fits
  exact ⟨σ',ends,changes,fun q here => (given q here).elim (known q) fun always => always _ _⟩

theorem of_truth (runs : p → Runs W ids F f G b) (known : .truth p ∈ F) : Runs W ids F f G b :=
  fun old σ μ holds fits => runs (holds _ known) old σ μ holds fits

theorem of_fits {q : Fact V} (known : ∀ old σ μ, W.Fits old σ μ → q.Holds W old σ)
    (runs : Runs W ids (q :: F) f G b) : Runs W ids F f G b :=
  fun old σ μ holds fits => runs old σ μ (forall_mem_cons.mpr ⟨known old σ μ fits,holds⟩) fits

theorem done (given : ∀ q ∈ G a, q ∈ F ∨ ∀ old σ, q.Holds W old σ) :
    Runs W [] F (pure a) G .done := by
  intro old σ μ holds fits
  refine ⟨σ,⟨trivial,fun _ _ => rfl⟩,
    ⟨fun _ _ => rfl,fun _ _ _ => rfl,fun c absent _ => fits.memory c absent⟩,?_⟩
  exact fun q here => by
    rw [append_nil]
    exact (given q here).elim (holds q) fun always => always _ _

theorem mono (runs : Runs W ids F f G b) (more : ids ⊆ ids') : Runs W ids' F f G b := by
  intro old σ μ holds fits
  obtain ⟨σ',ends,changes,given⟩ := runs old σ μ holds fits
  exact ⟨σ',ends,changes.mono more,fun p here => (given p here).mono (by simp [more])⟩

section

variable (known : .env x (.value c) ∈ F) (yes : Runs W ids F f G b)
include known yes

theorem ifElse {h : StateM (Memory V) α} (no : Runs W ids F h G b') :
    Runs W ids F (if W.machine.truth c then f else h) G (.ifElse x b b' .done) := by
  intro old σ μ holds fits
  have stands : (σ.env x).holds W.machine = W.machine.truth c := by
    have same : σ.env x = .value c := holds _ known
    rw [same]
    rfl
  obtain ⟨σ₁,ends,first⟩ := yes old σ μ holds fits
  obtain ⟨σ₂,ends',second⟩ := no old σ μ holds fits
  cases truth : W.machine.truth c with
  | true =>
    refine ⟨σ₁,⟨⟨ends.calm,ends'.calm,trivial⟩,fun call again => ?_⟩,first⟩
    rw [exec,stands,truth,if_pos rfl,ends.exec]
    rfl
  | false =>
    refine ⟨σ₂,⟨⟨ends.calm,ends'.calm,trivial⟩,fun call again => ?_⟩,second⟩
    rw [exec,stands,truth,if_neg Bool.false_ne_true,ends'.exec]
    rfl

theorem ifThen (no : G a ⊆ F) :
    Runs W ids F (if W.machine.truth c then f else pure a) G (.ifThen x b .done) := by
  intro old σ μ holds fits
  have nothing : Runs W ids F (pure a) G .done :=
    (Runs.done fun q here => .inl (no here)).mono (nil_subset _)
  obtain ⟨σ',ends,rest⟩ := (Runs.ifElse known yes nothing) old σ μ holds fits
  refine ⟨σ',⟨⟨ends.calm.1,trivial⟩,fun call again => ?_⟩,rest⟩
  exact (by rw [exec,exec]; rfl : exec W.machine _ again (.ifThen x b .done) σ =
    exec W.machine _ again (.ifElse x b .done .done) σ).trans (ends.exec call again)

end

end Runs

section Instructions

variable {V α : Type} {W : World V} {F : List (Fact V)} {f : StateM (Memory V) α} {op : Opcode} {ty : Ty}
  {storage : StorageClass} {operands : List UInt32} {b : Block} {x : Id} {d : α → Datum V}
  {tmp : Id}

theorem runs_one {t : Id} (pure : op.isPure = true) (typed : op.hasResultType = true)
    (calm : ∀ μ, (f μ).2 = μ)
    (given : ∀ old σ μ, (∀ p ∈ F, p.Holds W old σ) → W.Fits old σ μ →
      compute W.machine (W.shapes t) σ.memory ⟨op, t :: x :: operands⟩
      (σ.data ⟨op, t :: x :: operands⟩) = d (f μ).1) :
    Runs W [x] F f (fun a => [.env x (d a)]) (.one ⟨op, t :: x :: operands⟩) := by
  intro old σ μ holds fits
  have result : (⟨op,t :: x :: operands⟩ : Instruction).result? = some x := by
    simp [Instruction.result?,Instruction.resultPosition?,typed]
  have type : (⟨op,t :: x :: operands⟩ : Instruction).resultType? = some t := by
    simp [Instruction.resultType?,typed]
  have calmly : op.isCalm = true := by cases op <;> first | rfl | cases pure
  refine ⟨σ.bind x (d (f μ).1),⟨⟨calmly,trivial⟩,fun call again => ?_⟩,
    ⟨fun y absent => ?_,fun _ _ _ => rfl,fun c absent _ => ?_⟩,
    forall_mem_singleton.mpr (σ.bind_env_self _ _)⟩
  · simp only [Block.one,exec,step_of_isPure (i := ⟨op,t :: x :: operands⟩) pure,Execution.State.give,
      result,type,Option.map_some,Option.getD_some,Result.andThen,given old σ μ holds fits]
  · exact σ.bind_env_of_ne (by simpa using absent) _
  · rw [calm]
    exact fits.memory c absent

theorem Computed.results (computed : Computed W.code op ty operands b x) (typed : op.hasResultType = true) :
    results b.code = [x] := by
  obtain ⟨t,-,-,rfl⟩ := computed
  simp [Block.one,Block.code,Pass.results,Instruction.result?,Instruction.resultPosition?,typed]

theorem Addressed.results (addressed : Addressed W.code op storage ty operands b x)
    (typed : op.hasResultType = true) : results b.code = [x] := by
  obtain ⟨t,-,-,rfl⟩ := addressed
  simp [Block.one,Block.code,Pass.results,Instruction.result?,Instruction.resultPosition?,typed]

theorem Computed.runs (computed : Computed W.code op ty operands b x) (pure : op.isPure = true)
    (typed : op.hasResultType = true) (calm : ∀ μ, (f μ).2 = μ)
    (given : ∀ old σ μ t, (∀ p ∈ F, p.Holds W old σ) → W.Fits old σ μ →
      compute W.machine ty.shape σ.memory ⟨op, t :: x :: operands⟩ (σ.data ⟨op, t :: x :: operands⟩) =
      d (f μ).1) :
    Runs W (Pass.results b.code) F f (fun a => [.env x (d a)]) b := by
  rw [computed.results typed]
  obtain ⟨t,denotes,-,rfl⟩ := computed
  refine runs_one pure typed calm fun old σ μ holds fits => ?_
  rw [W.shaped denotes]
  exact given old σ μ t holds fits

def valueFacts (ys : List Id) (vs : List V) : List (Fact V) :=
  List.zipWith (fun y v => .env y (.value v)) ys vs

theorem map_env_of_valueFacts {old : List Id} {σ : Execution.State V} : ∀ {ys : List Id} {vs : List V},
    ys.length = vs.length → (∀ p ∈ valueFacts ys vs, p.Holds W old σ) → ys.map σ.env = vs.map .value
  | [], [], _, _ => rfl
  | y :: ys, v :: vs, same, holds => by
    rw [valueFacts,zipWith_cons_cons,forall_mem_cons] at holds
    have first : σ.env y = .value v := holds.1
    rw [map_cons,map_cons,first,map_env_of_valueFacts (by simpa using same) holds.2]

/-- The machine is asked for the value of an operation that neither reads memory nor leads to it, nor
chooses. -/
theorem Computed.runs_apply (ys : List Id) (vs : List V) (literals : List UInt32)
    (computed : Computed W.code op ty operands b x)
    (applied : op.isPure = true ∧ op ≠ .load ∧ op ≠ .accessChain ∧ op ≠ .select)
    (arguments : ∀ t, (⟨op, t :: x :: operands⟩ : Instruction).arguments = ys)
    (words : ∀ t, (⟨op, t :: x :: operands⟩ : Instruction).literals = literals)
    (matched : ys.length = vs.length) (known : valueFacts ys vs ⊆ F) :
    Runs W (Pass.results b.code) F (pure (W.machine.apply op ty.shape literals vs))
      (fun v => [.env x (.value v)]) b := by
  obtain ⟨calm,load,chain,select⟩ := applied
  have typed : op.hasResultType = true := by cases op <;> first | rfl | cases calm
  refine computed.runs (d := .value) calm typed (fun _ => rfl) fun old σ μ t holds _ => ?_
  have values : (vs.map Datum.value).map (Datum.get W.machine) = vs := by
    simp [Function.comp_def,Datum.get]
  rw [Execution.State.data,arguments,map_env_of_valueFacts matched fun p here => holds p (known here)]
  unfold compute
  split
  · exact absurd ‹_› load
  · exact absurd ‹_› chain
  · exact absurd ‹_› select
  · rw [words,values]
    rfl

def World.pointer (W : World V) (tmp : Id) : Fact V := .env tmp (.pointer (.frame W.depth tmp) [])

theorem Addressed.runs_variable {w : Id} (made : Addressed W.code .var storage ty [w] b tmp) :
    Runs W [tmp] [] (pure ()) (fun _ => [W.pointer tmp]) b := by
  obtain ⟨t,-,-,rfl⟩ := made
  intro old σ μ holds fits
  let σ' := (σ.set (.frame W.depth tmp) (W.machine.unset (W.shapes t))).bind tmp (.pointer (.frame W.depth tmp) [])
  have other {c : Cell} (absent : ¬W.Scratch [tmp] c) : σ'.memory c = σ.memory c :=
    σ.set_memory_of_ne (fun same => absent ⟨tmp,mem_cons_self,same⟩) _
  refine ⟨σ',⟨⟨rfl,trivial⟩,fun call again => rfl⟩,
    ⟨fun y absent => ?_,fun c _ absent => other absent,fun c before absent => ?_⟩,
    forall_mem_singleton.mpr ?_⟩
  · exact Execution.State.bind_env_of_ne _ (by simpa using absent) _
  · rw [other absent]
    exact fits.memory c before
  · exact Execution.State.bind_env_self _ _ _

theorem runs_keep {y : Id} {v : V} : Runs W [tmp] [W.pointer tmp, .env y (.value v)] (pure v)
    (fun v => [.own tmp v, W.pointer tmp]) (.one ⟨.store, [tmp, y]⟩) := by
  intro old σ μ known fits
  simp only [World.pointer,forall_mem_cons,Fact.Holds] at known
  have data : σ.data ⟨.store,[tmp,y]⟩ = [.pointer (.frame W.depth tmp) [],.value v] := by
    rw [← known.1,← known.2.1]
    rfl
  let σ' := σ.set (.frame W.depth tmp) v
  have other {c : Cell} (absent : ¬W.Scratch [tmp] c) : σ'.memory c = σ.memory c :=
    σ.set_memory_of_ne (fun same => absent ⟨tmp,mem_cons_self,same⟩) _
  refine ⟨σ',⟨⟨rfl,trivial⟩,fun call again => ?_⟩,
    ⟨fun _ _ => rfl,fun c _ absent => other absent,fun c before absent => ?_⟩,
    forall_mem_cons.mpr ⟨⟨by simp,σ.set_memory_self _ _⟩,forall_mem_singleton.mpr known.1⟩⟩
  · simp only [Block.one,exec,step,data,Result.andThen,Datum.get,W.lawful.update_nil]
    rfl
  · rw [other absent]
    exact fits.memory c before

theorem Computed.runs_recall {v : V} (loaded : Computed W.code .load ty [tmp] b x) :
    Runs W [x] [.own tmp v, W.pointer tmp] (pure v) (fun v => [.env x (.value v)]) b := by
  obtain ⟨t,-,-,rfl⟩ := loaded
  refine runs_one (d := .value) rfl rfl (fun _ => rfl) fun old σ μ known _ => ?_
  simp only [World.pointer,forall_mem_cons,Fact.Holds] at known
  have data : σ.data ⟨.load,[t,x,tmp]⟩ = [σ.env tmp] := rfl
  rw [data,known.2.1]
  exact congrArg Datum.value ((W.lawful.part_nil _).trans known.1.2)

theorem Runs.through {g : StateM (Memory V) V} {w : Id} {b₁ b₂ : Block}
    (made : Addressed W.code .var storage ty [w] b₁ tmp)
    (runs : Runs W ids [W.pointer tmp] g (fun v => [.own tmp v, W.pointer tmp]) b)
    (loaded : Computed W.code .load ty [tmp] b₂ x)
    (own : ∀ y ∈ tmp :: ids, ¬W.Fixed y ∧ ¬W.Visible (.frame W.depth y)) :
    Runs W ([tmp] ++ (ids ++ [x])) [] g (fun v => [.env x (.value v)]) (b₁ ++ (b ++ b₂)) := by
  rw [forall_mem_cons] at own
  refine made.runs_variable.before (nil_subset _) (forall_mem_singleton.mpr own.1) []
    (nil_subset _) (by simp) ?_
  exact runs.bind (g := pure) (by simp) own.2 [] (nil_subset _) (by simp) fun _ => loaded.runs_recall

end Instructions

def Place.selected? : Place → Option (List Nat)
  | .pointer _ _ _ => none
  | .components _ _ _ selected => some selected

def Place.Holds (ty : Ty) : Place → Prop
  | .pointer _ t _ => t = ty
  | .components _ base _ selected => ∃ kind size, base = .vector kind size ∧ ty = .ofSize kind selected.length

section Places

variable {V : Type} {W : World V} {ty : Ty} {b : Block} {x : Id} {q : Place} {l : Location V}
  {ptr stored : Id}

/-- The place denotes the location, which is a part of a variable. -/
structure Place.Denotes (W : World V) (q : Place) (l : Location V) : Prop where
  visible : W.Visible l.cell
  selected : l.selected = q.selected?

theorem Loaded.runs (loaded : Loaded W.code q b x) (holds : q.Holds ty) (denotes : q.Denotes W l)
    (clean : W.Clean (Pass.results b.code)) :
    Runs W (Pass.results b.code) [.env q.base (.pointer l.cell l.path)] (l.read W.machine ty)
      (fun v => [.env x (.value v)]) b := by
  have reads {ty : Ty} {ptr x : Id} {b : Block} (loaded : Computed W.code .load ty [ptr] b x) :
      Runs W (Pass.results b.code) [.env ptr (.pointer l.cell l.path)] (fun μ => (l.whole W.machine μ, μ))
        (fun v => [.env x (.value v)]) b := by
    refine loaded.runs rfl rfl (fun _ => rfl) fun old σ μ t known fits => ?_
    have points : σ.env ptr = .pointer l.cell l.path := known _ mem_cons_self
    have data : σ.data ⟨.load,[t,x,ptr]⟩ = [σ.env ptr] := rfl
    rw [data,points,compute,fits.memory l.cell (fits.apart l.cell denotes.visible)]
    rfl
  obtain ⟨cell,path,selected⟩ := l
  obtain ⟨visible,rfl⟩ := denotes
  cases q with
  | pointer ptr t storage => exact reads loaded
  | components ptr base storage selected =>
    obtain ⟨kind,size,rfl,rfl⟩ := holds
    obtain ⟨kind',whole,b₁,b₂,known,first,second,rfl⟩ := loaded
    cases known
    rw [Block.code_append,results_append] at clean ⊢
    obtain ⟨clean₁,-,-⟩ := clean.append
    refine (reads first).bind (g := fun v => pure (W.machine.swizzle _ selected v)) (Subset.refl _)
      clean₁.own [] (nil_subset _) (by simp) fun _ => ?_
    refine second.runs rfl rfl (fun _ => rfl) fun old σ μ t known fits => ?_
    have given := known _ mem_cons_self
    change σ.env whole = .value _ at given
    simp only [Execution.State.data,Instruction.arguments_swizzle,map_cons,map_nil,given,
      compute,Instruction.literals_swizzle]
    rfl

theorem Addressed.runs_element {index : Id} {path : List V} {v : V} {F : List (Fact V)}
    (chain : Addressed W.code .accessChain storage ty [ptr, index] b x)
    (pointer : .env ptr (.pointer c path) ∈ F)
    (value : ∀ old σ μ, (∀ p ∈ F, p.Holds W old σ) → W.Fits old σ μ → σ.env index = .value v) :
    Runs W (Pass.results b.code) F (pure ()) (fun _ => [.env x (.pointer c (path ++ [v]))]) b := by
  rw [chain.results rfl]
  obtain ⟨p,-,-,rfl⟩ := chain
  refine runs_one (d := fun _ => .pointer c (path ++ [v])) rfl rfl (fun _ => rfl) fun old σ μ holds fits => ?_
  have points : σ.env ptr = .pointer c path := holds _ pointer
  have data : σ.data ⟨.accessChain,[p,x,ptr,index]⟩ = [σ.env ptr,σ.env index] := rfl
  rw [data,points,value old σ μ holds fits]
  rfl

theorem runs_store (ptr stored : Id) (v : V) (visible : W.Visible l.cell) :
    Runs W [] [.env ptr (.pointer l.cell l.path), .env stored (.value v)] (l.write W.machine v)
      (fun _ => []) (.one ⟨.store, [ptr, stored]⟩) := by
  intro old σ μ known fits
  have data : σ.data ⟨.store,[ptr,stored]⟩ = [.pointer l.cell l.path,.value v] := by
    have pointer : σ.env ptr = .pointer l.cell l.path := known _ mem_cons_self
    have value : σ.env stored = .value v := known _ (mem_cons_of_mem _ mem_cons_self)
    rw [← pointer,← value]
    rfl
  refine ⟨σ.set l.cell (W.machine.update (σ.memory l.cell) l.path v),
    ⟨⟨rfl,trivial⟩,fun call again => ?_⟩,⟨fun _ _ => rfl,fun c before _ => ?_,fun c absent _ => ?_⟩,by simp⟩
  · simp only [Block.one,exec,step,data,Result.andThen]
    rfl
  · refine σ.set_memory_of_ne ?_ _
    rintro rfl
    exact fits.apart _ visible before
  · by_cases same : c = l.cell
    · subst same
      rw [σ.set_memory_self,fits.memory _ absent]
      exact (if_pos rfl).symm
    · rw [σ.set_memory_of_ne same,fits.memory c absent]
      exact (if_neg same).symm

theorem StoredComponents.runs {scalar : Ty} {single : Bool} (v : V) (visible : W.Visible l.cell) :
    ∀ {i : Nat} {selected : List Nat} {b : Block},
      StoredComponents W.code ptr storage scalar single stored i selected b →
      W.Clean (Pass.results b.code) → ptr ∉ Pass.results b.code → stored ∉ Pass.results b.code →
      Runs W (Pass.results b.code) [.env ptr (.pointer l.cell l.path), .env stored (.value v)]
        (l.writeComponents W.machine single v i selected) (fun _ => []) b
  | _, [], _, made, _, _, _ => by
    obtain rfl := made
    exact .done (by simp)
  | i, component :: rest, _, made, clean, pointer, value => by
    obtain ⟨element,index,target,b₁,b₂,b₃,read,constant,chain,others,rfl⟩ := made
    simp only [Block.code_append,results_append,mem_append,not_or] at clean pointer value ⊢
    obtain ⟨clean₁,clean',apart⟩ := clean.append
    obtain ⟨clean₂,clean'',-⟩ := clean'.append
    obtain ⟨-,clean₃,-⟩ := clean''.append
    have picked : (element ∈ Pass.results b₁.code ∨ element = stored) ∧ Runs W (Pass.results b₁.code)
        [.env stored (.value v)] (pure ())
        (fun _ => [.env element (.value (W.machine.component single v i))]) b₁ := by
      cases single with
      | true =>
        obtain ⟨rfl,rfl⟩ := read
        exact ⟨.inr rfl,.done fun _ => .inl⟩
      | false =>
        obtain ⟨j,position,computed⟩ := read
        refine ⟨.inl (by rw [computed.results rfl]; exact mem_cons_self),?_⟩
        refine computed.runs (d := fun _ => _) rfl rfl (fun _ => rfl) fun old σ μ t known fits => ?_
        have given : σ.env stored = .value v := known _ mem_cons_self
        have data : σ.data ⟨.extract,[t,element,stored,j]⟩ = [σ.env stored,σ.env j] := rfl
        rw [data,given,fits.constants position]
        exact congrArg Datum.value (W.lawful.extract _ _ _)
    obtain ⟨origin,first⟩ := picked
    have unchanged : element ∉ Pass.results b₂.code := by
      grind
    have second : Runs W (Pass.results b₂.code) [.env ptr (.pointer l.cell l.path)] (pure ())
        (fun _ => [.env target (.pointer l.cell (l.path ++ [W.machine.position component]))]) b₂ :=
      chain.runs_element mem_cons_self fun old σ μ known fits => fits.constants constant
    have third := runs_store (l := l.element (W.machine.position component)) target element
      (W.machine.component single v i) visible
    have fourth := StoredComponents.runs v visible others clean₃ pointer.2.2.2 value.2.2.2
    refine first.before (by simp) clean₁.own [.env ptr (.pointer l.cell l.path),.env stored (.value v)] (by simp)
      (by simp [Fact.Apart,pointer,value]) ?_
    refine second.before (by simp) clean₂.own [.env element (.value (W.machine.component single v i)),
      .env ptr (.pointer l.cell l.path),.env stored (.value v)] (by simp)
      (by simp [Fact.Apart,pointer,value,unchanged]) ?_
    exact third.bind (by simp) (by simp) [.env ptr (.pointer l.cell l.path),.env stored (.value v)] (by simp)
      (by simp [Fact.Apart]) fun _ => fourth

theorem Stored.runs (made : Stored W.code stored q b) (v : V) (denotes : q.Denotes W l)
    (clean : W.Clean (Pass.results b.code)) (pointer : q.base ∉ Pass.results b.code)
    (value : stored ∉ Pass.results b.code) :
    Runs W (Pass.results b.code) [.env q.base (.pointer l.cell l.path), .env stored (.value v)]
      (l.assign W.machine v) (fun _ => []) b := by
  obtain ⟨visible,selected⟩ := denotes
  cases q with
  | pointer ptr t storage =>
    obtain rfl := made
    rw [Location.assign,selected]
    exact runs_store ptr stored v visible
  | components ptr base storage components =>
    obtain ⟨kind,-,made⟩ := made
    rw [Location.assign,selected]
    exact made.runs v visible clean pointer value

end Places

end Shading.Lowering
