import Shading.Proofs.Lowering.Calculus
import Shading.Proofs.Lowering.Declarations

/-! The code of expressions is one block that mentions visible ids only: ids of types, constants and
globals, those of the variables in sight, and results that came before in the same block. -/
namespace Shading.Lowering
open List Bytecode Typed Instruction Block

variable {s s' : State} {ty : Ty} {op : Opcode} {operands : List UInt32} {v : List Id}

/-- The variables in sight: parameters, and the locals of some indices. -/
structure Sees (v : List Id) (visible : List Nat) (f : Frame) : Prop where
  params : f.params ⊆ v
  locals : ∀ i ∈ visible, ∀ id, f.locals.lookup i = some id → id ∈ v

/-- Work on an expression has written a block, in which the ids `v` are in sight besides those that are
declared. -/
structure Emits (v : List Id) (s : State) (b : Block) (s' : State) : Prop where
  code : s'.code.toList = s.code.toList ++ b.code
  frame : s'.frame = s.frame
  functions : s'.functions = s.functions
  known : s.known ⊆ s'.known
  tidy : s'.Tidy
  inside : b.Scoped (v ++ s'.known)
  calm : b.Calm

theorem known_mono {known known' : List Id} (le : known ⊆ known') : v ++ known ⊆ v ++ known' :=
  append_subset.mpr ⟨subset_append_left _ _,Subset.trans le (subset_append_right _ _)⟩

theorem Emits.trans {t u : State} {a b : Block} (first : Emits v s a t)
    (second : Emits (a.top ++ v) t b u) : Emits v s (a ++ b) u where
  code := by rw [second.code,first.code,code_append,List.append_assoc]
  frame := second.frame.trans first.frame
  functions := second.functions.trans first.functions
  known := Subset.trans first.known second.known
  tidy := second.tidy
  inside := by
    refine scoped_append.mpr ⟨first.inside.mono ?_,by simpa using second.inside⟩
    exact known_mono second.known
  calm := all_append.mpr ⟨first.calm,second.calm⟩

theorem Emits.done (tidy : s.Tidy) : Emits v s .done s :=
  ⟨by simp [Block.code],rfl,rfl,Subset.refl _,tidy,trivial,trivial⟩

/-- Where `G` is known of the ids in sight, the work writes a block, and `Q` is known after it. -/
def Shows {α : Type} (visible : List Nat) (G : List Id → Prop) (work : Lower α)
    (Q : α → List Id → Prop) : Prop :=
  ∀ v s a s', s.Tidy → Sees v visible s.frame → (∀ sight, v ++ s.known ⊆ sight → G sight) →
    work.run s = .ok (a, s') → ∃ b, Emits v s b s' ∧ ∀ sight, b.top ++ v ++ s'.known ⊆ sight → Q a sight

/-- Where the ids `uses` are in sight, the work writes a block, and what it gives is in sight after it. -/
abbrev Yields {α : Type} (visible : List Nat) (uses : List Id) (work : Lower α) (gives : α → List Id) : Prop :=
  Shows visible (uses ⊆ ·) work (gives · ⊆ ·)

theorem Yields.emits {α : Type} {visible : List Nat} {uses : List Id} {work : Lower α}
    {gives : α → List Id} {a : α} (h : Yields visible uses work gives) (tidy : s.Tidy)
    (sees : Sees v visible s.frame) (used : uses ⊆ v ++ s.known) (ran : work.run s = .ok (a, s')) :
    ∃ b, Emits v s b s' ∧ gives a ⊆ b.top ++ v ++ s'.known := by
  obtain ⟨b,emitted,given⟩ := h v s a s' tidy sees (fun _ more => Subset.trans used more) ran
  exact ⟨b,emitted,given _ (Subset.refl _)⟩

namespace Shows

variable {α β : Type} {visible : List Nat} {G : List Id → Prop} {work : Lower α} {Q : α → List Id → Prop}
  {R : β → List Id → Prop}

theorem of_pure {a : α} (given : ∀ sight, G sight → Q a sight) : Shows visible G (pure a) Q := by
  intro v s b s' tidy sees known ran
  cases ran
  exact ⟨.done,.done tidy,fun sight more => given sight (known sight more)⟩

theorem of_throw {e : Fault} : Shows visible G (throw e) Q := by
  intro v s b s' tidy sees known ran
  cases ran

theorem bind {next : α → Lower β} (first : Shows visible G work Q)
    (second : ∀ a, Shows visible (fun sight => G sight ∧ Q a sight) (next a) R) :
    Shows visible G (work >>= next) R := by
  intro v s b s' tidy sees known ran
  obtain ⟨a,t,ranFirst,ranSecond⟩ := Lower.run_bind_eq_ok.mp ran
  obtain ⟨one,emitted,given⟩ := first v s a t tidy sees known ranFirst
  have sees' : Sees (one.top ++ v) visible t.frame := by
    rw [emitted.frame]
    exact ⟨Subset.trans sees.params (subset_append_right _ _),
      fun i seen id found => mem_append_right _ (sees.locals i seen id found)⟩
  have wider : v ++ s.known ⊆ one.top ++ v ++ t.known := by
    refine append_subset.mpr ⟨by simp,Subset.trans emitted.known (subset_append_right _ _)⟩
  obtain ⟨two,emitted',given'⟩ := second a _ t b s' emitted.tidy sees'
    (fun sight more => ⟨known sight (Subset.trans wider more),given sight more⟩) ranSecond
  exact ⟨one ++ two,emitted.trans emitted',by simpa using given'⟩

theorem imp {G' : List Id → Prop} {Q' : α → List Id → Prop} (h : Shows visible G work Q)
    (le : ∀ sight, G' sight → G sight) (weaker : ∀ a sight, G' sight → Q a sight → Q' a sight) :
    Shows visible G' work Q' := by
  intro v s a s' tidy sees known ran
  obtain ⟨b,emitted,given⟩ := h v s a s' tidy sees (fun sight more => le sight (known sight more)) ran
  refine ⟨b,emitted,fun sight more => weaker a sight (known sight ?_) (given sight more)⟩
  refine Subset.trans (append_subset.mpr ⟨by simp,?_⟩) more
  exact Subset.trans emitted.known (subset_append_right _ _)

theorem of_declares {f : α → List Id} (h : Declares work f) : Shows visible G work (f · ⊆ ·) := by
  intro v s a s' tidy sees known ran
  have declared := h s a s' tidy ran
  refine ⟨.done,⟨by simp [Block.code,declared.code],declared.frame,declared.functions,
    declared.known,declared.tidy,trivial,trivial⟩,fun sight more => ?_⟩
  exact Subset.trans declared.gives (Subset.trans (subset_append_right _ _) more)

theorem emit (calm : op.isCalm = true)
    (mentioned : ∀ sight, G sight → (⟨op, operands⟩ : Instruction).mentions ⊆ sight) :
    Shows visible G (emit op operands) fun _ sight => (⟨op, operands⟩ : Instruction).result?.toList ⊆ sight := by
  intro v s a s' tidy sees known ran
  cases emit_eq_ok ran
  refine ⟨.one ⟨op,operands⟩,⟨by simp [one,Block.code],rfl,rfl,Subset.refl _,
    tidy.wrote _,⟨mentioned _ (known _ (Subset.refl _)),trivial⟩,⟨calm,trivial⟩⟩,fun sight more => ?_⟩
  exact Subset.trans (by simp [one,top]) more

theorem result {head : Lower Id} (declares : Declares head fun id => [id]) (calm : op.isCalm = true)
    (typed : op.hasResultType = true) (mentioned : ∀ sight, G sight → ∀ {t x}, t ∈ sight →
      (⟨op, t :: x :: operands⟩ : Instruction).mentions ⊆ sight) :
    Shows visible G (do
      let t ← head
      let id ← fresh
      Lowering.emit op (t :: id :: operands)
      return id) fun x sight => x ∈ sight := by
  refine bind (of_declares declares) fun t => bind (of_declares .fresh) fun id =>
    bind (emit calm fun sight given => mentioned sight given.1.1 (given.1.2 mem_cons_self)) fun _ =>
      of_pure fun sight given => given.2 ?_
  simp [result?,resultPosition?,typed]

end Shows

section Expressions

variable {visible : List Nat} {G : List Id → Prop} {a : Unit} {yes : Lower Unit}

theorem localVariable_emits {id : Id} (tidy : s.Tidy)
    (ran : (localVariable ty).run s = .ok (id, s')) :
    ∃ p, Emits v s (.one ⟨.var, [p, id, .ofNat StorageClass.function.code]⟩) s' := by
  rw [localVariable,← bind_assoc] at ran
  obtain ⟨p,s₂,ranPointer,ran⟩ := Lower.run_bind_eq_ok.mp ran
  have pointed := pointerTo_declares .function ty s p s₂ tidy ranPointer
  cases ran
  refine ⟨p,⟨?_,pointed.frame,pointed.functions,pointed.known,?_,⟨?_,trivial⟩,⟨rfl,trivial⟩⟩⟩
  · simp [pointed.code,one,Block.code]
  · exact (Declares.fresh s₂ _ _ pointed.tidy rfl).tidy.wrote _
  · have known : p ∈ s₂.known := pointed.gives mem_cons_self
    intro r mem
    simp only [mentions,refersAt] at mem
    obtain rfl : r = p := by simpa using mem
    exact mem_append_right _ known

theorem localVariable_shows (ty : Ty) : Shows visible G (localVariable ty) fun x sight => x ∈ sight := by
  intro v s id s' tidy sees known ran
  obtain ⟨p,emitted⟩ := localVariable_emits tidy ran
  exact ⟨_,emitted,fun sight more => more (by simp [one,top,result?,
    resultPosition?,Opcode.hasResultType])⟩

theorem variableId_shows {v : VarRef} (seen : ∀ sight, G sight → ∀ i, v = .local_ i → i ∈ visible) :
    Shows visible G (variableId v) fun r sight => r.1 ∈ sight := by
  intro ids s r s' tidy sees known ran
  obtain ⟨rfl,found⟩ := variableId_eq_ok ran
  refine ⟨.done,.done tidy,fun sight more => more ?_⟩
  cases v with
  | global name => exact mem_append_right _ (tidy.globals _ (mem_of_lookup found))
  | local_ i =>
    obtain ⟨id,here,rfl⟩ := Option.map_eq_some_iff.mp found
    exact mem_append_left _ (sees.locals i (seen _ (known _ (Subset.refl _)) i rfl) id here)
  | param i =>
    obtain ⟨id,here,rfl⟩ := Option.map_eq_some_iff.mp found
    exact mem_append_left _ (sees.params (mem_of_getElem? here))

theorem functionId_shows (signature : String) : Shows visible G (functionId signature) fun _ _ => True := by
  intro v s a s' tidy sees known ran
  obtain ⟨rfl,-⟩ := functionId_eq_ok ran
  exact ⟨.done,.done tidy,fun _ _ => trivial⟩

theorem accessChain_shows {storage : StorageClass} {base index : Id}
    (inside : ∀ sight, G sight → base ∈ sight ∧ index ∈ sight) :
    Shows visible G (accessChain storage ty base index) fun x sight => x ∈ sight := by
  rw [accessChain,← bind_assoc]
  refine .result (pointerTo_declares storage ty) rfl rfl fun sight given _ _ typed => ?_
  simp [mentions,refersAt,typed,inside sight given]

theorem run_branch {c : Id} (ran : (branch c yes).run s = .ok (a, s')) :
    ∃ t, yes.run (s.wrote ⟨.ifThen, [c]⟩) = .ok ((), t) ∧ s' = t.wrote ⟨.endIf, []⟩ := by
  obtain ⟨_,_,opened,ran⟩ := Lower.run_bind_eq_ok.mp ran
  cases emit_eq_ok opened
  obtain ⟨_,t,inside,closed⟩ := Lower.run_bind_eq_ok.mp ran
  exact ⟨t,inside,emit_eq_ok closed⟩

/-- Two parts in a row, with marks around them. -/
theorem run_parts {o m e : Opcode} {xs ys zs : List UInt32} {first second : Lower Unit}
    (ran : StateT.run (do emit o xs; first; emit m ys; second; emit e zs) s = .ok (a, s')) :
    ∃ t u, first.run (s.wrote ⟨o, xs⟩) = .ok ((), t) ∧ second.run (t.wrote ⟨m, ys⟩) = .ok ((), u) ∧
      s' = u.wrote ⟨e, zs⟩ := by
  obtain ⟨_,_,opened,ran⟩ := Lower.run_bind_eq_ok.mp ran
  cases emit_eq_ok opened
  obtain ⟨_,t,inside,ran⟩ := Lower.run_bind_eq_ok.mp ran
  obtain ⟨_,_,turned,ran⟩ := Lower.run_bind_eq_ok.mp ran
  cases emit_eq_ok turned
  obtain ⟨_,u,inside',closed⟩ := Lower.run_bind_eq_ok.mp ran
  exact ⟨t,u,inside,inside',emit_eq_ok closed⟩

theorem branch_shows {c : Id} (cond : ∀ sight, G sight → c ∈ sight)
    (first : Shows visible G yes fun _ _ => True) :
    Shows visible G (branch c yes) fun _ _ => True := by
  intro v s a s' tidy sees known ran
  obtain ⟨s₂,ranYes,rfl⟩ := run_branch ran
  obtain ⟨b,emitted,-⟩ := first v _ _ s₂ (tidy.wrote _) sees known ranYes
  have seen : c ∈ v ++ s₂.known := cond _ (known _ (known_mono emitted.known))
  refine ⟨.ifThen c b .done,⟨?_,emitted.frame,emitted.functions,emitted.known,
    emitted.tidy.wrote _,⟨seen,emitted.inside,trivial⟩,⟨emitted.calm,trivial⟩⟩,fun _ _ => trivial⟩
  simp [emitted.code,Block.code]

theorem choice_shows {c : Id} {no : Lower Unit} (cond : ∀ sight, G sight → c ∈ sight)
    (first : Shows visible G yes fun _ _ => True) (second : Shows visible G no fun _ _ => True) :
    Shows visible G (choice c yes no) fun _ _ => True := by
  intro v s a s' tidy sees known ran
  obtain ⟨s₂,s₄,ranYes,ranNo,rfl⟩ := run_parts ran
  obtain ⟨a,emitted,-⟩ := first v _ _ s₂ (tidy.wrote _) sees known ranYes
  have known' (sight : List Id) (more : v ++ s₂.known ⊆ sight) : G sight :=
    known sight (Subset.trans (known_mono emitted.known) more)
  obtain ⟨b,emitted',-⟩ := second v _ _ s₄ (emitted.tidy.wrote _)
    (by simpa [emitted.frame] using sees) known' ranNo
  have wider : v ++ s₂.known ⊆ v ++ s₄.known := known_mono emitted'.known
  refine ⟨.ifElse c a b .done,⟨?_,emitted'.frame.trans emitted.frame,
    emitted'.functions.trans emitted.functions,Subset.trans emitted.known emitted'.known,
    emitted'.tidy.wrote _,⟨cond _ (known' _ wider),emitted.inside.mono wider,emitted'.inside,trivial⟩,
    ⟨emitted.calm,emitted'.calm,trivial⟩⟩,fun _ _ => trivial⟩
  simp [emitted'.code,emitted.code,Block.code]

theorem Computes.mentions_subset {values sight : List Id} (computes : Computes op operands values)
    (inside : values ⊆ sight) {t x : Id} (typed : t ∈ sight) :
    (⟨op, t :: x :: operands⟩ : Instruction).mentions ⊆ sight := by
  cases computes with
  | construct | builtin | swizzle =>
    intro id mem
    obtain ⟨n,here,refers,-⟩ := mem_mentions.mp mem
    grind [refersAt]
  | _ => simpa [mentions,refersAt,typed] using inside

theorem call_mentions_subset {f t x : Id} {args sight : List Id} (inside : args ⊆ sight) (typed : t ∈ sight) :
    (⟨.call, t :: x :: f :: args⟩ : Instruction).mentions ⊆ sight := by
  intro id mem
  obtain ⟨n,here,refers,called⟩ := mem_mentions.mp mem
  grind [refersAt]

/-- What stands in the code of an expression is in sight. -/
def sight (p : Program) (visible : List Nat) : Calculus p ⟨fun _ => none, fun _ => none⟩ where
  World := List Id
  Holds := Shows visible
  Checked := False
  Total := False
  checked := id
  functions := False.elim
  passes := False.elim
  Mentions x sight := x ∈ sight
  Reads x sight := x ∈ sight
  Writes x sight := x ∈ sight
  mentions := id
  reads := id
  Has e _ := ∀ i t, e = .var (.local_ i) t → i ∈ visible
  Calls _ _ _ := True
  of_pure := .of_pure
  of_throw _ := .of_throw
  of_bind := .bind
  imp := .imp
  of_constant c := (Shows.of_declares (constantId_declares c)).imp (fun _ => id) fun _ _ _ given => by simpa using given
  of_compute computes inside := .result (tyId_declares _) (by cases computes <;> rfl) (by cases computes <;> rfl)
    fun sight given => computes.mentions_subset (forall_iff_forall_mem.mp (inside sight given))
  of_load inside := .result (tyId_declares _) rfl rfl fun sight given _ _ typed => by
    simp [mentions, refersAt, typed, inside sight given]
  of_store inside := (Shows.emit rfl fun sight given => by
    simp [mentions, refersAt, inside sight given]).imp (fun _ => id) fun _ _ _ _ => trivial
  of_local ty := localVariable_shows ty
  of_access inside := (accessChain_shows inside).imp (fun _ => id) fun _ _ _ seen => ⟨seen, fun _ => seen⟩
  of_branch := branch_shows
  of_choice := choice_shows
  of_variable seen := (variableId_shows fun sight given i same => seen sight given i _ (congrArg (Expr.var · _) same)).imp
    (fun _ => id) fun _ _ _ here => ⟨here, fun _ => here⟩
  of_function _ _ := functionId_shows _
  of_call inside := .result (tyId_declares _) rfl rfl fun sight given => call_mentions_subset (inside sight given).2.1

/-- An expression that mentions visible locals is written as one block that mentions visible ids. -/
theorem lowerExpr_yields (p : Program) (e : Typed.Expr) (inside : e.locals ⊆ visible) (uses : List Id) :
    Yields visible uses (lowerExpr p e) fun id => [id] := by
  have known : (sight p visible).Knows (fun ids : List Id => uses ⊆ ids) e.parts :=
    fun _ _ x part => ⟨False.elim,False.elim,fun i t same => inside (Expr.mem_locals.mpr ⟨t,same ▸ part⟩)⟩
  exact (Calculus.lowerExpr_holds e known : Shows ..).imp (fun _ => id) fun _ _ _ seen =>
    cons_subset.mpr ⟨seen,nil_subset _⟩

end Expressions

end Shading.Lowering
