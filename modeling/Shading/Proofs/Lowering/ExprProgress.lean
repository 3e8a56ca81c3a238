import Shading.Proofs.Lowering.Coherence
import Shading.Proofs.Lowering.ExprCode

/-! The code of a well-typed expression can be written: its variables have ids, what it calls was written
before, and what it writes has a place. -/
namespace Shading.Typed.Expr

/-- The expression itself, its parts left aside, calls what can be called and writes where a literal names
the component. -/
def Allowed (Γ : Env) (callable : List String) (e : Expr) : Prop :=
  (∀ f args t, e = .call f args t → f ∈ callable) ∧ ∀ t ∈ e.written Γ.function?, t.direct = true

/-- The expression is well typed, mentions visible locals only, and its parts do what they may. -/
structure Ready (Γ : Env) (visible : List Nat) (callable : List String) (e : Expr) : Prop where
  typed : e.WellTyped Γ
  locals : e.locals ⊆ visible
  parts : ∀ x ∈ e.parts, x.Allowed Γ callable

end Shading.Typed.Expr

namespace Shading.Lowering
open List Bytecode Typed

/-- The state has ids for the variables in sight and for the functions that can be called. -/
structure State.Serves (Γ : Env) (visible : List Nat) (callable : List String) (s : State) : Prop where
  globals : ∀ {name r}, Γ.var? (.global name) = some r → ∃ e, s.globals.lookup name = some e
  params : ∀ {i r}, Γ.var? (.param i) = some r → ∃ id, s.frame.params[i]? = some id
  locals : ∀ i ∈ visible, ∃ id, s.frame.locals.lookup i = some id
  functions : ∀ f ∈ callable, ∃ id, s.functions.lookup f = some id ∧
    Defines s.written (· == .function) id

section Expressions

variable {w : List Id} {d : Nat} {s t : State} {Γ : Env} {visible : List Nat} {callable : List String}

theorem State.Serves.grows (serves : s.Serves Γ visible callable) (grows : s.Grows t) :
    t.Serves Γ visible callable where
  globals found := grows.globals ▸ serves.globals found
  params found := grows.params ▸ serves.params found
  locals i seen := by
    grind [State.Serves.locals,State.Grows.locals]
  functions f called := by
    obtain ⟨id,found,written⟩ := serves.functions f called
    exact ⟨id,grows.functions ▸ found,written.mono grows.written⟩

theorem variableId_does {v : VarRef} {ty : Ty} (serves : s.Serves Γ visible callable)
    (typed : (Expr.var v ty).WellTyped Γ) (seen : ∀ i t, Expr.var v ty = .var (.local_ i) t → i ∈ visible) :
    Does w d s (variableId v) d fun r s' => s'.IsPointer r.1 := by
  refine .using_ fun coherent => .of_get ?_
  obtain ⟨access,known⟩ : ∃ access, Γ.var? v = some (ty, access) := by
    cases typed
    exact ⟨_,by assumption⟩
  cases v with
  | global name =>
    obtain ⟨e,found⟩ := serves.globals known
    dsimp only
    rw [found]
    obtain ⟨before,after,split,-⟩ := lookup_eq_some_iff.mp found
    have defined := coherent.globals (name, e) (by simp [split])
    exact .of_pure ((defined.mono (subset_append_left _ _)).imp (by simp [Opcode.isPointer]))
  | local_ i =>
    obtain ⟨id,found⟩ := serves.locals i (seen i ty rfl)
    dsimp only
    rw [found]
    obtain ⟨before,after,split,-⟩ := lookup_eq_some_iff.mp found
    exact .of_pure (coherent.locals (i, id) (by simp [split]))
  | param i =>
    grind [State.Serves.params,Does.of_pure,State.Coherent.params]

theorem functionId_does {signature : String} {id : Id} (found : s.functions.lookup signature = some id)
    (written : Defines s.written (· == .function) id) :
    Does w d s (functionId signature) d fun r s' => Defines s'.written (· == .function) r := by
  refine .of_get ?_
  rw [found]
  exact .of_pure written

theorem loadPointer_does {ptr : Id} {ty : Ty} (pointer : s.IsPointer ptr) :
    Does w d s (value .load ty [ptr]) d fun _ _ => True :=
  value_does rfl rfl (by simp [Opcode.minOperands]) fun _ _ => pointer

theorem storeTo_does {ptr stored : Id} (pointer : s.IsPointer ptr) :
    Does w d s (emit .store [ptr, stored]) d fun _ _ => True :=
  emit_does rfl ⟨by simp [Instruction.Full,Opcode.minOperands],
    by simp [Instruction.resultType?,Opcode.hasResultType],pointer⟩ rfl

/-- Of an instruction of control flow only the number of operands matters. -/
theorem steer_does {d' : Nat} (op : Opcode) (operands : List Id) (steers : 60 ≤ op.code)
    (full : op.minOperands ≤ operands.length) (steps : loopsAfter d [⟨op, operands⟩] = some d') :
    Does w d s (emit op operands) d' fun _ _ => True := by
  refine emit_does ?_ ⟨full,?_,?_⟩ steps
  all_goals cases op <;> first
    | exact absurd steers (by decide) | rfl | simp [Instruction.resultType?,Opcode.hasResultType] | trivial

theorem branch_does {c : Id} {yes : Lower Unit}
    (first : ∀ t, s.Grows t → Does w d t yes d fun _ _ => True) :
    Does w d s (branch c yes) d fun _ _ => True := by
  refine (steer_does .ifThen [c] (by decide) (Nat.le_refl 1) rfl).bind fun _ s₁ grows₁ _ => ?_
  refine (first s₁ grows₁).bind fun _ s₂ _ _ => ?_
  exact steer_does .endIf [] (by decide) (Nat.le_refl 0) rfl

theorem choice_does {c : Id} {yes no : Lower Unit}
    (first : ∀ t, s.Grows t → Does w d t yes d fun _ _ => True)
    (second : ∀ t, s.Grows t → Does w d t no d fun _ _ => True) :
    Does w d s (choice c yes no) d fun _ _ => True := by
  refine (steer_does .ifThen [c] (by decide) (Nat.le_refl 1) rfl).bind fun _ s₁ grows₁ _ => ?_
  refine (first s₁ grows₁).bind fun _ s₂ grows₂ _ => ?_
  refine (steer_does .orElse [] (by decide) (Nat.le_refl 0) rfl).bind fun _ s₃ grows₃ _ => ?_
  refine (second s₃ ((grows₁.trans grows₂).trans grows₃)).bind fun _ s₄ _ _ => ?_
  exact steer_does .endIf [] (by decide) (Nat.le_refl 0) rfl

variable {p : Program}

theorem Does.lasting {α : Type} {work : Lower α} {Q Q' : α → State → Prop} (h : Does w d s work d Q)
    (lasts : ∀ a s' t, s'.Grows t → Q a s' → Q' a t) :
    Does w d s work d fun a s' => ∀ t, s'.Grows t → Q' a t :=
  h.imp fun a s' _ given t more => lasts a s' t more given

/-- The work succeeds. -/
def progress (known : Γ.function? = p.functionTy?) (w : List Id) (d : Nat) (visible : List Nat)
    (callable : List String) : Calculus p Γ where
  World := State
  Holds G work Q := ∀ s : State, (∀ t, s.Grows t → G t) → Does w d s work d fun a s' => ∀ t, s'.Grows t → Q a t
  Checked := True
  Total := True
  checked := id
  functions _ := known
  passes _ found handed passes := by
    rw [known, Program.functionTy?, handed] at found
    cases found
    exact (forall₂_map_left_iff.mp passes).imp fun _ _ passed => passed.2
  Mentions _ _ := True
  Reads x s := s.IsPointer x
  Writes x s := s.IsPointer x
  mentions _ := trivial
  reads := id
  Has e s := s.Serves Γ visible callable ∧ e.WellTyped Γ ∧ (∀ i t, e = .var (.local_ i) t → i ∈ visible) ∧
    ∀ f args t, e = .call f args t → f ∈ callable
  Calls _ f s := Defines s.written (· == .function) f
  of_pure given s known := .of_pure fun t grows => given t (known t grows)
  of_throw never s known := absurd (known s (.refl s)) (never trivial s)
  of_bind first second s known := (first s known).bind fun a t grows given =>
    second a t fun u more => ⟨known u (grows.trans more), given u more⟩
  imp h le weaker s known := (h s fun t grows => le t (known t grows)).imp
    fun a t grows given u more => weaker a u (known u (grows.trans more)) (given u more)
  of_constant c _ _ := (constantId_does c).lasting fun _ _ _ _ _ => trivial
  of_compute computes _ _ _ := by
    refine (value_does ?_ ?_ ?_ ?_).lasting fun _ _ _ _ _ => trivial
    all_goals cases computes <;> first | rfl | simp [Opcode.minOperands] | exact fun _ _ => trivial
  of_load readable s known := (loadPointer_does (readable s (known s (.refl s)))).lasting fun _ _ _ _ _ => trivial
  of_store writable s known :=
    (storeTo_does (writable s (known s (.refl s))).1).lasting fun _ _ _ _ _ => trivial
  of_local ty _ _ := (localVariable_does ty).lasting fun _ _ _ more pointer => pointer.grows more
  of_access readable s known := (accessChain_does (readable s (known s (.refl s))).1).lasting
    fun _ _ _ more pointer => ⟨pointer.grows more, fun _ => pointer.grows more⟩
  of_branch _ first s known := (branch_does fun t grows => (first t fun u more => known u (grows.trans more)).imp
    fun _ _ _ _ => trivial).lasting fun _ _ _ _ _ => trivial
  of_choice _ first second s known := (choice_does
    (fun t grows => (first t fun u more => known u (grows.trans more)).imp fun _ _ _ _ => trivial)
    fun t grows => (second t fun u more => known u (grows.trans more)).imp fun _ _ _ _ => trivial).lasting
      fun _ _ _ _ _ => trivial
  of_variable has s known := by
    obtain ⟨serves, typed, seen, -⟩ := has s (known s (.refl s))
    exact (variableId_does serves typed seen).lasting
      fun _ _ _ more pointer => ⟨pointer.grows more, fun _ => pointer.grows more⟩
  of_function has _ s known := by
    obtain ⟨serves, -, -, called⟩ := has s (known s (.refl s))
    obtain ⟨id, found, written⟩ := serves.functions _ (called _ _ _ rfl)
    exact (functionId_does found written).lasting fun _ _ _ more defined => defined.mono more.written
  of_call called s known := Does.lasting (value_does rfl rfl (by simp [Opcode.minOperands])
    fun _ _ => (called s (known s (.refl s))).1) fun _ _ _ _ _ => trivial

/-- The code of an expression can be written. -/
theorem lowerExpr_does (known : Γ.function? = p.functionTy?) (e : Expr) (ready : e.Ready Γ visible callable)
    (serves : s.Serves Γ visible callable) : Does w d s (lowerExpr p e) d fun _ _ => True := by
  have fine : (progress known w d visible callable).Knows (fun s : State => s.Serves Γ visible callable) e.parts :=
    fun t served x part => ⟨fun _ => ready.typed.parts x part,fun _ => (ready.parts x part).2,served,
      ready.typed.parts x part,fun i ty same => ready.locals (Expr.mem_locals.mpr ⟨ty,same ▸ part⟩),
      (ready.parts x part).1⟩
  exact (Calculus.lowerExpr_holds e fine s fun _ grows => serves.grows grows).imp fun _ _ _ _ => trivial

end Expressions

end Shading.Lowering
