import Shading.Proofs.Typed.Parts
import Shading.Typed.Check

/-! The expressions that the checker makes are well typed, and mention only locals that are in sight. Each
rule that builds a typed expression keeps to the judgement; checking adds variables of the stage to the
program and changes nothing else. -/
namespace Shading.Typed
open List State

variable {op : BinaryOp} {a c : Const} {t wanted ty : Ty} {e l r base : Expr} {args : List Expr}
  {field name operation : String} {log : Log} {span : Span} {cause : Cause} {v : Builtin.Var}
  {overloads : List Overload} {o : Overload} {S : Scopes} {s : State}

namespace Expr

theorem ty_binary? {b : Const} (result : op.resultTy? a.ty b.ty = some t)
    (computed : Const.binary? op a b = some c) : c.ty = t := by
  cases op <;> cases a <;> cases b <;>
    simp_all [BinaryOp.resultTy?,BinaryOp.product?,BinaryOp.meet?,Const.binary?,Const.ty,
      Const.kind,Ty.isScalar,Ty.isNumeric,Ty.isInteger,Ty.kind?,Ty.isVoid,Ty.base,
      Ty.isSampler,Scalar.isNumeric,Scalar.isInteger,BinaryOp.isComparison,BinaryOp.isShift,
      Const.boolOp?,Const.intOp?,Const.uintOp?,Const.floatOp?] <;>
    grind

theorem ty_unary? {op : UnaryOp} (computed : Const.unary? op a = some c) : c.ty = a.ty := by
  cases op <;> cases a <;> cases computed <;> rfl

theorem ty_cast (k : Scalar) (c : Const) : (c.cast k).ty = .scalar k := by cases k <;> rfl

theorem WellTyped.ty_eval? {Γ : Env} (typed : e.WellTyped Γ) (value : e.eval? = some c) :
    c.ty = e.ty := by
  induction typed generalizing c with
  | const =>
    cases value
    rfl
  | binary _ _ result ihl ihr =>
    simp only [eval?,Option.bind_eq_bind] at value
    split at value
    · obtain ⟨a,left,rest⟩ := Option.bind_eq_some_iff.mp value
      obtain ⟨b,right,computed⟩ := Option.bind_eq_some_iff.mp rest
      rw [← ihl left,← ihr right] at result
      exact ty_binary? result computed
    · cases value
  | unary _ _ ih =>
    simp only [eval?] at value
    split at value
    · obtain ⟨a,operand,computed⟩ := Option.bind_eq_some_iff.mp value
      exact (ty_unary? computed).trans (ih operand)
    · cases value
  | select _ _ _ _ same _ _ iha ihb =>
    simp only [eval?] at value
    split at value
    · split at value
      · exact iha value
      · exact (ihb value).trans same.symm
      · cases value
    · cases value
  | @construct args t _ _ _ _ _ =>
    unfold eval? at value
    split at value
    any_goals contradiction
    rename_i e k shape
    cases shape
    split at value
    · obtain ⟨a,-,rfl⟩ := Option.map_eq_some_iff.mp value
      exact ty_cast k a
    · cases value
  | _ => simp [eval?] at value

theorem withKind?_toFloat (integer : e.ty.isInteger) :
    e.ty.withKind? .float = some e.toFloat.ty := by
  have shape : ∃ t, e.ty.withKind? .float = some t := by
    cases found : e.ty with
    | scalar k | vector k n => exact ⟨_,rfl⟩
    | _ => simp [found,Ty.isInteger] at integer
  obtain ⟨t,found⟩ := shape
  unfold toFloat
  rw [if_pos integer]
  cases literal : e.const? with
  | none => simp [found,ty]
  | some c =>
    cases e with
    | const c' => simp [ty,Const.ty,Const.kind,Const.cast,Ty.withKind?]
    | _ => simp [const?] at literal

theorem withKind?_of_converts {found : Ty} (fits : converts found wanted)
    (foundDenoted : found.Denoted) (wantedDenoted : wanted.Denoted) :
    found.withKind? .float = some wanted := by
  simp only [converts,Bool.and_eq_true,beq_iff_eq] at fits
  obtain ⟨⟨integer,float⟩,size⟩ := fits
  cases found with
  | scalar k =>
    cases wanted with
    | scalar j =>
      cases eq_of_beq float
      rfl
    | vector j n =>
      cases size
      simp at wantedDenoted
    | _ => cases float
  | vector k n =>
    cases wanted with
    | scalar j =>
      cases size
      simp at foundDenoted
    | vector j m =>
      cases size
      cases eq_of_beq float
      rfl
    | _ => cases float
  | _ => cases integer

section Conversions

variable {Γ : Env} (known : Γ.Denoted)
include known

theorem WellTyped.toFloat (typed : e.WellTyped Γ) : e.toFloat.WellTyped Γ := by
  unfold Expr.toFloat
  split
  · rename_i integer
    split
    · exact .const
    · split
      · rename_i t found
        refine .construct (by simpa using typed) ?_ ?_ ((typed.denoted known).withKind? found)
        · simp only [mem_singleton,forall_eq]
          revert integer
          cases e.ty <;> simp [Ty.isInteger,Ty.kind?]
        · revert integer found
          cases e.ty <;> simp [Ty.isInteger,Ty.withKind?]
          · rintro - rfl
            rfl
          · rintro - rfl
            rfl
      · exact typed
  · exact typed

theorem WellTyped.coerce? {e' : Expr} (typed : e.WellTyped Γ) (denoted : wanted.Denoted)
    (coerced : e.coerce? wanted = some e') : e'.WellTyped Γ ∧ e'.ty = wanted := by
  unfold Expr.coerce? at coerced
  split at coerced
  · cases coerced
    exact ⟨typed,‹_›⟩
  · split at coerced
    · rename_i fits
      cases coerced
      have integer : e.ty.isInteger := by
        simp only [converts,Bool.and_eq_true] at fits
        exact fits.1.1
      refine ⟨typed.toFloat known,?_⟩
      have wantedTy := withKind?_of_converts fits (typed.denoted known) denoted
      exact Option.some.inj ((withKind?_toFloat integer).symm.trans wantedTy)
    · cases coerced

end Conversions

end Expr

section Rules

variable {Γ : Env} (known : Γ.Denoted)
include known

theorem unify_wellTyped (left : l.WellTyped Γ) (right : r.WellTyped Γ) :
    (unify l r).1.WellTyped Γ ∧ (unify l r).2.WellTyped Γ := by
  grind [unify,Expr.WellTyped.toFloat]

theorem makeBinary_wellTyped (made : makeBinary op l r = .ok e) (left : l.WellTyped Γ)
    (right : r.WellTyped Γ) : e.WellTyped Γ := by
  have operands : (if op.isIntegerOnly || op.isLogical then (l, r) else unify l r).1.WellTyped Γ ∧
      (if op.isIntegerOnly || op.isLogical then (l, r) else unify l r).2.WellTyped Γ := by
    split
    · exact ⟨left,right⟩
    · exact unify_wellTyped known left right
  unfold makeBinary at made
  dsimp only at made
  split at made
  · rename_i t result
    cases made
    exact .binary operands.1 operands.2 result
  · cases made

omit known in
theorem makeUnary_wellTyped {op : UnaryOp} {x : Expr} (made : makeUnary op x = .ok e)
    (operand : x.WellTyped Γ) : e.WellTyped Γ := by
  unfold makeUnary at made
  split at made
  · cases made
    exact .unary operand ‹_›
  · cases made

theorem makeSelect_wellTyped {c a b : Expr} (made : makeSelect c a b = .ok e) (cond : c.WellTyped Γ)
    (bool : c.ty = .bool) (yes : a.WellTyped Γ) (no : b.WellTyped Γ) : e.WellTyped Γ := by
  obtain ⟨unifiedYes,unifiedNo⟩ := unify_wellTyped known yes no
  unfold makeSelect at made
  dsimp only at made
  split at made
  · rename_i same
    cases made
    refine .select cond unifiedYes unifiedNo bool same.1 fun void => ?_
    simp [void,Ty.isVoid] at same
  · cases made

theorem assigned_wellTyped {op : Option BinaryOp} {t v : Expr} (made : assigned op t v = .ok e)
    (target : t.WellTyped Γ) (value : v.WellTyped Γ) :
    e.WellTyped Γ ∧ Expr.Stores op t.ty e.ty := by
  unfold assigned at made
  split at made
  · split at made
    · rename_i coerced
      cases made
      exact value.coerce? known (target.denoted known) coerced
    · cases made
  · dsimp only at made
    generalize converted : (if t.ty.kind? = some .float then v.toFloat else v) = w at made
    have typed : w.WellTyped Γ := by
      subst converted
      split
      · exact value.toFloat known
      · exact value
    split at made
    · rename_i result
      cases made
      exact ⟨typed,result⟩
    · cases made

omit known in
theorem makeConstruct_wellTyped (made : makeConstruct ty args = .ok e) (denoted : ty.Denoted)
    (typed : ∀ e ∈ args, e.WellTyped Γ) : e.WellTyped Γ := by
  have filled : ∀ e ∈ args, e.ty.components ≠ 0 := by
    intro x mem empty
    have found : (args.find? fun e => e.ty.components == 0).isSome :=
      find?_isSome.mpr ⟨x,mem,by simpa using empty⟩
    obtain ⟨bad,found⟩ := Option.isSome_iff_exists.mp found
    unfold makeConstruct at made
    simp [found,bind,Except.bind,throw,throwThe,MonadExceptOf.throw] at made
    grind
  have made' : e = .construct args ty ∧ ty.kind?.isSome := by
    unfold makeConstruct at made
    simp only [bind,Except.bind,pure,Except.pure,throw,throwThe,MonadExceptOf.throw] at made
    grind [Ty.kind?]
  obtain ⟨rfl,kind⟩ := made'
  refine .construct typed (fun e mem => ?_) kind denoted
  have components := filled e mem
  revert components
  cases e.ty <;> simp [Ty.components,Ty.kind?]

omit known in
theorem length_le_utf8ByteSize (cs : List Char) : cs.length ≤ (String.ofList cs).utf8ByteSize := by
  induction cs with
  | nil => simp
  | cons c cs ih =>
    grind [Char.utf8Size_pos,String.ofList_cons,String.utf8ByteSize_append,String.utf8ByteSize_singleton]

omit known in
theorem mem_selectors {size : Nat} {family cs : List Char} {found : List Nat}
    (selected : selectors field size family cs = .ok found) :
    found.length = cs.length ∧ ∀ c ∈ found, c < size := by
  induction cs generalizing found with
  | nil =>
    cases selected
    simp
  | cons c cs ih =>
    grind [selectors,Except.map_eq_ok]

omit known in
theorem makeSwizzle_wellTyped (made : makeSwizzle base field = .ok e) (operand : base.WellTyped Γ) :
    e.WellTyped Γ := by
  unfold makeSwizzle at made
  split at made
  · rename_i kind size vector
    split at made
    · cases made
    · rename_i family first
      split at made
      · cases made
      · rename_i short
        obtain ⟨cs,selected,rfl⟩ := Except.map_eq_ok.mp made
        obtain ⟨length,inside⟩ := mem_selectors selected
        refine .swizzle operand vector inside ?_ ?_
        · rintro rfl
          rw [length_nil,eq_comm,length_eq_zero_iff] at length
          simp [length] at first
        · have bytes := length_le_utf8ByteSize field.toList
          rw [String.ofList_toList] at bytes
          omega
  · cases made

omit known in
theorem makeIndex_wellTyped {position : Expr} (made : makeIndex base position = .ok e)
    (whole : base.WellTyped Γ) (index : position.WellTyped Γ) : e.WellTyped Γ := by
  unfold makeIndex at made
  split at made
  · rename_i integer
    split at made
    · rename_i t bound element bounded
      have known : ∀ c, position.eval? = some c → ∃ n, c.integer? = some n := by
        intro c value
        have ty := index.ty_eval? value
        rcases integer with int | int <;> rw [int] at ty <;>
          cases c <;> simp [Const.ty,Const.kind] at ty <;> exact ⟨_,rfl⟩
      split at made
      · rename_i n evaluated
        split at made
        · cases made
        · rename_i inside
          cases made
          refine .index whole index integer element bounded fun c value => ?_
          rw [value] at evaluated
          exact ⟨n,evaluated,by omega,by omega⟩
      · rename_i unknown
        cases made
        refine .index whole index integer element bounded fun c value => ?_
        obtain ⟨n,isInteger⟩ := known c value
        simp [value,isInteger] at unknown
    · cases made
  · cases made

theorem makeBuiltin_wellTyped {stage : Stage} {f : Builtin.Func} {dim : Option Dim}
    (made : makeBuiltin stage name f dim args = .ok e) (typed : ∀ e ∈ args, e.WellTyped Γ) :
    e.WellTyped Γ := by
  have shape : ∃ es t, e = .builtin f es t ∧ (es = args ∨ es = args.map Expr.toFloat) ∧
      f.result? (es.map Expr.ty) = some t := by
    unfold makeBuiltin at made
    simp only [bind,Except.bind,pure,Except.pure,throw,throwThe,MonadExceptOf.throw] at made
    grind
  obtain ⟨es,t,rfl,rfl | rfl,result⟩ := shape
  · exact .builtin typed result
  · refine .builtin ?_ result
    simpa using fun e mem => (typed e mem).toFloat known

end Rules

/-- What a call of the overload with the signature wants, and what it gives. -/
def overloadTy? (overloads : List Overload) (signature : String) :
    Option (List (Ty × Passing) × Ty) :=
  (overloads.find? fun o => o.signature == signature).map fun o => (o.params, o.returnTy)

section Sight

variable {Γ Γ' : Env} {P Q : Nat → Prop}

open Classical in
/-- What is known where only some locals are in sight. -/
noncomputable def Env.seeing (Γ : Env) (sees : Nat → Prop) : Env where
  var?
    | .local_ i => if sees i then Γ.var? (.local_ i) else none
    | v => Γ.var? v
  function? := Γ.function?

theorem Env.seeing_le_seeing (le : Γ.Le Γ') (more : ∀ i, P i → Q i) :
    (Γ.seeing P).Le (Γ'.seeing Q) := by
  refine ⟨fun {v r} found => ?_,le.function?⟩
  grind [Env.seeing,Env.Le.var?]

theorem Env.seeing_le : (Γ.seeing P).Le Γ := by
  refine ⟨fun {v r} found => ?_,id⟩
  grind [Env.seeing]

theorem Expr.WellTyped.sees (typed : e.WellTyped (Γ.seeing P)) {i : Nat}
    (mentioned : i ∈ e.locals) : P i := by
  obtain ⟨r,known⟩ := typed.local? mentioned
  simp only [Env.seeing] at known
  split at known
  · assumption
  · cases known

end Sight

def Scopes.Has (S : Scopes) (m : Meaning) : Prop :=
  ∃ scope ∈ S.inner ++ [S.outermost], ∃ name, (name, m) ∈ scope

def Scopes.Sees (S : Scopes) (i : Nat) : Prop := ∃ ty, S.Has (.variable (.local_ i) ty)

theorem Scopes.has_of_lookup? {m : Meaning} (found : S.lookup? name = some m) : S.Has m := by
  obtain ⟨scope,mem,entry⟩ := exists_of_findSome?_eq_some found
  obtain ⟨before,after,rfl,-⟩ := lookup_eq_some_iff.mp entry
  exact ⟨_,mem,name,by simp⟩

namespace State

def params (s : State) : List Param := (s.frame.map Frame.params).getD []

def locals (s : State) : List Local := (s.frame.map Frame.locals).getD []

def result (s : State) : Ty := (s.frame.map Frame.returnTy).getD .void

def inLoop (s : State) : Bool := s.frame.any fun f => 0 < f.loops

def whole (s : State) : Env := .of s.program.globals (overloadTy? s.overloads) s.params s.locals

/-- What may be mentioned there. -/
noncomputable def env (s : State) : Env := s.whole.seeing s.scopes.Sees

/-- All names in the open scopes mean what is recorded of them. -/
structure Sound (s : State) : Prop where
  scopes : ∀ {v t}, s.scopes.Has (.variable v t) → ∃ access, s.whole.var? v = some (t, access)
  /-- A global is a variable of the stage or was declared in the outermost scope. -/
  named : ∀ g ∈ s.program.globals, (∃ v line, g = .ofBuiltin v line) ∨
    (s.scopes.outermost.lookup g.name).isSome
  distinct : (s.overloads.map Overload.signature).Nodup
  globals : Global.Unambiguous s.program.globals
  overloads : ∀ o ∈ s.overloads, o.returnTy.Denoted ∧ ∀ p ∈ o.params, p.1.Denoted
  params : ∀ q ∈ s.params, q.ty.Denoted
  locals : ∀ l ∈ s.locals, l.ty.Denoted
  result : s.result.Denoted

theorem env_le_whole (s : State) : s.env.Le s.whole := Env.seeing_le

theorem Sound.denoted (sound : s.Sound) : s.env.Denoted := by
  have whole : s.whole.Denoted := by
    refine Env.denoted_of sound.globals.denoted (fun {f ps t} found => ?_) sound.params sound.locals
    obtain ⟨o,entry,same⟩ := Option.map_eq_some_iff.mp found
    cases same
    exact sound.overloads o (mem_of_find?_eq_some entry)
  exact ⟨fun found => whole.var? (s.env_le_whole.var? found),whole.function?⟩

theorem Sound.known_of_le {Γ : Env} (sound : s.Sound) (le : s.whole.Le Γ) {v : VarRef}
    (has : s.scopes.Has (.variable v t)) : ∃ access, Γ.var? v = some (t, access) := by
  obtain ⟨access,found⟩ := sound.scopes has
  exact ⟨access,le.var? found⟩

theorem Sound.known (sound : s.Sound) {v : VarRef} (has : s.scopes.Has (.variable v t)) :
    ∃ access, s.env.var? v = some (t, access) := by
  obtain ⟨access,found⟩ := sound.scopes has
  refine ⟨access,?_⟩
  cases v with
  | local_ i => exact (if_pos ⟨t,has⟩).trans found
  | global _ | param _ => exact found

/-- Variables of the stage, locals of the function and names of the newest scope may have been added, and
more may have been said; all else is as it was. -/
structure Extends (s s' : State) : Prop where
  opened : s'.scopes.inner = [] ↔ s.scopes.inner = []
  around : s'.scopes.inner.tail = s.scopes.inner.tail
  outermost : s'.scopes.outermost = s.scopes.outermost
  frame : ∃ more, s'.frame = s.frame.map fun f => { f with locals := f.locals ++ more }
  overloads : s'.overloads = s.overloads
  functions : s'.program.functions = s.program.functions
  globals : ∃ more, s'.program.globals = s.program.globals ++ more ∧
    ∀ g ∈ more, ∃ v line, g = .ofBuiltin v line
  localSize : s'.program.localSize = s.program.localSize
  log : s.log <+: s'.log

/-- Moreover, no name was added. -/
structure Restores (s s' : State) : Prop extends Extends s s' where
  scopes : s'.scopes = s.scopes

/-- Moreover, no local was added. -/
structure Grows (s s' : State) : Prop extends Restores s s' where
  same : s'.frame = s.frame

namespace Extends

variable {s s' s'' : State}

theorem refl (s : State) : s.Extends s :=
  ⟨.rfl,rfl,rfl,⟨[],by simp⟩,rfl,rfl,⟨[],by simp,by simp⟩,rfl,prefix_rfl⟩

theorem trans (first : s.Extends s') (second : s'.Extends s'') : s.Extends s'' := by
  obtain ⟨more,eq,ofStage⟩ := first.globals
  obtain ⟨more',eq',ofStage'⟩ := second.globals
  obtain ⟨locals,frame⟩ := first.frame
  obtain ⟨locals',frame'⟩ := second.frame
  refine ⟨second.opened.trans first.opened,second.around.trans first.around,
    second.outermost.trans first.outermost,⟨locals ++ locals',?_⟩,
    second.overloads.trans first.overloads,second.functions.trans first.functions,
    ⟨more ++ more',by rw [eq',eq,List.append_assoc],fun g mem => ?_⟩,
    second.localSize.trans first.localSize,first.log.trans second.log⟩
  · rw [frame',frame,Option.map_map]
    simp [Function.comp_def]
  · rcases mem_append.mp mem with old | new
    · exact ofStage g old
    · exact ofStage' g new

section

variable (more : s.Extends s')
include more

theorem told (said : s'.log <+: log) : s.Extends { s' with log } :=
  { more with log := more.log.trans said }

theorem params : s'.params = s.params := by
  obtain ⟨locals,frame⟩ := more.frame
  rw [State.params,State.params,frame,Option.map_map]
  rfl

theorem result : s'.result = s.result := by
  obtain ⟨locals,frame⟩ := more.frame
  rw [State.result,State.result,frame,Option.map_map]
  rfl

theorem inLoop : s'.inLoop = s.inLoop := by
  obtain ⟨locals,frame⟩ := more.frame
  rw [State.inLoop,State.inLoop,frame]
  cases s.frame <;> rfl

theorem locals : s.locals <+: s'.locals := by
  obtain ⟨locals,frame⟩ := more.frame
  rw [State.locals,State.locals,frame]
  cases s.frame with
  | none => simp
  | some f => exact ⟨locals,rfl⟩

theorem whole_le : s.whole.Le s'.whole := by
  obtain ⟨globals,eq,-⟩ := more.globals
  refine Env.of_le ⟨globals,eq.symm⟩ ?_ (more.params ▸ prefix_rfl) more.locals
  rw [more.overloads]
  exact id

end

end Extends

variable {s s' s'' : State}

theorem Restores.env_le (more : s.Restores s') : s.env.Le s'.env :=
  Env.seeing_le_seeing more.whole_le fun i seen => by rwa [more.scopes]

theorem Restores.told (more : s.Restores s') (said : s'.log <+: log) :
    s.Restores { s' with log } := ⟨more.toExtends.told said,more.scopes⟩

theorem Restores.trans (first : s.Restores s') (second : s'.Restores s'') : s.Restores s'' :=
  ⟨first.toExtends.trans second.toExtends,second.scopes.trans first.scopes⟩

theorem Grows.refl (s : State) : s.Grows s := ⟨⟨.refl s,rfl⟩,rfl⟩

instance : Std.Refl Grows := ⟨.refl⟩

instance : Std.Refl Restores := ⟨fun s => (Grows.refl s).toRestores⟩

instance : Std.Refl Extends := ⟨.refl⟩

instance : Trans Extends Extends Extends := ⟨.trans⟩

instance : Trans Restores Extends Extends := ⟨fun first => first.toExtends.trans⟩

instance : Trans Grows Extends Extends := ⟨fun first => first.toExtends.trans⟩

instance : Trans Restores Restores Restores := ⟨.trans⟩

instance : Trans Grows Restores Restores := ⟨fun first => first.toRestores.trans⟩

instance : Trans Grows Grows Grows :=
  ⟨fun first second => ⟨first.toRestores.trans second.toRestores, second.same.trans first.same⟩⟩

end State

/-- From a sound state the work gives what is wanted, and ends in a sound state. How the two states are
related says `E`, and `F` if a fault ends the work. -/
def Runs {α : Type} (E F : State → State → Prop) (s : State) (work : Checking α)
    (W : State → α → Prop) : Prop :=
  s.Sound → match work.run.run s with
    | (.ok a, s') => s'.Sound ∧ E s s' ∧ W s' a
    | (.error _, s') => s'.Sound ∧ F s s'

abbrev Types {α : Type} (s : State) (work : Checking α) (W : State → α → Prop) : Prop :=
  Runs Grows Grows s work W

namespace Runs

variable {α β : Type} {D E F : State → State → Prop} {s : State} {work : Checking α}
  {W : State → α → Prop} {R : State → β → Prop} {c : Prop}

theorem of_sound (h : s.Sound → Runs E F s work W) : Runs E F s work W := fun sound => h sound sound

theorem of_pure [Std.Refl E] {a : α} (h : W s a) : Runs E F s (pure a) W :=
  fun sound => ⟨sound,Std.Refl.refl s,h⟩

theorem of_fail [Std.Refl F] : Runs E F s (fail span cause) W :=
  fun sound => ⟨sound,Std.Refl.refl s⟩

theorem bind [Trans D E E] [Trans D F F] [Std.Refl F] {next : α → Checking β}
    (first : Runs D D s work W)
    (second : ∀ a s', D s s' → W s' a → Runs E F s' (next a) R) : Runs E F s (work >>= next) R := by
  intro sound
  have left := first sound
  simp only [ExceptT.run_bind,StateT.run_bind]
  cases ran : work.run.run s with
  | mk outcome t =>
    simp only [ran] at left
    cases outcome with
    | error f => exact ⟨left.1,Trans.trans left.2 (Std.Refl.refl (r := F) t)⟩
    | ok a =>
      have last := second a t left.2.1 left.2.2 left.1
      change match (next a).run.run t with
        | (.ok a, s') => s'.Sound ∧ E s s' ∧ R s' a
        | (.error _, s') => s'.Sound ∧ F s s'
      cases ran' : (next a).run.run t with
      | mk outcome' t' =>
        simp only [ran'] at last
        cases outcome' with
        | error f => exact ⟨last.1,Trans.trans left.2.1 last.2⟩
        | ok b => exact ⟨last.1,Trans.trans left.2.1 last.2.1,last.2.2⟩

theorem get_bind {next : State → Checking β} (h : Runs E F s (next s) R) :
    Runs E F s (get >>= next) R := h

theorem of_placed [Std.Refl E] [Std.Refl F] {rule : Except Cause α}
    (h : ∀ a, rule = .ok a → W s a) : Runs E F s (placed span rule) W := by
  cases rule with
  | error cause => exact of_fail
  | ok a => exact of_pure (h a rfl)

theorem of_ite [Decidable c] {yes no : Checking α} (first : c → Runs E F s yes W)
    (second : ¬c → Runs E F s no W) : Runs E F s (if c then yes else no) W := by
  split
  · exact first ‹_›
  · exact second ‹_›

theorem guard [Trans F E E] [Trans F F F] [Std.Refl F] [Decidable c] {rest : PUnit → Checking β}
    (h : ¬c → Runs E F s (rest ⟨⟩) R) :
    Runs E F s (if c then fail span cause >>= rest else rest ⟨⟩) R :=
  .of_ite (fun _ => .bind (W := fun _ _ => False) (.of_fail (F := F)) fun _ _ _ absurd => absurd.elim) h

theorem mono {E' F' : State → State → Prop} {W' : State → α → Prop} (h : Runs E F s work W)
    (ok : ∀ {s' a}, E s s' → W s' a → E' s s' ∧ W' s' a) (fault : ∀ {s'}, F s s' → F' s s') :
    Runs E' F' s work W' := by
  intro sound
  have left := h sound
  grind

end Runs

theorem Types.bind {α β : Type} {work : Checking α} {W : State → α → Prop} {R : State → β → Prop}
    {next : α → Checking β} (first : Types s work W)
    (second : ∀ a s', s.Grows s' → W s' a → Types s' (next a) R) : Types s (work >>= next) R :=
  Runs.bind first second

section Expressions

variable {s : State} (u : WrittenUnit)

theorem builtin_eq_of_name {w : Builtin.Var} (same : v.name = w.name) : v = w := by
  revert same
  cases v <;> cases w <;> simp [Builtin.Var.name]

theorem access_eq {v : VarRef} {access : Access} (known : s.env.var? v = some (t, access)) :
    (s.access v).2 = access := by
  have found := s.env_le_whole.var? known
  cases v with
  | global name =>
    obtain ⟨g,entry,same⟩ := Option.map_eq_some_iff.mp found
    grind [Program.global?,access,Global.access]
  | local_ i =>
    obtain ⟨l,entry,same⟩ := Option.map_eq_some_iff.mp found
    cases same
    have entry' : (s.frame.bind fun f => f.locals[i]?) = some l := by
      rw [State.locals] at entry
      cases frame : s.frame <;> simp_all
    simp only [access,entry',Local.access]
  | param i =>
    obtain ⟨q,entry,same⟩ := Option.map_eq_some_iff.mp found
    cases same
    have entry' : (s.frame.bind fun f => f.params[i]?) = some q := by
      rw [State.params] at entry
      cases frame : s.frame <;> simp_all
    simp only [access,entry',Param.access]

theorem writable_of_ok {operation : String} : ∀ {e : Expr}, e.WellTyped s.env →
    s.writable operation e = .ok () → e.Writable s.env
  | .var v t, typed, ok => by
    cases typed with
    | var found =>
      simp only [writable] at ok
      split at ok
      · cases ok
      · rename_i plain
        rw [access_eq found] at plain
        refine ⟨t,?_⟩
        simp only [Access.isReadOnly,bne_iff_ne,ne_eq,Decidable.not_not] at plain
        rw [found,plain]
  | .swizzle base components t, typed, ok => by
    cases typed with
    | swizzle operand =>
      simp only [writable] at ok
      split at ok
      · exact ⟨‹_›,writable_of_ok operand ok⟩
      · cases ok
  | .index base position t, typed, ok => by
    cases typed with
    | index whole =>
      simp only [writable] at ok
      exact writable_of_ok (e := base) whole ok
  | .const _, _, ok | .binary .., _, ok | .unary .., _, ok | .assign .., _, ok | .step .., _, ok
  | .select .., _, ok | .construct .., _, ok | .call .., _, ok | .builtin .., _, ok => by
    simp [writable] at ok

section

variable (typed : e.WellTyped s.env)
include typed

theorem checkWritable_types :
    Types s (checkWritable span operation e) fun s' _ => e.Writable s'.env :=
  .get_bind (.of_placed fun _ ok => writable_of_ok typed ok)

theorem coerce_types (denoted : wanted.Denoted) :
    Types s (coerce span operation wanted e) fun s' e => e.WellTyped s'.env ∧ e.ty = wanted := by
  grind [Runs.of_sound,coerce,Runs.of_pure,Expr.WellTyped.coerce?,Sound.denoted,Runs.of_fail]

theorem requireBool_types {construct : String} :
    Types s (requireBool construct span e) fun s' e => e.WellTyped s'.env ∧ e.ty = .bool :=
  .of_ite (fun bool => .of_pure ⟨typed,bool⟩) fun _ => .of_fail

end

theorem addBuiltin_types {line : Nat} (new : s.program.global? v.name = none) :
    Types s (addGlobal (.ofBuiltin v line) : Checking Unit) fun s' _ =>
      ∃ access, s'.env.var? (.global v.name) = some (v.ty, access) := by
  intro sound
  have more : s.Grows { s with program := { s.program with
      globals := s.program.globals ++ [.ofBuiltin v line] } } :=
    ⟨⟨⟨.rfl,rfl,rfl,⟨[],by simp⟩,rfl,rfl,⟨[.ofBuiltin v line],rfl,
      forall_mem_singleton.mpr ⟨v,line,rfl⟩⟩,rfl,prefix_rfl⟩,rfl⟩,rfl⟩
  have absent : s.program.globals.find? (fun g => g.name == v.name) = none := new
  refine ⟨{ sound with
    scopes := fun has => ?_, named := fun g mem => ?_
    globals := sound.globals.append absent v.denoted_ty (.inl ⟨v,line,rfl⟩) },more,?_⟩
  · exact sound.known_of_le more.whole_le has
  · grind [Sound.named]
  · refine ⟨(Global.ofBuiltin v line).access,?_⟩
    simp only [env,Env.seeing,whole,Env.of,find?_append,absent,Option.none_or]
    simp [Global.ofBuiltin]

theorem lookup?_eq_none (unknown : S.lookup? name = none) : S.outermost.lookup name = none := by
  have none := findSome?_eq_none_iff.mp unknown S.outermost (by simp)
  exact none

theorem checkName_types (name : String) (span : Span) :
    Types s (checkName u name span) fun s' e => e.WellTyped s'.env := by
  refine .of_sound fun sound => .get_bind ?_
  dsimp only
  split
  · exact .of_pure .const
  · rename_i v t found
    obtain ⟨access,known⟩ := sound.known (Scopes.has_of_lookup? found)
    exact .of_pure (.var known)
  · rename_i unknown
    split
    · exact .of_fail
    · rename_i v found
      have spelled : v.name = name := by
        have accepted := find?_some found
        simp only [Bool.and_eq_true,beq_iff_eq] at accepted
        exact accepted.1
      subst spelled
      refine .get_bind (.of_ite (fun new => ?_) fun old => ?_)
      · refine .bind (addBuiltin_types (Option.isNone_iff_eq_none.mp new)) fun _ s' _ known => ?_
        obtain ⟨access,known⟩ := known
        exact .of_pure (.var known)
      · obtain ⟨g,entry⟩ := Option.ne_none_iff_exists'.mp (mt Option.isNone_iff_eq_none.mpr old)
        have named : g.name = v.name := by simpa using find?_some entry
        rcases sound.named g (mem_of_find?_eq_some entry) with ⟨w,line,rfl⟩ | declared
        · cases builtin_eq_of_name (v := w) (w := v) named
          have known : s.env.var? (.global v.name) =
              some (v.ty, (Global.ofBuiltin v line).access) :=
            Option.map_eq_some_iff.mpr ⟨_,entry,rfl⟩
          exact .of_pure (.var known)
        · rw [named,lookup?_eq_none unknown] at declared
          cases declared

/-- Arguments that fit are given the types of their parameters. -/
theorem passArgs_types {span : Span} {name : String} {converting : Bool} :
    ∀ {s : State} {params : List (Ty × Passing)} {args : List Expr},
      fits converting params args → (∀ p ∈ params, p.1.Denoted) →
      (∀ e ∈ args, e.WellTyped s.env) →
      Types s (passArgs span name params args) fun s' es =>
        (∀ e ∈ es, e.WellTyped s'.env) ∧ Expr.Passes s'.env params es
  | s, [], [], _, _, _ => .of_pure ⟨by simp,.nil⟩
  | s, (t, q) :: params, e :: es, fit, denoted, typed => by
    simp only [fits,Bool.and_eq_true,Bool.or_eq_true,beq_iff_eq] at fit
    obtain ⟨first,others⟩ := fit
    have later : ∀ (e' : Expr) (s' : State), s.Grows s' → e'.WellTyped s'.env → e'.ty = t →
        (q ≠ .in_ → e'.Writable s'.env) →
        Types s' (do return e' :: (← passArgs span name params es)) fun s' es =>
          (∀ e ∈ es, e.WellTyped s'.env) ∧ Expr.Passes s'.env ((t, q) :: params) es := by
      intro e' s' more typed' ty writable
      refine .bind (passArgs_types others (fun p mem => denoted p (mem_cons_of_mem _ mem))
        fun x mem => (typed x (mem_cons_of_mem _ mem)).mono more.env_le)
        fun es' s'' more' rest => .of_pure ⟨?_,.cons ⟨ty,fun out => ?_⟩ rest.2⟩
      · intro x mem
        rcases mem_cons.mp mem with rfl | old
        · exact typed'.mono more'.env_le
        · exact rest.1 x old
      · exact (writable out).mono more'.env_le
    have typed₁ := typed e mem_cons_self
    refine .of_ite (fun isIn => ?_) fun notIn => ?_
    · refine .bind (coerce_types typed₁ (denoted _ mem_cons_self)) fun e' s' more h =>
        later e' s' more h.1 h.2 fun out => absurd (eq_of_beq isIn) out
    · have exact' : t = e.ty := by
        rcases first with same | ⟨⟨-,isIn⟩,-⟩
        · exact same
        · exact absurd (beq_iff_eq.mpr isIn) notIn
      refine .bind (checkWritable_types typed₁) fun _ s' more writable =>
        .bind (D := Grows) (W := fun s'' x => x = e ∧ s'' = s') (.of_pure ⟨rfl,rfl⟩) ?_
      rintro _ _ _ ⟨rfl,rfl⟩
      exact later _ _ more (typed₁.mono more.env_le) exact'.symm fun _ => writable

theorem chooseOverload_eq_ok (chosen : chooseOverload overloads name args = .ok o) :
    o ∈ overloads ∧ ∃ converting, fits converting o.params args := by
  unfold chooseOverload at chosen
  split at chosen
  · cases chosen
  · rename_i candidates _
    split at chosen
    · grind
    grind [mem_of_mem_filter]

theorem overloadTy?_of_mem (distinct : (overloads.map Overload.signature).Nodup)
    (mem : o ∈ overloads) : overloadTy? overloads o.signature = some (o.params, o.returnTy) := by
  have some : (overloads.find? fun p => p.signature == o.signature).isSome :=
    find?_isSome.mpr ⟨o,mem,by simp⟩
  grind [Option.isSome_iff_exists,inj_on_of_nodup_map,overloadTy?]

theorem checkCall_types (typed : ∀ e ∈ args, e.WellTyped s.env) :
    Types s (checkCall u name args span) fun s' e => e.WellTyped s'.env := by
  refine .of_sound fun sound => ?_
  unfold checkCall
  split
  · rename_i t found
    exact .of_placed fun e made => makeConstruct_wellTyped made (Ty.denoted_ofName? found) typed
  · split
    · exact .of_placed fun e made => makeBuiltin_wellTyped sound.denoted made typed
    · refine .get_bind (.bind (D := Grows) (W := fun s' o => s' = s ∧ o ∈ s.overloads ∧
        ∃ converting, fits converting o.params args)
        (.of_placed fun o chosen => ⟨rfl,chooseOverload_eq_ok chosen⟩) ?_)
      rintro o _ more ⟨rfl,mem,converting,fit⟩
      refine .bind (passArgs_types fit (sound.overloads o mem).2 typed)
        fun es s' more' passed => .of_pure (.call passed.1 (more'.env_le.function? ?_) passed.2)
      exact overloadTy?_of_mem sound.distinct mem

mutual

theorem checkExpr_types : ∀ (e : Surface.Expr) {s : State},
    Types s (checkExpr u e) fun s' e => e.WellTyped s'.env
  | .int _ _, s | .uint _ _, s | .float _ _, s | .bool _ _, s => by
    rw [checkExpr]
    exact .of_pure .const
  | .ident name span, s => by
    rw [checkExpr]
    exact checkName_types u name span
  | .binary op l r span, s => by
    rw [checkExpr]
    refine .bind (checkExpr_types l) fun l s₁ _ left => .bind (checkExpr_types r)
      fun r s₂ more right => .of_sound fun sound => .of_placed fun e made => ?_
    exact makeBinary_wellTyped sound.denoted made (left.mono more.env_le) right
  | .unary op e span, s => by
    rw [checkExpr]
    exact .bind (checkExpr_types e) fun e s' _ operand =>
      .of_placed fun e made => makeUnary_wellTyped made operand
  | .assign op t v span, s => by
    rw [checkExpr]
    refine .bind (checkExpr_types t) fun t s₁ _ target => .bind (checkWritable_types target)
      fun _ s₂ more₁ writable => .bind (checkExpr_types v) fun v s₃ more₂ value => ?_
    have target' := target.mono (more₁.env_le.trans more₂.env_le)
    refine .of_sound fun sound => .bind (D := Grows) (W := fun s' v => s' = s₃ ∧ v.WellTyped s₃.env ∧
      Expr.Stores op t.ty v.ty) (.of_placed fun e made =>
        ⟨rfl,assigned_wellTyped sound.denoted made target' value⟩) ?_
    rintro v _ _ ⟨rfl,value',stores⟩
    exact .of_pure (.assign target' value' (writable.mono more₂.env_le) stores)
  | .step up before e span, s => by
    rw [checkExpr]
    refine .bind (checkExpr_types e) fun e s₁ _ operand => .bind (checkWritable_types operand)
      fun _ s₂ more writable => .guard fun numeric => .of_pure ?_
    exact .step (operand.mono more.env_le) writable (by simpa using numeric)
  | .ternary c a b span, s => by
    rw [checkExpr]
    refine .bind (checkExpr_types c) fun c s₁ _ typed => .bind (requireBool_types typed)
      fun c s₂ _ cond => .bind (checkExpr_types a) fun a s₃ more₃ yes =>
        .bind (checkExpr_types b) fun b s₄ more₄ no => .of_sound fun sound =>
          .of_placed fun e made => ?_
    exact makeSelect_wellTyped sound.denoted made
      (cond.1.mono (more₃.env_le.trans more₄.env_le)) cond.2 (yes.mono more₄.env_le) no
  | .call name args span, s => by
    rw [checkExpr]
    exact .bind (checkExprs_types args) fun args s' _ typed => checkCall_types u typed
  | .field e name span, s => by
    rw [checkExpr]
    exact .bind (checkExpr_types e) fun e s' _ operand =>
      .of_placed fun e made => makeSwizzle_wellTyped made operand
  | .index e i span, s => by
    rw [checkExpr]
    refine .bind (checkExpr_types e) fun e s₁ _ whole => .bind (checkExpr_types i)
      fun i s₂ more index => .of_placed fun e made => ?_
    exact makeIndex_wellTyped made (whole.mono more.env_le) index

theorem checkExprs_types : ∀ (es : List Surface.Expr) {s : State},
    Types s (checkExprs u es) fun s' es => ∀ e ∈ es, e.WellTyped s'.env
  | [], s => by
    rw [checkExprs]
    exact .of_pure (by simp)
  | e :: es, s => by
    rw [checkExprs]
    refine .bind (checkExpr_types e) fun e s₁ _ first =>
      .bind (checkExprs_types es) fun es s₂ more others => .of_pure ?_
    simpa using ⟨first.mono more.env_le,others⟩

end

theorem checkCondition_types (construct : String) (e : Surface.Expr) :
    Types s (checkCondition u construct e) fun s' e => e.WellTyped s'.env ∧ e.ty = .bool :=
  .bind (checkExpr_types u e) fun _ _ _ typed => requireBool_types typed

theorem Expr.sizeValue?_bounds {n : Nat} (sized : e.sizeValue? = some n) : 0 < n ∧ n < 2 ^ 32 := by
  unfold Expr.sizeValue? at sized
  split at sized
  · cases known : e.eval?.bind Const.integer? with
    | none => simp [known] at sized
    | some k =>
      obtain ⟨c,-,read⟩ := Option.bind_eq_some_iff.mp known
      have small : k < 2 ^ 32 := by
        cases c with
        | int m =>
          cases read
          have := m.toInt_lt
          omega
        | uint m =>
          cases read
          have := m.toNat_lt
          omega
        | _ => cases read
      simp only [known] at sized
      split at sized
      · cases sized
        omega
      · cases sized
  · cases sized

theorem checkTy_types (t : Surface.TypeName) (sizes : List Surface.Expr) :
    Types s (checkTy u t sizes) fun _ ty => ty.Denoted ∧ ty.Fits := by
  unfold checkTy
  split
  · exact .of_fail
  · rename_i base found
    have denoted := Ty.denoted_ofName? found
    have fits := Ty.fits_ofName? found
    clear found
    generalize sizes.reverse = sizes
    induction sizes generalizing base s with
    | nil => exact .of_pure ⟨denoted,fits⟩
    | cons size sizes ih =>
      rw [foldlM_cons]
      refine .bind (W := fun _ ty => ty.Denoted ∧ ty.Fits) (.guard fun values => ?_)
        fun ty s' _ known => ih ty known.1 known.2
      refine .bind (checkExpr_types u size) fun e s' _ _ => ?_
      split
      · rename_i n sized
        obtain ⟨positive,small⟩ := Expr.sizeValue?_bounds sized
        exact .of_pure ⟨⟨denoted,fun void => values (by simp [void,Ty.isVoid]),positive⟩,fits,small⟩
      · exact .of_fail

theorem requireFreshName_types (name : String) (span : Span) :
    Types s (requireFreshName name span) fun s' _ =>
      ¬name.startsWith "gl_" ∧ s'.scopes.newest.lookup name = none := by
  unfold requireFreshName
  refine .guard fun ordinary => ?_
  refine .get_bind (.of_ite (fun _ => .of_fail) fun fresh => .of_pure ⟨ordinary,?_⟩)
  exact Option.not_isSome_iff_eq_none.mp fresh

theorem checkConstInit_types (denoted : ty.Denoted) (d : Surface.Declarator) :
    Types s (checkConstInit u ty d) fun s' e => e.WellTyped s'.env ∧ e.ty = ty := by
  unfold checkConstInit
  split
  · exact .of_fail
  · exact .bind (checkExpr_types u _) fun e s' _ typed => .bind (coerce_types typed denoted)
      fun e s'' _ coerced => .guard fun _ => .of_pure coerced

theorem checkInit_types (denoted : ty.Denoted) (init : Option Surface.Expr) :
    Types s (checkInit u ty init) fun s' e => ∀ e' ∈ e, e'.WellTyped s'.env ∧ e'.ty = ty := by
  cases init with
  | none => exact .of_pure (by simp)
  | some init =>
    exact .bind (checkExpr_types u init) fun e s' _ typed => .bind (coerce_types typed denoted)
      fun e s'' _ coerced => .of_pure (by simpa using coerced)

omit u in
theorem mapM_types {α β : Type} {work : α → Checking β} {W : State → β → Prop} (x : Option α)
    (h : ∀ a ∈ x, Types s (work a) W) : Types s (x.mapM work) fun s' y => ∀ b ∈ y, W s' b := by
  cases x with
  | none => exact .of_pure (by simp)
  | some a => exact .bind (h a rfl) fun b s' _ given => .of_pure (by simpa using given)

end Expressions

end Shading.Typed
