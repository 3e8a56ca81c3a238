import Shading.Proofs.Outcome
import Shading.Proofs.Typed.Types
import Shading.Typed.CheckExpr

/-! One judgement of well-typed trees, for all stages that read them: operators have operands that they
accept, conversions are written out, names denote variables of the recorded type, and only what may be
written is written. The rules that build typed expressions keep to it. -/
namespace Shading.Typed
open List

/-- What the variables and functions around an expression are. -/
structure Env where
  var? : VarRef → Option (Ty × Access)
  /-- The parameters and the result of an overload, by its signature. -/
  function? : String → Option (List (Ty × Passing) × Ty)

namespace Env

/-- All that the first one knows, the second one knows as well. -/
structure Le (Γ Γ' : Env) : Prop where
  var? : ∀ {v r}, Γ.var? v = some r → Γ'.var? v = some r
  function? : ∀ {f r}, Γ.function? f = some r → Γ'.function? f = some r

theorem Le.refl (Γ : Env) : Γ.Le Γ := ⟨id,id⟩

theorem Le.trans {Γ Γ' Γ'' : Env} (first : Γ.Le Γ') (second : Γ'.Le Γ'') : Γ.Le Γ'' :=
  ⟨fun h => second.var? (first.var? h),fun h => second.function? (first.function? h)⟩

/-- Every type in it can be written. -/
structure Denoted (Γ : Env) : Prop where
  var? : ∀ {v t access}, Γ.var? v = some (t, access) → t.Denoted
  function? : ∀ {f params t}, Γ.function? f = some (params, t) →
    t.Denoted ∧ ∀ p ∈ params, p.1.Denoted

end Env

namespace Expr

/-- May be written: a variable that is not read-only, or a part of one that names no component twice. -/
def Writable (Γ : Env) : Expr → Prop
  | .var v _ => ∃ t, Γ.var? v = some (t, .plain)
  | .swizzle base components _ => components.Nodup ∧ base.Writable Γ
  | .index base _ _ => base.Writable Γ
  | _ => False

/-- The arguments of a call are of the types of its parameters, and writable where the call writes. -/
def Passes (Γ : Env) (params : List (Ty × Passing)) (args : List Expr) : Prop :=
  Forall₂ (fun p e => e.ty = p.1 ∧ (p.2 ≠ .in_ → e.Writable Γ)) params args

def Stores (op : Option BinaryOp) (target value : Ty) : Prop :=
  match op with
  | none => value = target
  | some op => op.resultTy? target value = some target

/-- Every expression under the given one is of the type that it records. -/
inductive WellTyped (Γ : Env) : Expr → Prop where
  | const {c} : WellTyped Γ (.const c)
  | var {v t access} : Γ.var? v = some (t, access) → WellTyped Γ (.var v t)
  | binary {op l r t} : WellTyped Γ l → WellTyped Γ r → op.resultTy? l.ty r.ty = some t →
      WellTyped Γ (.binary op l r t)
  | unary {op e} : WellTyped Γ e → unaryAccepts op e.ty → WellTyped Γ (.unary op e)
  | assign {op t v} : WellTyped Γ t → WellTyped Γ v → t.Writable Γ → Stores op t.ty v.ty →
      WellTyped Γ (.assign op t v)
  | step {up before t} : WellTyped Γ t → t.Writable Γ → t.ty.isNumeric →
      WellTyped Γ (.step up before t)
  | select {c a b} : WellTyped Γ c → WellTyped Γ a → WellTyped Γ b → c.ty = .bool →
      a.ty = b.ty → a.ty ≠ .void → WellTyped Γ (.select c a b)
  | construct {args t} : (∀ e ∈ args, WellTyped Γ e) → (∀ e ∈ args, e.ty.kind?.isSome) →
      t.kind?.isSome → t.Denoted → WellTyped Γ (.construct args t)
  | call {f args t params} : (∀ e ∈ args, WellTyped Γ e) → Γ.function? f = some (params, t) →
      Passes Γ params args → WellTyped Γ (.call f args t)
  | builtin {f args t} : (∀ e ∈ args, WellTyped Γ e) → f.result? (args.map Expr.ty) = some t →
      WellTyped Γ (.builtin f args t)
  | swizzle {base components kind size} : WellTyped Γ base → base.ty = .vector kind size →
      (∀ c ∈ components, c < size) → components ≠ [] → components.length ≤ 4 →
      WellTyped Γ (.swizzle base components (.ofSize kind components.length))
  | index {base position t bound} : WellTyped Γ base → WellTyped Γ position →
      position.ty = .int ∨ position.ty = .uint → base.ty.element? = some t →
      base.ty.indexBound? = some bound →
      (∀ c, position.eval? = some c → ∃ n, c.integer? = some n ∧ 0 ≤ n ∧ n < bound) →
      WellTyped Γ (.index base position t)

section Monotonicity

variable {Γ Γ' : Env}

theorem Writable.mono (le : Γ.Le Γ') : ∀ {e : Expr}, e.Writable Γ → e.Writable Γ'
  | .var _ _, ⟨t,known⟩ => ⟨t,le.var? known⟩
  | .swizzle _ _ _, ⟨distinct,writable⟩ => ⟨distinct,writable.mono le⟩
  | .index base _ _, writable => Writable.mono (e := base) le writable

theorem Passes.mono (le : Γ.Le Γ') {params : List (Ty × Passing)} {args : List Expr}
    (passes : Passes Γ params args) : Passes Γ' params args :=
  Forall₂.imp (fun _ _ h => ⟨h.1,fun written => (h.2 written).mono le⟩) passes

/-- Types are kept where variables keep their types, and what may be written and passed stays so. -/
theorem WellTyped.transfer
    (vars : ∀ {v t access}, Γ.var? v = some (t, access) → ∃ access', Γ'.var? v = some (t, access'))
    (writable : ∀ {e : Expr}, e.Writable Γ → e.Writable Γ')
    (calls : ∀ {f params t args}, Γ.function? f = some (params, t) → Passes Γ params args →
      ∃ params', Γ'.function? f = some (params', t) ∧ Passes Γ' params' args)
    {e : Expr} (typed : e.WellTyped Γ) : e.WellTyped Γ' := by
  induction typed with
  | const => exact .const
  | var known => exact .var (vars known).choose_spec
  | binary _ _ result ihl ihr => exact .binary ihl ihr result
  | unary _ accepts ih => exact .unary ih accepts
  | assign _ _ target stores iht ihv => exact .assign iht ihv (writable target) stores
  | step _ target numeric ih => exact .step ih (writable target) numeric
  | select _ _ _ cond same values ihc iha ihb => exact .select ihc iha ihb cond same values
  | construct _ kinds kind denoted ih => exact .construct ih kinds kind denoted
  | call _ known passes ih =>
    obtain ⟨params',known',passes'⟩ := calls known passes
    exact .call ih known' passes'
  | builtin _ result ih => exact .builtin ih result
  | swizzle _ vector inside some few ih => exact .swizzle ih vector inside some few
  | index _ _ integer element bound inside ihb ihp =>
    exact .index ihb ihp integer element bound inside

theorem WellTyped.mono (le : Γ.Le Γ') {e : Expr} (typed : e.WellTyped Γ) : e.WellTyped Γ' :=
  typed.transfer (fun known => ⟨_,le.var? known⟩) (Writable.mono le)
    fun known passes => ⟨_,le.function? known,passes.mono le⟩

end Monotonicity

theorem WellTyped.denoted {Γ : Env} (known : Γ.Denoted) {e : Expr} (typed : e.WellTyped Γ) :
    e.ty.Denoted := by
  induction typed with
  | const => exact Ty.denoted_scalar _
  | var found => exact known.var? found
  | binary _ _ result ihl ihr => exact BinaryOp.denoted_resultTy? ihl ihr result
  | unary _ _ ih | assign _ _ _ _ ih _ | step _ _ _ ih => exact ih
  | select _ _ _ _ _ _ _ ih _ => exact ih
  | construct _ _ _ denoted _ => exact denoted
  | call _ found _ _ => exact (known.function? found).1
  | @builtin f args t _ result ih =>
    unfold Builtin.Func.result? at result
    split at result
    · cases result
      exact Builtin.Func.denoted_resultOf (by simpa using ih)
    · cases result
  | @swizzle _ components _ _ _ _ _ nonempty few _ =>
    exact Ty.denoted_ofSize (length_pos_iff.mpr nonempty) few
  | index _ _ _ element _ _ ih _ => exact ih.element? element

end Expr

/-- Every expression in the statement is well typed and of the type that its place wants. Jumps stand
inside of a loop, and a function gives back what it promises. -/
inductive Stmt.WellTyped (Γ : Env) (result : Ty) : Bool → Stmt → Prop where
  | expr {inLoop e} : e.WellTyped Γ → WellTyped Γ result inLoop (.expr e)
  | declare {inLoop i init t access} : Γ.var? (.local_ i) = some (t, access) →
      (∀ e ∈ init, e.WellTyped Γ ∧ e.ty = t) → WellTyped Γ result inLoop (.declare i init)
  | if_ {inLoop c yes no} : c.WellTyped Γ → c.ty = .bool →
      (∀ s ∈ yes, WellTyped Γ result inLoop s) → (∀ s ∈ no, WellTyped Γ result inLoop s) →
      WellTyped Γ result inLoop (.if_ c yes no)
  | loop {inLoop head cond step body} : (∀ e ∈ cond, e.WellTyped Γ ∧ e.ty = .bool) →
      (∀ e ∈ step, e.WellTyped Γ) → head = true ∨ cond.isSome →
      (∀ s ∈ body, WellTyped Γ result true s) → WellTyped Γ result inLoop (.loop head cond step body)
  | break_ : WellTyped Γ result true .break_
  | continue_ : WellTyped Γ result true .continue_
  | leave {inLoop} : result = .void → WellTyped Γ result inLoop (.return_ none)
  | return_ {inLoop e} : result ≠ .void → e.WellTyped Γ → e.ty = result →
      WellTyped Γ result inLoop (.return_ (some e))
  | discard {inLoop} : WellTyped Γ result inLoop .discard
  | block {inLoop body} : (∀ s ∈ body, WellTyped Γ result inLoop s) →
      WellTyped Γ result inLoop (.block body)

theorem Stmt.WellTyped.mono {Γ Γ' : Env} (le : Γ.Le Γ') {result : Ty} {inLoop inLoop' : Bool} {s : Stmt}
    (typed : s.WellTyped Γ result inLoop) (loops : inLoop = true → inLoop' = true) :
    s.WellTyped Γ' result inLoop' := by
  induction typed generalizing inLoop' with
  | expr e => exact .expr (e.mono le)
  | declare known init =>
    exact .declare (le.var? known) fun e given => ⟨(init e given).1.mono le,(init e given).2⟩
  | if_ c bool _ _ yes no =>
    exact .if_ (c.mono le) bool (fun s mem => yes s mem loops) fun s mem => no s mem loops
  | loop cond step tested _ body =>
    exact .loop (fun e given => ⟨(cond e given).1.mono le,(cond e given).2⟩)
      (fun e given => (step e given).mono le) tested fun s mem => body s mem id
  | break_ =>
    rw [loops rfl]
    exact .break_
  | continue_ =>
    rw [loops rfl]
    exact .continue_
  | leave void => exact .leave void
  | return_ values e ty => exact .return_ values (e.mono le) ty
  | discard => exact .discard
  | block _ body => exact .block fun s mem => body s mem loops

/-- Each name denotes one variable, of a type that can be written. The names of the stage are kept for its
own variables. -/
structure Global.Unambiguous (gs : List Global) : Prop where
  denoted : ∀ g ∈ gs, g.ty.Denoted
  distinct : (gs.map Global.name).Nodup
  ordinary : ∀ g ∈ gs, (∃ v line, g = .ofBuiltin v line) ∨
    g.builtin = none ∧ ¬g.name.startsWith "gl_"

theorem Global.Unambiguous.append {gs : List Global} (old : Unambiguous gs) {g : Global}
    (absent : gs.find? (fun h => h.name == g.name) = none) (denoted : g.ty.Denoted)
    (ordinary : (∃ v line, g = .ofBuiltin v line) ∨ g.builtin = none ∧ ¬g.name.startsWith "gl_") :
    Unambiguous (gs ++ [g]) := by
  refine ⟨fun h mem => ?_,?_,fun h mem => ?_⟩
  · grind [Global.Unambiguous.denoted]
  · rw [map_append,nodup_append]
    refine ⟨old.distinct,by simp,?_⟩
    simpa using List.find?_eq_none.mp absent
  grind [Global.Unambiguous.ordinary]

def Global.access (g : Global) : Access :=
  match g.storage with
  | .uniform => .uniform
  | .input => .input
  | .output | .priv => if g.readOnly then .const else .plain

def Local.access (l : Local) : Access := if l.readOnly then .const else .plain

def Param.access (q : Param) : Access := if q.readOnly then .const else .plain

def Env.of (globals : List Global) (functions : String → Option (List (Ty × Passing) × Ty))
    (params : List Param) (locals : List Local) : Env where
  var?
    | .global name => (globals.find? fun g => g.name == name).map fun g => (g.ty, g.access)
    | .local_ i => locals[i]?.map fun l => (l.ty, l.access)
    | .param i => params[i]?.map fun q => (q.ty, q.access)
  function? := functions

section Environments

variable {globals globals' : List Global} {params params' : List Param}
  {locals locals' : List Local} {functions functions' : String → Option (List (Ty × Passing) × Ty)}

theorem Env.of_le (more : globals <+: globals')
    (known : ∀ {f r}, functions f = some r → functions' f = some r)
    (moreParams : params <+: params') (moreLocals : locals <+: locals') :
    (Env.of globals functions params locals).Le (Env.of globals' functions' params' locals') := by
  obtain ⟨globals'',rfl⟩ := more
  obtain ⟨params'',rfl⟩ := moreParams
  obtain ⟨locals'',rfl⟩ := moreLocals
  refine ⟨fun {v r} found => ?_,known⟩
  cases v with
  | global name =>
    grind [Env.of]
  | local_ i =>
    grind [Env.of]
  | param i =>
    grind [Env.of]

theorem Env.Le.of_functions (known : ∀ {f r}, functions f = some r → functions' f = some r) :
    (Env.of globals functions params locals).Le (.of globals functions' params locals) :=
  Env.of_le prefix_rfl known prefix_rfl prefix_rfl

theorem Env.denoted_of (types : ∀ g ∈ globals, g.ty.Denoted)
    (signatures : ∀ {f ps t}, functions f = some (ps, t) → t.Denoted ∧ ∀ p ∈ ps, p.1.Denoted)
    (given : ∀ q ∈ params, q.ty.Denoted) (own : ∀ l ∈ locals, l.ty.Denoted) :
    (Env.of globals functions params locals).Denoted := by
  refine ⟨fun {v t access} found => ?_,signatures⟩
  cases v with
  | global name =>
    obtain ⟨g,entry,same⟩ := Option.map_eq_some_iff.mp found
    cases same
    exact types g (mem_of_find?_eq_some entry)
  | local_ i =>
    obtain ⟨l,entry,same⟩ := Option.map_eq_some_iff.mp found
    cases same
    exact own l (mem_of_getElem? entry)
  | param i =>
    obtain ⟨q,entry,same⟩ := Option.map_eq_some_iff.mp found
    cases same
    exact given q (mem_of_getElem? entry)

end Environments

def Function.ty (f : Function) : List (Ty × Passing) × Ty :=
  (f.params.map fun q => (q.ty, q.passing), f.returnTy)

/-- The signature is made of the name and the types of the parameters, and every type can be written. -/
structure Function.Proper (f : Function) : Prop where
  signature : f.signature = Typed.signature f.name (f.params.map Param.ty)
  returnTy : f.returnTy.Denoted
  params : ∀ q ∈ f.params, q.ty.Denoted
  locals : ∀ l ∈ f.locals, l.ty.Denoted

namespace Program

def functionTy? (p : Program) (signature : String) : Option (List (Ty × Passing) × Ty) :=
  (p.function? signature).map Function.ty

def env (p : Program) (f : Function) : Env := .of p.globals p.functionTy? f.params f.locals

/-- The program is well typed: bodies keep to what their functions declare, and an initial value is of
the type of its global and sees the globals before it. -/
structure WellTyped (p : Program) : Prop where
  bodies : ∀ f ∈ p.functions, ∀ body ∈ f.body, ∀ s ∈ body, s.WellTyped (p.env f) f.returnTy false
  inits : ∀ {i : Nat} {g : Global}, p.globals[i]? = some g → ∀ e ∈ g.init,
    e.WellTyped (.of (p.globals.take i) p.functionTy? [] []) ∧ e.ty = g.ty
  globals : Global.Unambiguous p.globals
  functions : ∀ f ∈ p.functions, f.Proper
  signatures : (p.functions.map Function.signature).Nodup

end Program

end Shading.Typed
