import Shading.Proofs.Typed.Scoping
import Shading.Proofs.Typed.Typing

/-! The expressions of a tree, each with its own parts, and what they write. In a well-typed tree all parts
are well typed, and only what may be written is written. -/
namespace Shading.Typed
open List

variable {x e : Expr} {Γ : Env}

namespace Expr

mutual

/-- The expression and all that it is made of. -/
def parts : Expr → List Expr
  | .const c => [.const c]
  | .var v t => [.var v t]
  | .binary op l r t => .binary op l r t :: (l.parts ++ r.parts)
  | .unary op e => .unary op e :: e.parts
  | .assign op t v => .assign op t v :: (t.parts ++ v.parts)
  | .step up before t => .step up before t :: t.parts
  | .select c a b => .select c a b :: (c.parts ++ a.parts ++ b.parts)
  | .construct args t => .construct args t :: partsIn args
  | .call f args t => .call f args t :: partsIn args
  | .builtin f args t => .builtin f args t :: partsIn args
  | .swizzle e components t => .swizzle e components t :: e.parts
  | .index e i t => .index e i t :: (e.parts ++ i.parts)

def partsIn : List Expr → List Expr
  | [] => []
  | e :: es => e.parts ++ partsIn es

end

theorem mem_partsIn {es : List Expr} : x ∈ partsIn es ↔ ∃ e ∈ es, x ∈ e.parts := by
  induction es with
  | nil => simp [partsIn]
  | cons e es ih => simp [partsIn,ih]

theorem mem_parts (e : Expr) : e ∈ e.parts := by
  cases e <;> simp [parts]

theorem WellTyped.parts (typed : e.WellTyped Γ) : ∀ x ∈ e.parts, x.WellTyped Γ := by
  have args {es : List Expr} (ih : ∀ e ∈ es, ∀ x ∈ e.parts, x.WellTyped Γ) :
      ∀ x ∈ partsIn es, x.WellTyped Γ := by
    intro x mem
    obtain ⟨e,inside,part⟩ := mem_partsIn.mp mem
    exact ih e inside x part
  induction typed with
  | const | var =>
    rw [Expr.parts,forall_mem_singleton]
    constructor <;> assumption
  | binary l r result ihl ihr =>
    rw [Expr.parts,forall_mem_cons,forall_mem_append]
    exact ⟨.binary l r result,ihl,ihr⟩
  | unary e accepts ih =>
    rw [Expr.parts,forall_mem_cons]
    exact ⟨.unary e accepts,ih⟩
  | assign t v writable stores iht ihv =>
    rw [Expr.parts,forall_mem_cons,forall_mem_append]
    exact ⟨.assign t v writable stores,iht,ihv⟩
  | step t writable numeric ih =>
    rw [Expr.parts,forall_mem_cons]
    exact ⟨.step t writable numeric,ih⟩
  | select c a b cond same values ihc iha ihb =>
    rw [Expr.parts,forall_mem_cons,forall_mem_append,forall_mem_append]
    exact ⟨.select c a b cond same values,⟨ihc,iha⟩,ihb⟩
  | construct es kinds kind denoted ih =>
    rw [Expr.parts,forall_mem_cons]
    exact ⟨.construct es kinds kind denoted,args ih⟩
  | call es known passes ih =>
    rw [Expr.parts,forall_mem_cons]
    exact ⟨.call es known passes,args ih⟩
  | builtin es result ih =>
    rw [Expr.parts,forall_mem_cons]
    exact ⟨.builtin es result,args ih⟩
  | swizzle e vector inside some few ih =>
    rw [Expr.parts,forall_mem_cons]
    exact ⟨.swizzle e vector inside some few,ih⟩
  | index e i integer element bound inside ihe ihi =>
    rw [Expr.parts,forall_mem_cons,forall_mem_append]
    exact ⟨.index e i integer element bound inside,ihe,ihi⟩

mutual

theorem mem_calls {f : String} : ∀ {e : Expr}, f ∈ e.calls ↔ ∃ args t, .call f args t ∈ e.parts
  | .const _ | .var _ _ => by simp [calls,parts]
  | .binary _ l r _ | .assign _ l r | .index l r _ => by
    simp [calls,parts,mem_calls (e := l),mem_calls (e := r),exists_or]
  | .unary _ e | .step _ _ e | .swizzle e _ _ => by simp [calls,parts,mem_calls (e := e)]
  | .select c a b => by
    simp [calls,parts,mem_calls (e := c),mem_calls (e := a),mem_calls (e := b),exists_or]
  | .construct es _ | .builtin _ es _ => by simp [calls,parts,mem_callsIn (l := es)]
  | .call g es _ => by simp [calls,parts,mem_callsIn (l := es),exists_or]

theorem mem_callsIn {f : String} : ∀ {l : List Expr}, f ∈ callsIn l ↔ ∃ args t, .call f args t ∈ partsIn l
  | [] => by simp [callsIn,partsIn]
  | e :: es => by simp [callsIn,partsIn,mem_calls (e := e),mem_callsIn (l := es),exists_or]

end

mutual

theorem mem_locals {i : Nat} : ∀ {e : Expr}, i ∈ e.locals ↔ ∃ t, .var (.local_ i) t ∈ e.parts
  | .const _ | .var (.global _) _ | .var (.param _) _ | .var (.local_ _) _ => by simp [locals,parts]
  | .binary _ l r _ | .assign _ l r | .index l r _ => by
    simp [locals,parts,mem_locals (e := l),mem_locals (e := r),exists_or]
  | .unary _ e | .step _ _ e | .swizzle e _ _ => by simp [locals,parts,mem_locals (e := e)]
  | .select c a b => by
    simp [locals,parts,mem_locals (e := c),mem_locals (e := a),mem_locals (e := b),exists_or]
  | .construct es _ | .builtin _ es _ | .call _ es _ => by simp [locals,parts,mem_localsIn_partsIn (l := es)]

theorem mem_localsIn_partsIn {i : Nat} : ∀ {l : List Expr},
    i ∈ localsIn l ↔ ∃ t, .var (.local_ i) t ∈ partsIn l
  | [] => by simp [localsIn,partsIn]
  | e :: es => by simp [localsIn,partsIn,mem_locals (e := e),mem_localsIn_partsIn (l := es),exists_or]

end

theorem WellTyped.local? (typed : e.WellTyped Γ) {i : Nat} (mentioned : i ∈ e.locals) :
    ∃ r, Γ.var? (.local_ i) = some r := by
  obtain ⟨t,part⟩ := mem_locals.mp mentioned
  cases typed.parts _ part with
  | var known => exact ⟨_,known⟩

/-- What the expression itself writes, its parts left aside. -/
def written (function? : String → Option (List (Ty × Passing) × Ty)) : Expr → List Expr
  | .assign _ t _ | .step _ _ t => [t]
  | .call f args _ =>
    ((function? f).map fun r => (r.1.zip args).filterMap fun (q, e) =>
      if q.2 = .in_ then none else some e).getD []
  | _ => []

theorem WellTyped.written (typed : e.WellTyped Γ) : ∀ t ∈ e.written Γ.function?, t.Writable Γ := by
  cases typed with
  | assign _ _ writable _ => simpa [Expr.written] using writable
  | step _ writable _ => simpa [Expr.written] using writable
  | @call f args t params _ known passes =>
    simp only [Expr.written,known,Option.map_some,Option.getD_some]
    intro x mem
    obtain ⟨⟨q,e⟩,inside,given⟩ := mem_filterMap.mp mem
    split at given
    · cases given
    · rename_i out
      cases given
      exact (forall₂_zip passes inside).2 out
  | _ => simp [Expr.written]

end Expr

namespace Stmt

def optionParts (e : Option Expr) : List Expr := (e.map Expr.parts).getD []

mutual

/-- All expressions of a statement, with their parts. -/
def parts : Stmt → List Expr
  | .expr e => e.parts
  | .declare _ init => optionParts init
  | .if_ c yes no => c.parts ++ partsIn yes ++ partsIn no
  | .loop _ cond step body => optionParts cond ++ optionParts step ++ partsIn body
  | .return_ v => optionParts v
  | .block body => partsIn body
  | .break_ | .continue_ | .discard => []

def partsIn : List Stmt → List Expr
  | [] => []
  | s :: ss => s.parts ++ partsIn ss

end

theorem mem_partsIn {ss : List Stmt} : x ∈ partsIn ss ↔ ∃ s ∈ ss, x ∈ s.parts := by
  induction ss with
  | nil => simp [partsIn]
  | cons s ss ih => simp [partsIn,ih]

theorem mem_optionParts {e : Option Expr} : x ∈ optionParts e ↔ ∃ y ∈ e, x ∈ y.parts := by
  cases e <;> simp [optionParts]

theorem WellTyped.parts {Γ : Env} {result : Ty} {inLoop : Bool} {s : Stmt}
    (typed : s.WellTyped Γ result inLoop) : ∀ x ∈ s.parts, x.WellTyped Γ := by
  have many {ss : List Stmt} (ih : ∀ s ∈ ss, ∀ x ∈ s.parts, x.WellTyped Γ) :
      ∀ x ∈ partsIn ss, x.WellTyped Γ := by
    intro x mem
    obtain ⟨s,inside,part⟩ := mem_partsIn.mp mem
    exact ih s inside x part
  have maybe {e : Option Expr} (given : ∀ y ∈ e, y.WellTyped Γ) :
      ∀ x ∈ optionParts e, x.WellTyped Γ := by
    intro x mem
    obtain ⟨y,present,part⟩ := mem_optionParts.mp mem
    exact (given y present).parts x part
  induction typed with
  | expr e => exact e.parts
  | declare _ init => exact maybe fun y present => (init y present).1
  | if_ c _ _ _ yes no =>
    simp only [Stmt.parts,forall_mem_append]
    exact ⟨⟨c.parts,many yes⟩,many no⟩
  | loop cond step _ _ body =>
    grind [parts]
  | break_ | continue_ | discard => simp [Stmt.parts]
  | leave _ => simp [Stmt.parts,optionParts]
  | return_ _ e _ => exact maybe fun y present => by cases present; exact e
  | block _ body => exact many body

theorem mem_optionCalls {f : String} {e : Option Expr} :
    f ∈ optionCalls e ↔ ∃ args t, .call f args t ∈ optionParts e := by
  cases e <;> simp [optionCalls,optionParts,Expr.mem_calls]

mutual

theorem mem_calls {f : String} : ∀ {s : Stmt}, f ∈ s.calls ↔ ∃ args t, .call f args t ∈ s.parts
  | .expr _ => Expr.mem_calls
  | .declare _ _ | .return_ _ => mem_optionCalls
  | .if_ c yes no => by
    simp [calls,parts,Expr.mem_calls,mem_callsIn (l := yes),mem_callsIn (l := no),exists_or]
  | .loop _ cond step body => by
    simp [calls,parts,mem_optionCalls,mem_callsIn (l := body),exists_or]
  | .block body => mem_callsIn (l := body)
  | .break_ | .continue_ | .discard => by simp [calls,parts]

theorem mem_callsIn {f : String} : ∀ {l : List Stmt}, f ∈ callsIn l ↔ ∃ args t, .call f args t ∈ partsIn l
  | [] => by simp [callsIn,partsIn]
  | s :: ss => by simp [callsIn,partsIn,mem_calls (s := s),mem_callsIn (l := ss),exists_or]

end

end Stmt

def Function.parts (f : Function) : List Expr := Stmt.partsIn (f.body.getD [])

def Program.initParts (p : Program) : List Expr := p.globals.flatMap fun g => Stmt.optionParts g.init

def Program.parts (p : Program) : List Expr := p.functions.flatMap Function.parts ++ p.initParts

def Program.initCalls (p : Program) : List String := p.globals.flatMap fun g => Stmt.optionCalls g.init

theorem Function.mem_callees {f : Function} {g : String} : g ∈ f.callees ↔ ∃ args t, .call g args t ∈ f.parts :=
  mem_eraseDups.trans Stmt.mem_callsIn

namespace Program

variable {p : Program}

def initEnv (p : Program) : Env := .of p.globals p.functionTy? [] []

theorem WellTyped.part (typed : p.WellTyped) {f : Function} (mem : f ∈ p.functions) {x : Expr}
    (part : x ∈ f.parts) : x.WellTyped (p.env f) := by
  obtain ⟨s,inside,part⟩ := Stmt.mem_partsIn.mp part
  cases hasBody : f.body with
  | none => simp [hasBody] at inside
  | some body =>
    rw [hasBody] at inside
    exact (typed.bodies f mem body hasBody s inside).parts x part

theorem WellTyped.initPart (typed : p.WellTyped) (part : x ∈ p.initParts) :
    x.WellTyped p.initEnv := by
  obtain ⟨g,mem,part⟩ := mem_flatMap.mp part
  obtain ⟨e,init,part⟩ := Stmt.mem_optionParts.mp part
  obtain ⟨i,found⟩ := mem_iff_getElem?.mp mem
  refine ((typed.inits found e init).1.mono ?_).parts x part
  exact Env.of_le (List.take_prefix i p.globals) id prefix_rfl prefix_rfl

end Program

namespace Env

/-- What is left of it if every variable may be written and every argument is passed by value. -/
def relaxed (Γ : Env) : Env where
  var? v := (Γ.var? v).map fun r => (r.1, .plain)
  function? f := (Γ.function? f).map fun r => (r.1.map fun q => (q.1, .in_), r.2)

end Env

namespace Expr

theorem Writable.relaxed : ∀ {e : Expr}, e.Writable Γ → e.Writable Γ.relaxed
  | .var _ _, ⟨t,known⟩ => ⟨t,by simp [Env.relaxed,known]⟩
  | .swizzle _ _ _, ⟨distinct,writable⟩ => ⟨distinct,writable.relaxed⟩
  | .index base _ _, writable => Writable.relaxed (e := base) writable

theorem WellTyped.relaxed (typed : e.WellTyped Γ) : e.WellTyped Γ.relaxed := by
  refine typed.transfer (fun known => ⟨.plain,Option.map_eq_some_iff.mpr ⟨_,known,rfl⟩⟩) Writable.relaxed
    fun {f params t args} known passes => ⟨params.map fun q => (q.1, .in_),by simp [Env.relaxed,known],?_⟩
  rw [Passes,forall₂_map_left_iff]
  exact passes.imp fun q e fits => ⟨fits.1,fun out => absurd rfl out⟩

theorem Writable.root {Γ : Env} : ∀ {e : Expr} {v : VarRef}, e.Writable Γ → e.root? = some v →
    ∃ t, Γ.var? v = some (t, .plain)
  | .var _ _, _, writable, root => by
    cases root
    exact writable
  | .swizzle _ _ _, _, writable, root => writable.2.root root
  | .index base _ _, _, writable, root => Writable.root (e := base) writable root

end Expr

end Shading.Typed
