import Shading.Proofs.Linked.CallOrder
import Shading.Proofs.Typed.Parts

/-! Calls are sound exactly if all that is called has a body and no function calls itself through others. The
fault of a program that is not names a call that shows it. -/
namespace Shading.Linked
open List Typed Relation

variable {p : Program} {done : List String} {fs : List Function}

variable {f : Function} {c : String} {finished : List String} {e : Fault}

theorem isSome_body_of_mem_callees (called : c ∈ f.callees) : f.body.isSome = true := by
  by_contra none
  rw [Function.callees,Option.not_isSome_iff_eq_none.mp none] at called
  cases called

/-- What is wrong with the calls: a function calls one through which it is called, or one without a body. -/
def BadCall (p : Program) (e : Fault) : Prop :=
  (∃ s c, e = ⟨p.file, 0, .recursion s c⟩ ∧ Calls p s c ∧ ReflTransGen (Calls p) c s) ∨
    ∃ s f c, body? p s = some f ∧ c ∈ f.callees ∧ e = ⟨p.file, f.line, .noBody c⟩ ∧ body? p c = none

theorem follow_fault {path calls : List String} {s : String}
    (failed : follow p path calls finished = .error e) (top : path.headD "" = s)
    (called : ∀ c ∈ calls, Calls p s c) (leads : ∀ t ∈ path, ReflTransGen (Calls p) t s) :
    BadCall p e := by
  have noBody {s c : String} (call : Calls p s c) (none : body? p c = none) :
      BadCall p ⟨p.file,((p.function? s).map Function.line).getD 0,.noBody c⟩ := by
    obtain ⟨f,found,inside⟩ := call
    refine .inr ⟨s,f,c,found,inside,?_,none⟩
    rw [(body?_eq_some.mp found).1]
    rfl
  fun_induction follow p path calls finished generalizing s with
  | case1 => cases failed
  | case2 path callee rest finished caller =>
    rename_i again
    cases failed
    subst top
    exact .inl ⟨_,callee,rfl,called callee mem_cons_self,leads callee again⟩
  | case3 path callee rest finished fresh old ih =>
    exact ih failed top (fun c inside => called c (.tail _ inside)) leads
  | case4 path callee rest finished caller =>
    rename_i unknown
    cases failed
    subst top
    exact noBody (called callee mem_cons_self) (by rw [body?,unknown]; rfl)
  | case5 path callee rest finished caller =>
    cases failed
    subst top
    exact noBody (called callee mem_cons_self) (by simp_all [body?,Option.filter])
  | case6 path callee rest finished fresh new f declared hasBody e inner ih =>
    have found : body? p callee = some f :=
      body?_eq_some.mpr ⟨declared,by simpa [Option.isSome_iff_ne_none] using hasBody⟩
    cases failed
    refine ih inner rfl (fun c inside => ⟨f,found,inside⟩) fun t above => ?_
    rcases mem_cons.mp above with rfl | above
    · exact .refl
    · exact (leads t above).tail (called callee mem_cons_self)
  | case7 path callee rest finished fresh new f declared hasBody finished' inner ih₁ ih₂ =>
    exact ih₂ failed top (fun c inside => called c (.tail _ inside)) leads

theorem followAll_fault (failed : followAll p fs finished = .error e)
    (known : ∀ f ∈ fs, body? p f.signature = some f) : BadCall p e := by
  induction fs generalizing finished with
  | nil => cases failed
  | cons f fs ih =>
    rw [forall_mem_cons] at known
    unfold followAll at failed
    split at failed
    · exact ih failed known.2
    · split at failed
      · rename_i inner
        cases failed
        refine follow_fault inner rfl (fun c inside => ⟨f,known.1,inside⟩) fun t here => ?_
        cases mem_singleton.mp here
        exact .refl
      · exact ih failed known.2

theorem checkCalls_fault (distinct : (p.functions.map Function.signature).Nodup)
    (failed : checkCalls p = .error e) : BadCall p e := by
  unfold checkCalls at failed
  split at failed
  · cases failed
  · rename_i inner
    cases failed
    exact followAll_fault inner fun f root => body?_of_mem distinct (mem_roots root).1 (mem_roots root).2

/-- Signatures from which calls lead only to one another, and never back to where they came from. -/
structure Settled (p : Program) (done : List String) : Prop where
  closed : ∀ s ∈ done, ∀ c, Calls p s c → c ∈ done
  acyclic : ∀ s ∈ done, ¬TransGen (Calls p) s s

theorem Settled.cons (settled : Settled p done) {f : Function}
    (found : body? p f.signature = some f) (callees : f.callees ⊆ done) :
    Settled p (f.signature :: done) := by
  have called {c : String} (call : Calls p f.signature c) : c ∈ done := by
    obtain ⟨g,found',inside⟩ := call
    cases found.symm.trans found'
    exact callees inside
  refine ⟨forall_mem_cons.mpr ⟨fun c call => .tail _ (called call),fun s old c call =>
    .tail _ (settled.closed s old c call)⟩,forall_mem_cons.mpr ⟨fun cycle => ?_,settled.acyclic⟩⟩
  have inside : ∀ t, TransGen (Calls p) f.signature t → t ∈ done := by
    intro t reached
    induction reached with
    | single call => exact called call
    | tail _ call ih => exact settled.closed _ ih _ call
  exact settled.acyclic _ (inside _ cycle) cycle

theorem CalleesBefore.settled (before : CalleesBefore done fs) (settled : Settled p done)
    (known : ∀ f ∈ fs, body? p f.signature = some f) :
    Settled p ((fs.map Function.signature).reverse ++ done) := by
  induction fs generalizing done with
  | nil => exact settled
  | cons f fs ih =>
    rw [forall_mem_cons] at known
    simpa using ih before.2 (settled.cons known.1 before.1) known.2

section

variable (distinct : (p.functions.map Function.signature).Nodup)
include distinct

theorem checkCalls_eq_ok : checkCalls p = .ok () ↔
      (∀ s c, Calls p s c → (body? p c).isSome = true) ∧ ∀ s, ¬TransGen (Calls p) s s := by
  constructor
  · intro checked
    have known : ∀ f ∈ calleesFirst p, body? p f.signature = some f := fun f listed =>
      body?_of_mem distinct (mem_calleesFirst f listed).1 (mem_calleesFirst f listed).2
    have settled : Settled p ((calleesFirst p).map Function.signature) := by
      have all := (calleesFirst_calleesBefore checked).settled (p := p) ⟨by simp,by simp⟩ known
      exact ⟨by simpa using all.closed,by simpa using all.acyclic⟩
    have listed {s c : String} (call : Calls p s c) : s ∈ (calleesFirst p).map Function.signature := by
      obtain ⟨f,found,-⟩ := call
      exact signature_of_body? found ▸ mem_signatures_calleesFirst (mem_body? found).1 (mem_body? found).2
    refine ⟨fun s c call => ?_,fun s cycle => ?_⟩
    · obtain ⟨g,inside,rfl⟩ := mem_map.mp (settled.closed s (listed call) c call)
      rw [known g inside]
      rfl
    · obtain ⟨c,call,-⟩ := TransGen.head'_iff.mp cycle
      exact settled.acyclic s (listed call) cycle
  · rintro ⟨complete,acyclic⟩
    cases checked : checkCalls p with
    | ok => rfl
    | error e =>
      rcases checkCalls_fault distinct checked with ⟨s,c,-,call,back⟩ | ⟨s,f,c,found,inside,-,none⟩
      · exact absurd (TransGen.head' call back) (acyclic s)
      · have some_ := complete s c ⟨f,found,inside⟩
        rw [none] at some_
        cases some_

theorem body?_of_mem_callees (checked : checkCalls p = .ok ()) (mem : f ∈ p.functions)
    (called : c ∈ f.callees) : ∃ g, body? p c = some g := by
  have hasBody := isSome_body_of_mem_callees called
  exact Option.isSome_iff_exists.mp (((checkCalls_eq_ok distinct).mp checked).1 f.signature c
    ⟨f,body?_of_mem distinct mem hasBody,called⟩)

/-- In the body of a function there is a call of the overload. -/
def CallsInBody (p : Program) (s c : String) : Prop :=
  ∃ f ∈ p.functions, f.signature = s ∧ ∃ args t, Expr.call c args t ∈ f.parts

theorem calls_eq : Calls p = CallsInBody p := by
  funext s c
  refine propext ⟨fun ⟨f,found,inside⟩ => ?_,fun ⟨f,mem,named,call⟩ => ?_⟩
  · exact ⟨f,(mem_body? found).1,signature_of_body? found,Function.mem_callees.mp inside⟩
  · have inside := Function.mem_callees.mpr call
    exact ⟨f,named ▸ body?_of_mem distinct mem (isSome_body_of_mem_callees inside),inside⟩

theorem isSome_body?_iff :
    (body? p c).isSome = true ↔ ∃ g ∈ p.functions, g.signature = c ∧ g.body.isSome = true := by
  rw [Option.isSome_iff_exists]
  constructor
  · rintro ⟨g,found⟩
    exact ⟨g,(mem_body? found).1,signature_of_body? found,(mem_body? found).2⟩
  · rintro ⟨g,mem,rfl,hasBody⟩
    exact ⟨g,body?_of_mem distinct mem hasBody⟩

end

/-- Calls are sound exactly if every function that is called has a body and no function calls itself through
others. Otherwise the fault names a caller and a callee on a cycle, or a callee that has no body. -/
theorem checkCalls_outcome (distinct : (p.functions.map Function.signature).Nodup) :
    (checkCalls p = .ok () ↔
      (∀ s c, CallsInBody p s c → ∃ g ∈ p.functions, g.signature = c ∧ g.body.isSome = true) ∧
        ∀ s, ¬TransGen (CallsInBody p) s s) ∧
    ∀ e, checkCalls p = .error e →
      (∃ s c, e = ⟨p.file, 0, .recursion s c⟩ ∧ CallsInBody p s c ∧ ReflTransGen (CallsInBody p) c s) ∨
      ∃ f ∈ p.functions, ∃ c args t, e = ⟨p.file, f.line, .noBody c⟩ ∧ Expr.call c args t ∈ f.parts ∧
        ¬∃ g ∈ p.functions, g.signature = c ∧ g.body.isSome = true := by
  have same := calls_eq distinct
  refine ⟨?_,fun e failed => ?_⟩
  · simp only [checkCalls_eq_ok distinct,same,isSome_body?_iff distinct]
  · rcases checkCalls_fault distinct failed with cycle | ⟨s,f,c,found,inside,eq,none⟩
    · rw [same] at cycle
      exact .inl cycle
    · obtain ⟨args,t,call⟩ := Function.mem_callees.mp inside
      refine .inr ⟨f,(mem_body? found).1,c,args,t,eq,call,?_⟩
      rw [← isSome_body?_iff distinct,none]
      simp

/-- Two functions call each other, and a function that is called is absent. -/
def knotted : Program where
  stage := .fragment
  file := "a"
  functions := [calling "main" ["odd()"], calling "odd" ["even()"], calling "even" ["odd()", "absent()"]]

/-- The cycle is found, and it is one. -/
theorem knotted_outcome : (knotted.functions.map Function.signature).Nodup ∧
    checkCalls knotted = .error ⟨"a", 0, .recursion "even()" "odd()"⟩ ∧
    ∃ s c, CallsInBody knotted s c ∧ ReflTransGen (CallsInBody knotted) c s := by
  have distinct : (knotted.functions.map Function.signature).Nodup := by decide
  have failed : checkCalls knotted = .error ⟨"a",0,.recursion "even()" "odd()"⟩ := by cbv
  refine ⟨distinct,failed,?_⟩
  rcases (checkCalls_outcome distinct).2 _ failed with ⟨s,c,-,cycle⟩ | ⟨f,-,c,-,-,other,-⟩
  · exact ⟨s,c,cycle⟩
  · simp at other

end Shading.Linked
