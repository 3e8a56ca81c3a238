import Shading.Proofs.Emission.Tables
import Shading.Proofs.Emission.Writing

/-! How a text comes about: the code of a module is read into tables, then variables are declared,
functions get names, and each function is written on its own. -/
namespace Shading.Emission
open Bytecode

variable {d : Document} {m : Module} {target : Target} {version : Nat} {es : Bool}

namespace Context

def scene (c : Context) (g : Globals) (names : Table String) (f : Function) : Scene :=
  { c with globalTerms := g.terms, functionNames := names, mentioned := mentioned f.body }

def Writes (c : Context) (g : Globals) (used : List String) (names : Table String)
    (f : String × Function) (text : FunctionText) : Prop :=
  ∃ w, (writeFunction (c.scene g names f.2) f.1 f.2).run { used } = .ok (text, w)

variable {c : Context} {g : Globals} {used : List String} {names : Table String}

theorem writeFunctions_eq_ok {fs : List (String × Function)} {texts : List FunctionText}
    {extensions : List String} (made : writeFunctions c g used names fs = .ok (texts, extensions)) :
    List.Forall₂ (c.Writes g used names) fs texts := by
  induction fs generalizing texts extensions with
  | nil =>
    cases made
    exact .nil
  | cons f fs ih =>
    obtain ⟨⟨text,w⟩,ran,made⟩ := Except.bind_eq_ok.mp made
    obtain ⟨⟨rest,_⟩,more,made⟩ := Except.bind_eq_ok.mp made
    cases made
    exact .cons ⟨w,ran⟩ (ih more)

theorem globalLine_eq_ok {id : Id} {storage : StorageClass} {ty : Ty} {name : String} {line : GlobalLine}
    (made : c.globalLine id storage ty name = .ok line) :
    line.name = name ∧ (storage ≠ .uniform → line.role ≠ some .uniform) := by
  have interface {input : Bool} (made : c.interfaceLine id input ty name = .ok line) :
      line.name = name ∧ line.role ≠ some .uniform := by
    obtain ⟨interpolation,-,made⟩ := Except.bind_eq_ok.mp made
    cases made
    refine ⟨rfl,?_⟩
    dsimp only [interfaceRole]
    split
    · split <;> simp
    · split <;> simp
  unfold globalLine at made
  grind

def callees (functions : List (String × Function)) : Table String :=
  (functions.map fun (name, f) => (f.id, name)).reverse

theorem document_eq_ok (made : c.document = .ok d) :
    ∃ g, c.globals = .ok g ∧ d.outer = g.lines ∧
      let (functions, used) := c.assignFunctionNames g.used c.tables.functions
      List.Forall₂ (c.Writes g used (callees functions)) functions d.functions := by
  obtain ⟨g,declared,made⟩ := Except.bind_eq_ok.mp made
  obtain ⟨⟨texts,extensions⟩,written,made⟩ := Except.bind_eq_ok.mp made
  cases made
  exact ⟨g,declared,rfl,writeFunctions_eq_ok written⟩

end Context

theorem document_eq_ok (made : document m target = .ok d) :
    ∃ stage code tables entry, m.instructions = .ok code ∧
      Tables.ofCode target code = .ok (tables, entry) ∧
      Context.document ⟨target, stage, tables, entry⟩ = .ok d := by
  obtain ⟨h,-,made⟩ := Except.bind_eq_ok.mp made
  grind [Except.bind_eq_ok,Except.mapError_eq_ok]

theorem emit_always (selected : Target.select version es = .ok target)
    (made : document m target = .ok d) : (emit m version es).Always d.text := by
  refine .bind (a := target) ?_ (.bind (a := d) ?_
    (.bind (Reporting.always_note _ _) (Reporting.always_pure _)))
  · rw [ofTarget,selected]
    exact fun j => ⟨j,rfl⟩
  · rw [made]
    exact fun j => ⟨j,rfl⟩

theorem emit_gives_iff {text : String} : (emit m version es).Gives text ↔
      ∃ target d, Target.select version es = .ok target ∧ document m target = .ok d ∧ text = d.text := by
  constructor
  · intro emitted
    obtain ⟨target,selected,emitted⟩ := emitted.of_bind
    obtain ⟨d,made,emitted⟩ := emitted.of_bind
    obtain ⟨_,-,emitted⟩ := emitted.of_bind
    rw [Reporting.gives_pure] at emitted
    exact ⟨target,d,Except.mapError_eq_ok.mp (Reporting.gives_lift.mp selected),
      Reporting.gives_lift.mp made,emitted.symm⟩
  · rintro ⟨target,d,selected,made,rfl⟩
    exact (emit_always selected made).gives

end Shading.Emission
