import Shading.Proofs.Linked.UnitOrder
import Shading.Proofs.Typed.WorkGroups

/-! Work groups of linked units. A unit that says nothing of the size has groups of one, like a unit that
says so: units can be linked only if all of them have one size, which is the size of the program. -/
namespace Shading.Linked
open List Typed

variable {units : List Checked}

section Causes

variable {a b : WorkGroup} {c : Cause} {p u : Program} {f : Fault} {finished : List String}
  {fs : List Function} {g : Function} {h : Global} {α : Type}

theorem mergePlace_cause {name what : String} {m n : Option Nat}
    (failed : mergePlace name what m n = .error c) : c ≠ .localSizeMismatch a b := by
  unfold mergePlace at failed
  grind

theorem mergeGlobal_cause {g : Global} (failed : mergeGlobal g h = .error c) :
    c ≠ .localSizeMismatch a b := by
  simp only [mergeGlobal,Except.ite_throw_eq_error,Except.bind_eq_error,Except.pure_ne_error,and_false,
    or_false] at failed
  grind [mergePlace_cause]

theorem addGlobal_cause {gs : List Global} (failed : addGlobal h gs = .error c) :
    c ≠ .localSizeMismatch a b := by
  induction gs with
  | nil => cases failed
  | cons g gs ih =>
    grind [addGlobal,mergeGlobal_cause,Except.map_eq_error]

theorem mergeFunction_cause {f : Function} (failed : mergeFunction f g = .error c) :
    c ≠ .localSizeMismatch a b := by
  grind [mergeFunction]

theorem addFunction_cause (failed : addFunction g fs = .error c) : c ≠ .localSizeMismatch a b := by
  induction fs with
  | nil => cases failed
  | cons f fs ih =>
    grind [addFunction,mergeFunction_cause,Except.map_eq_error]

theorem foldlM_cause {σ : Type} {step : σ → α → Except Fault σ} {xs : List α} {s : σ}
    (other : ∀ s x f, step s x = .error f → f.cause ≠ .localSizeMismatch a b)
    (failed : xs.foldlM step s = .error f) : f.cause ≠ .localSizeMismatch a b := by
  induction xs generalizing s with
  | nil => cases failed
  | cons x xs ih =>
    grind [Except.bind_eq_error]

theorem placed_cause {file : String} {line : Nat} {work : Except Cause α}
    (other : ∀ c, work = .error c → c ≠ .localSizeMismatch a b)
    (failed : placed file line work = .error f) : f.cause ≠ .localSizeMismatch a b := by
  rw [placed,Except.mapError_eq_error] at failed
  obtain ⟨c,failed,rfl⟩ := failed
  exact other c failed

theorem absorb_cause (failed : absorb p u = .error f) (cause : f.cause = .localSizeMismatch a b) :
    p.localSize = some a ∧ u.localSize = some b ∧ a ≠ b := by
  simp only [absorb,Except.ite_throw_eq_error,Except.bind_eq_error,Except.pure_ne_error,and_false,
    exists_false,or_false] at failed
  rcases failed with ⟨-,rfl⟩ | ⟨-,⟨-,rfl⟩ | ⟨-,failed | ⟨_,-,failed | ⟨_,-,failed⟩⟩⟩⟩
  · cases cause
  · cases cause
  · rw [placed,Except.mapError_eq_error] at failed
    obtain ⟨c,failed,rfl⟩ := failed
    cases cause
    unfold mergeLocalSize at failed
    grind
  · exact absurd cause (foldlM_cause (fun _ _ _ => placed_cause fun _ => addGlobal_cause) failed)
  · exact absurd cause (foldlM_cause (fun _ _ _ => placed_cause fun _ => addFunction_cause) failed)

theorem follow_cause {path calls : List String} (failed : follow p path calls finished = .error f) :
    f.cause ≠ .localSizeMismatch a b := by
  fun_induction follow p path calls finished with
  | case1 => cases failed
  | case2 | case4 | case5 =>
    cases failed
    exact Cause.noConfusion
  | case3 _ _ _ _ _ _ ih => exact ih failed
  | case6 path callee rest finished fresh new g declared hasBody e inner ih =>
    cases failed
    exact ih inner
  | case7 path callee rest finished fresh new g declared hasBody finished' followed ih₁ ih₂ => exact ih₂ failed

theorem followAll_cause (failed : followAll p fs finished = .error f) :
    f.cause ≠ .localSizeMismatch a b := by
  induction fs generalizing finished with
  | nil => cases failed
  | cons g fs ih =>
    grind [followAll,follow_cause]

end Causes

theorem link_error {j : Journal} {cause : Cause}
    (failed : ((link units).run.run j).1 = .error (.merge cause)) :
    ∃ f, merge (units.map Checked.program) = .error f ∧ f.cause = cause := by
  unfold link at failed
  split at failed
  · rename_i f merged
    cases failed
    exact ⟨f,merged,rfl⟩
  · split at failed
    · cases failed
    · cases failed

section Units

variable {us : List Program} {size : WorkGroup} {p : Program} {f : Fault} {a b : WorkGroup}

theorem merge_cause (same : ∀ u ∈ us, u.localSize = some size) (failed : merge us = .error f) :
    f.cause ≠ .localSizeMismatch a b := by
  have units {us : List Program} {p : Program} (start : p.localSize = some size)
      (same : ∀ u ∈ us, u.localSize = some size) (failed : us.foldlM absorb p = .error f) :
      f.cause ≠ .localSizeMismatch a b := by
    induction us generalizing p with
    | nil => cases failed
    | cons u us ih =>
      obtain ⟨here,later⟩ := forall_mem_cons.mp same
      rw [foldlM_cons,Except.bind_eq_error] at failed
      rcases failed with first | ⟨q,absorbed,rest⟩
      · intro cause
        obtain ⟨left,right,apart⟩ := absorb_cause first cause
        cases start.symm.trans left
        cases here.symm.trans right
        exact apart rfl
      · refine ih ?_ later rest
        simp only [absorb,Except.ite_throw_eq_ok,Except.bind_eq_ok,Except.pure_eq_ok] at absorbed
        obtain ⟨-,-,localSize,sized,_,-,_,-,rfl⟩ := absorbed
        rw [placed,Except.mapError_eq_ok,mergeLocalSize_eq_ok] at sized
        rw [sized.2,start,here]
        rfl
  simp only [merge,Except.bind_eq_error,Except.pure_ne_error,and_false,exists_false,or_false] at failed
  rcases failed with failed | ⟨p,-,failed | ⟨_,-,failed⟩⟩
  · cases us with
    | nil =>
      cases failed
      exact Cause.noConfusion
    | cons u us =>
      obtain ⟨here,later⟩ := forall_mem_cons.mp same
      exact units here later failed
  · grind [checkEntry]
  · unfold checkCalls at failed
    split at failed
    · cases failed
    · cases failed
      exact followAll_cause ‹_›

theorem link_localSize_eq {l : Linked} (checked : ∀ c ∈ units, ∃ u : WrittenUnit, u.check.Gives c)
    (linked : (link units).Gives l) {c : Checked} (mem : c ∈ units)
    (sized : c.program.localSize = some size) : l.program.localSize = some size := by
  obtain ⟨p,union,-,globals,-,moved⟩ := link_union checked linked
  rw [moved]
  exact (union.localSize size).mpr (mem_map.mpr ⟨c.program,mem_map_of_mem mem,sized⟩)

end Units

/-- Units of compute shaders have one size each, declared or one. They are refused for their sizes only if
two of them differ, and then always; otherwise theirs is the size of the program. -/
theorem link_localSize {units : List (WrittenUnit × Checked)}
    (checked : ∀ x ∈ units, x.1.check.Gives x.2) (compute : ∀ x ∈ units, x.1.stage = .compute) :
    (∀ x ∈ units, ∃ size, x.1.HasSize size) ∧ (∀ size, (∀ x ∈ units, x.1.HasSize size) →
        (∀ j a b, ((link (units.map Prod.snd)).run.run j).1 ≠ .error (.merge (.localSizeMismatch a b))) ∧
          ∀ l, (link (units.map Prod.snd)).Gives l → l.program.localSize = some size) ∧
      ∀ x ∈ units, ∀ y ∈ units, ∀ a b, x.1.HasSize a → y.1.HasSize b → a ≠ b →
        ∀ l, ¬(link (units.map Prod.snd)).Gives l := by
  have given : ∀ c ∈ units.map Prod.snd, ∃ u : WrittenUnit, u.check.Gives c := by
    intro c member
    obtain ⟨x,inside,rfl⟩ := mem_map.mp member
    exact ⟨x.1,checked x inside⟩
  have sizes {x : WrittenUnit × Checked} (member : x ∈ units) {size : WorkGroup} :
      x.1.HasSize size ↔ x.2.program.localSize = some size :=
    WrittenUnit.hasSize_iff (checked x member) (compute x member)
  refine ⟨fun x member => ?_,fun size same => ⟨fun j a b failed => ?_,fun l linked => ?_⟩,
    fun x member y member' a b left right apart l linked => ?_⟩
  · exact ⟨_,(sizes member).mpr (WrittenUnit.localSize_of_check (checked x member) (compute x member))⟩
  · obtain ⟨f,failed,cause⟩ := link_error failed
    have sized : ∀ u ∈ (units.map Prod.snd).map Checked.program, u.localSize = some size := by
      intro u listed
      obtain ⟨c,listed',rfl⟩ := mem_map.mp listed
      obtain ⟨x,inside,rfl⟩ := mem_map.mp listed'
      exact (sizes inside).mp (same x inside)
    exact merge_cause sized failed cause
  · cases units with
    | nil =>
      obtain ⟨p,merged,-⟩ := link_merged linked
      cases merged
    | cons x units =>
      exact link_localSize_eq given linked (mem_map_of_mem mem_cons_self)
        ((sizes mem_cons_self).mp (same x mem_cons_self))
  · have first := link_localSize_eq given linked (mem_map_of_mem member) ((sizes member).mp left)
    have second := link_localSize_eq given linked (mem_map_of_mem member') ((sizes member').mp right)
    cases first.symm.trans second
    exact apart rfl

namespace Sizes

/-- A compute shader of one line. -/
def unit (text : String) (items : List Surface.Item) : WrittenUnit :=
  ⟨"a", .compute, ⟨text.toList ++ ['\n'], ⟨["a"], #[0], #[(0, 1)]⟩, 100, true, []⟩, items⟩

def eight : Surface.Item :=
  .localSize [⟨"local_size_x", some (.int 8 ⟨20, 21⟩), ⟨7, 19⟩⟩] ⟨0, 25⟩

def main (start : Nat) : Surface.Item :=
  .function ⟨⟨⟨"void", ⟨start, start + 4⟩⟩, "main", [], ⟨start, start + 11⟩⟩, [], ⟨start, start + 13⟩⟩

def declaring : WrittenUnit := unit "layout(local_size_x=8)in;" [eight]

def silent : WrittenUnit := unit "void main(){}" [main 0]

def complete : WrittenUnit := unit "layout(local_size_x=8)in;void main(){}" [eight, main 25]

def program (localSize : WorkGroup) (functions : List Function) : Checked :=
  ⟨{ stage := .compute, file := "a", functions, localSize := some localSize }, []⟩

def entry : Function where
  name := "main"
  signature := "main()"
  returnTy := .void
  params := []
  locals := []
  body := some []
  line := 1

theorem units_checked : declaring.check.Gives (program ⟨8, 1, 1⟩ []) ∧
    silent.check.Gives (program ⟨1, 1, 1⟩ [entry]) ∧
    complete.check.Gives (program ⟨8, 1, 1⟩ [entry]) := by
  refine ⟨gives_of_toOption ?_,gives_of_toOption ?_,gives_of_toOption ?_⟩ <;> decide +kernel

theorem declaring_declares : declaring.Declares ⟨8, 1, 1⟩ :=
  ⟨[],_,_,[],rfl,by simp,by rfl⟩

theorem complete_declares : complete.Declares ⟨8, 1, 1⟩ :=
  ⟨[],_,_,[main 25],rfl,by simp,by rfl⟩

theorem silent_unsized : silent.Unsized := by
  simp [WrittenUnit.Unsized,silent,unit,main]

/-- Both units declare groups of eight. -/
def agreeing : List (WrittenUnit × Checked) :=
  [(declaring, program ⟨8, 1, 1⟩ []), (complete, program ⟨8, 1, 1⟩ [entry])]

def partial_ : List (WrittenUnit × Checked) :=
  [(declaring, program ⟨8, 1, 1⟩ []), (silent, program ⟨1, 1, 1⟩ [entry])]

theorem agreeing_linked : (link (agreeing.map Prod.snd)).Gives ⟨(program ⟨8, 1, 1⟩ [entry]).program, []⟩ := by
  refine Reporting.gives_of_run (j := {}) ?_
  cbv

end Sizes

/-- Units that declare one size are linked, and it is the size of the program. -/
theorem agreeing_localSize :
    (∀ x ∈ Sizes.agreeing, x.1.check.Gives x.2) ∧ (∀ x ∈ Sizes.agreeing, x.1.stage = .compute) ∧
      (∀ x ∈ Sizes.agreeing, x.1.Declares ⟨8, 1, 1⟩) ∧
      ∃ l, (link (Sizes.agreeing.map Prod.snd)).Gives l ∧ l.program.localSize = some ⟨8, 1, 1⟩ := by
  have checked : ∀ x ∈ Sizes.agreeing, x.1.check.Gives x.2 := by
    simpa [Sizes.agreeing] using ⟨Sizes.units_checked.1,Sizes.units_checked.2.2⟩
  have compute : ∀ x ∈ Sizes.agreeing, x.1.stage = .compute := by
    simp [Sizes.agreeing,Sizes.declaring,Sizes.complete,Sizes.unit]
  have declares : ∀ x ∈ Sizes.agreeing, x.1.Declares ⟨8,1,1⟩ := by
    simpa [Sizes.agreeing] using ⟨Sizes.declaring_declares,Sizes.complete_declares⟩
  refine ⟨checked,compute,declares,_,Sizes.agreeing_linked,?_⟩
  exact ((link_localSize checked compute).2.1 ⟨8,1,1⟩ fun x member => .inl (declares x member)).2 _
    Sizes.agreeing_linked

/-- A unit that says nothing of the size does not fit one that declares it. -/
theorem link_refuses_unsized :
    (∀ x ∈ Sizes.partial_, x.1.check.Gives x.2) ∧ (∀ x ∈ Sizes.partial_, x.1.stage = .compute) ∧
      (∀ x ∈ Sizes.partial_, x.1.Unsized ∨ x.1.Declares ⟨8, 1, 1⟩) ∧
      ∀ j, ((link (Sizes.partial_.map Prod.snd)).run.run j).1 =
        .error (.merge (.localSizeMismatch ⟨8, 1, 1⟩ ⟨1, 1, 1⟩)) := by
  refine ⟨?_,?_,?_,fun j => ?_⟩
  · simpa [Sizes.partial_] using ⟨Sizes.units_checked.1,Sizes.units_checked.2.1⟩
  · simp [Sizes.partial_,Sizes.declaring,Sizes.silent,Sizes.unit]
  · simpa [Sizes.partial_] using ⟨.inr Sizes.declaring_declares,.inl Sizes.silent_unsized⟩
  · rfl

end Shading.Linked
