import Shading.Proofs.Typed.UnitTyping

/-! The size of a work group is that of the first declaration of it, and one if there is none. All other
checks leave the size alone, and none takes back what was said, so a unit without errors has passed each of
its declarations. -/
namespace Shading.Typed

variable {u : WrittenUnit}

variable {items : List Surface.Item} {s : State} {size : WorkGroup}

theorem firstError?_of_grown {before after : Log} (grown : before <+: after)
    (faultless : after.firstError? = none) : before.firstError? = none := by
  obtain ⟨more,rfl⟩ := grown
  rw [Log.firstError?,List.find?_append,Option.or_eq_none_iff] at faultless
  exact faultless.1

theorem checkItems_append (before later : List Surface.Item) (s : State) :
    (((before ++ later).forM (checkItem u)).run s).2 =
      ((later.forM (checkItem u)).run ((before.forM (checkItem u)).run s).2).2 := by
  induction before generalizing s with
  | nil => rfl
  | cons i before ih => exact ih _

theorem checkItems_unsized (closed : s.Closed [])
    (other : ∀ i ∈ items, ∀ entries span, i ≠ .localSize entries span) :
    ((items.forM (checkItem u)).run s).2.program.localSize = s.program.localSize := by
  induction items generalizing s with
  | nil => rfl
  | cons i items ih =>
    obtain ⟨first,others⟩ := List.forall_mem_cons.mp other
    obtain ⟨onward,closed'⟩ := checkItem_settles (u := u) first closed
    exact (ih closed' others).trans onward.localSize

theorem checkItems_sized (closed : s.Closed []) {size : WorkGroup}
    (sized : s.program.localSize = some size)
    (faultless : ((items.forM (checkItem u)).run s).2.log.firstError? = none) :
    ((items.forM (checkItem u)).run s).2.program.localSize = some size := by
  induction items generalizing s with
  | nil => exact sized
  | cons i items ih =>
    have closed' := (checkItem_closed (u := u) i closed).1
    refine ih closed' ?_ faultless
    by_cases again : ∃ entries span, i = .localSize entries span
    · obtain ⟨entries,span,rfl⟩ := again
      obtain ⟨size',-,same,kept⟩ := (checkItem_localSize entries span closed).2.2
        (firstError?_of_grown (checkItems_closed items closed').2 faultless)
      rw [same size sized]
      exact kept
    · exact (checkItem_settles (by simpa using again) closed).1.localSize.trans sized

end Shading.Typed

namespace Shading.WrittenUnit
open Typed

def Unsized (u : WrittenUnit) : Prop :=
  ∀ i ∈ u.items, ∀ entries span, i ≠ .localSize entries span

/-- The first declaration of a size in the unit, which sees what stands before it, gives this one. -/
def Declares (u : WrittenUnit) (size : WorkGroup) : Prop :=
  ∃ before entries span later, u.items = before ++ .localSize entries span :: later ∧
    (∀ i ∈ before, ∀ entries span, i ≠ .localSize entries span) ∧
    ((checkAxes u entries {}).run.run (u.after before)).1 = .ok size

variable {u : WrittenUnit} {c : Checked}

theorem firstError?_of_check (checked : u.check.Gives c) : (u.after u.items).log.firstError? = none := by
  obtain ⟨rfl,faultless⟩ := faultless_of_check checked
  exact firstError?_of_grown (List.prefix_append _ _) faultless

theorem localSize_of_check (checked : u.check.Gives c) (compute : u.stage = .compute) :
    c.program.localSize = some ((u.after u.items).program.localSize.getD {}) := by
  rw [eq_checkUnit_of_check checked]
  show (if u.stage == .compute && (u.after u.items).program.localSize.isNone then some {}
    else (u.after u.items).program.localSize) = _
  cases size : (u.after u.items).program.localSize <;> simp [compute]

theorem Unsized.localSize (unsized : u.Unsized) (checked : u.check.Gives c)
    (compute : u.stage = .compute) : c.program.localSize = some {} := by
  have none : (u.after u.items).program.localSize = none := checkItems_unsized (u.after_closed []) unsized
  rw [localSize_of_check checked compute,none]
  rfl

theorem first_size (checked : u.check.Gives c) {before later : List Surface.Item}
    {entries : List Surface.LayoutEntry} {span : Span}
    (items : u.items = before ++ .localSize entries span :: later)
    (first : ∀ i ∈ before, ∀ entries span, i ≠ .localSize entries span) :
    ∃ size, ((checkAxes u entries {}).run.run (u.after before)).1 = .ok size ∧
      (u.after u.items).program.localSize = some size := by
  have faultless := firstError?_of_check checked
  have unsized : (u.after before).program.localSize = none := checkItems_unsized (u.after_closed []) first
  have split : u.after u.items = ((later.forM (checkItem u)).run
      ((checkItem u (.localSize entries span)).run (u.after before)).2).2 := by
    rw [after,items,checkItems_append]
    rfl
  grind [checkItem_localSize,Sizes,after_closed,firstError?_of_grown,checkItems_closed,checkItems_sized]

theorem Declares.localSize (declares : u.Declares size) (checked : u.check.Gives c)
    (compute : u.stage = .compute) : c.program.localSize = some size := by
  obtain ⟨before,entries,span,later,items,first,axes⟩ := declares
  grind [first_size,localSize_of_check]

theorem unsized_or_declares (checked : u.check.Gives c) : u.Unsized ∨ ∃ size, u.Declares size := by
  cases found : u.items.find? fun i => i matches .localSize .. with
  | none =>
    refine .inl ?_
    rintro _ mem entries span rfl
    exact List.find?_eq_none.mp found _ mem rfl
  | some i =>
    obtain ⟨sized,before,later,items,first⟩ := List.find?_eq_some_iff_append.mp found
    match i with
    | .localSize entries span =>
      have first' : ∀ i ∈ before, ∀ entries span, i ≠ .localSize entries span := by
        rintro _ mem entries span rfl
        cases first _ mem
      obtain ⟨size,axes,-⟩ := first_size checked items first'
      exact .inr ⟨size,before,entries,span,later,items,first',axes⟩

def HasSize (u : WrittenUnit) (size : WorkGroup) : Prop := u.Declares size ∨ u.Unsized ∧ size = {}

theorem hasSize_iff (checked : u.check.Gives c) (compute : u.stage = .compute) :
    u.HasSize size ↔ c.program.localSize = some size := by
  constructor
  · rintro (declares | ⟨unsized,rfl⟩)
    · exact declares.localSize checked compute
    · exact unsized.localSize checked compute
  · intro given
    rcases unsized_or_declares checked with unsized | ⟨size',declares⟩
    · cases given.symm.trans (unsized.localSize checked compute)
      exact .inr ⟨unsized,rfl⟩
    · cases given.symm.trans (declares.localSize checked compute)
      exact .inl declares

end Shading.WrittenUnit
