import Shading.Linked.Link
import Shading.Proofs.Linked.Registers
import Shading.Proofs.Typed.UnitTyping

/-! Linking and the assignment of registers move bodies and initial values around but do not change
them, so programs stay scoped. -/
namespace Shading.Linked
open Typed

variable {storage : Storage} {l : Linked}

def unplaced (g : Global) : Global := { g with location := none }

theorem eq_of_unplaced_eq {g h : Global} (same : unplaced g = unplaced h) :
    g = { h with location := g.location } := by
  cases g
  cases h
  simp only [unplaced,Global.mk.injEq] at same ⊢
  simp [same]

def Relocated (gs gs' : List Global) : Prop := gs.map unplaced = gs'.map unplaced

variable {gs' gs : List Global}

theorem Relocated.map_eq {α : Type} (moved : Relocated gs gs') {f : Global → α}
    (blind : ∀ g, f (unplaced g) = f g) : gs.map f = gs'.map f := by
  have same := congrArg (List.map f) moved
  simpa only [List.map_map,Function.comp_def,blind] using same

theorem Relocated.mem (moved : Relocated gs gs') {g : Global} (mem : g ∈ gs') :
    ∃ h ∈ gs, ∃ location, g = { h with location } := by
  have kept : unplaced g ∈ gs.map unplaced := moved ▸ List.mem_map_of_mem mem
  obtain ⟨h,old,same⟩ := List.mem_map.mp kept
  exact ⟨h,old,g.location,eq_of_unplaced_eq same.symm⟩

theorem fillRanges_relocated {used : List Taken} (filled : fillRanges storage used gs = .ok gs') :
    Relocated gs gs' := by
  induction gs generalizing used gs' with
  | nil =>
    cases filled
    rfl
  | cons g gs ih =>
    unfold fillRanges at filled
    split at filled
    · split at filled
      · cases filled
      · simp only [Except.map_eq_ok] at filled
        obtain ⟨rest,filled,rfl⟩ := filled
        exact congrArg (unplaced g :: ·) (ih filled)
    · simp only [Except.map_eq_ok] at filled
      obtain ⟨rest,filled,rfl⟩ := filled
      exact congrArg (unplaced g :: ·) (ih filled)

theorem Relocated.inits (moved : Relocated gs gs') (inits : ∀ g ∈ gs, ∀ e ∈ g.init, e.locals = []) :
    ∀ g ∈ gs', ∀ e ∈ g.init, e.locals = [] := by
  intro g mem e init
  obtain ⟨h,old,location,rfl⟩ := moved.mem mem
  exact inits h old e init

theorem placeStorage_relocated (placed : placeStorage storage gs = .ok gs') : Relocated gs gs' := by
  rw [placeStorage,Except.bind_eq_ok] at placed
  obtain ⟨used,-,filled⟩ := placed
  exact fillRanges_relocated filled

def RelocatedProgram (p q : Program) : Prop :=
  ∃ globals, Relocated p.globals globals ∧ q = { p with globals }

variable {p q : Program}

theorem RelocatedProgram.scoped (moved : RelocatedProgram p q) (start : p.Scoped) : q.Scoped := by
  obtain ⟨globals,moved,rfl⟩ := moved
  exact ⟨start.bodies,moved.inits start.inits⟩

theorem placeInterface_relocated (placed : placeInterface p = .ok q) : RelocatedProgram p q := by
  simp only [placeInterface,Except.bind_eq_ok,Except.pure_eq_ok] at placed
  obtain ⟨inputs,first,outputs,second,-,-,rfl⟩ := placed
  exact ⟨outputs,(placeStorage_relocated first).trans (placeStorage_relocated second),rfl⟩

theorem link_merged {units : List Checked} (linked : (link units).Gives l) :
    ∃ p, merge (units.map Checked.program) = .ok p ∧ RelocatedProgram p l.program := by
  unfold link at linked
  split at linked
  · obtain ⟨-,-,failed⟩ := linked.of_bind
    exact absurd failed Reporting.not_gives_throw
  · rename_i p merged
    split at linked
    · obtain ⟨-,-,failed⟩ := linked.of_bind
      exact absurd failed Reporting.not_gives_throw
    · rename_i q placed
      obtain ⟨-,-,given⟩ := linked.of_bind
      rw [Reporting.gives_pure] at given
      subst given
      exact ⟨p,merged,placeInterface_relocated placed⟩

theorem link_alone {c : Checked} (linked : (link [c]).Gives l) :
    checkEntry c.program = .ok () ∧ checkCalls c.program = .ok () ∧
      RelocatedProgram c.program l.program := by
  obtain ⟨p,merged,moved⟩ := link_merged linked
  simp only [merge,Except.bind_eq_ok,Except.pure_eq_ok] at merged
  obtain ⟨q,same,⟨⟩,entry,⟨⟩,calls,rfl⟩ := merged
  cases same
  exact ⟨entry,calls,moved⟩

theorem Assigned.relocated {next : Nat} {us : UniformTable} (assigned : Assigned next gs us gs') :
    Relocated gs gs' := by
  induction assigned with
  | nil => rfl
  | uniform _ _ _ ih => exact congrArg (unplaced _ :: ·) ih
  | other _ _ ih => exact congrArg (unplaced _ :: ·) ih

theorem reflect_relocated {table : UniformTable} (reflected : (reflect p).Gives (table, q)) :
    RelocatedProgram p q := by
  obtain ⟨⟨us,globals⟩,assigned,given⟩ := Reporting.Gives.of_bind reflected
  obtain ⟨-,-,given⟩ := given.of_bind
  rw [Reporting.gives_pure] at given
  cases given
  exact ⟨globals,(assignRegisters_assigned assigned).relocated,rfl⟩

end Shading.Linked
