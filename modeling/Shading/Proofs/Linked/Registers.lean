import Shading.Linked.Register
import Shading.Proofs.Outcome

/-! The table of uniforms and the locations of their globals come from one count. Registers are given
exactly if every uniform has values and all of them together have less than `UInt32.size`. -/
namespace Shading
open List

namespace Reporting

variable {ε α β : Type} {W : α → Prop} {F : Prop}

/-- Every run reports nothing and gives what is wanted, or it fails, and then there is a reason. -/
def Ends (work : Reporting ε α) (W : α → Prop) (F : Prop) : Prop :=
  ∀ j, match work.run.run j with
    | (.ok a, j') => W a ∧ j'.log = j.log
    | (.error _, _) => F

namespace Ends

variable {a : α}

theorem of_pure (h : W a) : (pure a : Reporting ε α).Ends W F := fun _ => ⟨h,rfl⟩

theorem of_throw {e : ε} (h : F) : (throw e : Reporting ε α).Ends W F := fun _ => h

theorem of_note {level : TraceLevel} {text : String} : (note level text : Reporting ε Unit).Ends (fun _ => True) F :=
  fun _ => ⟨trivial,rfl⟩

variable {work : Reporting ε α}

theorem bind {R : β → Prop} {next : α → Reporting ε β} (first : work.Ends W F)
    (second : ∀ a, W a → (next a).Ends R F) : (work >>= next).Ends R F := by
  intro j
  have left := first j
  rw [ExceptT.run_bind,StateT.run_bind]
  generalize work.run.run j = ran at left ⊢
  obtain ⟨e | a,t⟩ := ran
  · exact left
  · have last := second a left.1 t
    rw [left.2] at last
    exact last

theorem guard {c D : Prop} [Decidable c] {check : Reporting ε PUnit} {rest : PUnit → Reporting ε α}
    (first : c → check.Ends (fun _ => D) F) (second : (c → D) → (rest ⟨⟩).Ends W F) :
    (if c then check >>= rest else rest ⟨⟩).Ends W F := by
  split
  · exact .bind (first ‹_›) fun _ known => second fun _ => known
  · exact second fun h => absurd h ‹_›

theorem mono {R : α → Prop} {G : Prop} (ends : work.Ends W F) (wanted : ∀ a, W a → R a) (reason : F → G) :
    work.Ends R G := by
  intro j
  have left := ends j
  generalize work.run.run j = ran at left ⊢
  obtain ⟨e | a,t⟩ := ran
  · exact reason left
  · exact ⟨wanted a left.1,left.2⟩

theorem of_gives (ends : work.Ends W F) (given : work.Gives a) : W a := by
  obtain ⟨j,j',ran⟩ := given
  have left := ends j
  rw [ran] at left
  exact left.1

end Ends

end Reporting

namespace Linked
open Typed

variable {g : Global} {gs' : List Global} {next : Nat} {p : Program} {us : UniformTable}

/-- Registers from the first number on are given to the uniforms among the globals. -/
inductive Assigned : Nat → List Global → UniformTable → List Global → Prop where
  | nil {next : Nat} : Assigned next [] [] []
  | uniform {next : Nat} {g : Global} {gs gs' : List Global} {us : UniformTable}
      (isUniform : g.storage = .uniform) (fits : next + g.ty.count ≤ countLimit)
      (rest : Assigned (next + g.ty.count) gs us gs') :
    Assigned next (g :: gs) (Uniform.ofTy g.name g.ty.base g.ty.count next :: us)
      ({ g with location := some next } :: gs')
  | other {next : Nat} {g : Global} {gs gs' : List Global} {us : UniformTable}
      (noUniform : g.storage ≠ .uniform) (rest : Assigned next gs us gs') :
    Assigned next (g :: gs) us (g :: gs')

def counts (gs : List Global) : List Nat := (gs.filter fun g => g.storage == .uniform).map fun g => g.ty.count

variable {gs : List Global}

theorem counts_uniform (isUniform : g.storage = .uniform) :
    counts (g :: gs) = g.ty.count :: counts gs := by simp [counts,isUniform]

theorem counts_other (noUniform : g.storage ≠ .uniform) :
    counts (g :: gs) = counts gs := by simp [counts,noUniform]

theorem assignRegisters_ends (within : next ≤ countLimit) (gs : List Global) :
    (assignRegisters next gs).Ends
      (fun r => Assigned next gs r.1 r.2 ∧ 0 ∉ counts gs ∧ next + (counts gs).sum ≤ countLimit)
      (0 ∈ counts gs ∨ countLimit < next + (counts gs).sum) := by
  induction gs generalizing next with
  | nil => exact .of_pure ⟨.nil,by simp [counts],within⟩
  | cons g gs ih =>
    rw [assignRegisters]
    by_cases isUniform : g.storage = .uniform
    · rw [if_pos (by simpa using isUniform),counts_uniform isUniform,sum_cons,← Nat.add_assoc]
      refine .guard (D := False) (fun empty => .of_throw (by simp [empty])) fun some_ =>
        .guard (D := True) (fun _ => .of_note) fun _ =>
        .guard (D := False) (fun full => .of_throw (by omega)) fun fits => .bind .of_note fun _ _ => ?_
      refine .bind ((ih (Nat.le_of_not_lt fits)).mono (fun _ => id) (.imp_left (.tail _))) fun r ⟨assigned,filled,room⟩ =>
        .of_pure ⟨.uniform isUniform (Nat.le_of_not_lt fits) assigned,?_,room⟩
      simpa [Ne.symm some_] using filled
    · rw [if_neg (by simpa using isUniform),counts_other isUniform]
      exact .bind (ih within) fun r h => .of_pure ⟨.other isUniform h.1,h.2⟩

namespace Assigned

variable {next : Nat} {gs gs' : List Global} {us : UniformTable}

theorem toNat_ofNat {n : Nat} (small : n ≤ countLimit) : (UInt32.ofNat n).toNat = n :=
  UInt32.toNat_ofNat_of_lt' (by rw [countLimit] at small; rw [UInt32.size] at *; omega)

section

variable (assigned : Assigned next gs us gs')
include assigned

theorem entry {i : Nat} (here : (gs.filter fun g => g.storage == .uniform)[i]? = some g) :
    us[i]? = some (.ofTy g.name g.ty.base g.ty.count (next + ((counts gs).take i).sum)) ∧
      (gs'.filter fun g => g.storage == .uniform)[i]? =
        some { g with location := some (next + ((counts gs).take i).sum) } := by
  induction assigned generalizing i with
  | nil => cases here
  | @uniform next h gs gs' us isUniform fits rest ih =>
    rw [filter_cons_of_pos (by simpa using isUniform)] at here ⊢
    rw [counts_uniform isUniform]
    cases i with
    | zero =>
      cases here
      simp
    | succ i => simpa [Nat.add_assoc] using ih here
  | other noUniform rest ih =>
    rw [filter_cons_of_neg (by simpa using noUniform)] at here ⊢
    rw [counts_other noUniform]
    exact ih here

theorem length_eq : us.length = (counts gs).length := by
  induction assigned with
  | nil => rfl
  | uniform isUniform fits rest ih => simp [counts_uniform isUniform,ih]
  | other noUniform rest ih => rw [counts_other noUniform,ih]

theorem contiguous : us.contiguousFrom next = true := by
  induction assigned with
  | nil => rfl
  | uniform isUniform fits rest ih =>
    have first := toNat_ofNat (Nat.le_trans (Nat.le_add_right _ _) fits)
    have count := toNat_ofNat (Nat.le_trans (Nat.le_add_left _ _) fits)
    simp [UniformTable.contiguousFrom,Uniform.ofTy,first,count,fits,ih]
  | other noUniform rest ih => exact ih

theorem registerCount : us.registerCount = if us = [] then 0 else next + (counts gs).sum := by
  induction assigned with
  | nil => rfl
  | @uniform next g gs gs' us isUniform fits rest ih =>
    have first := toNat_ofNat (Nat.le_trans (Nat.le_add_right _ _) fits)
    have count := toNat_ofNat (Nat.le_trans (Nat.le_add_left _ _) fits)
    cases us with
    | nil =>
      have none : counts gs = [] := eq_nil_of_length_eq_zero rest.length_eq.symm
      simp [UniformTable.registerCount,Uniform.ofTy,first,count,fits,counts_uniform isUniform,none]
    | cons u us =>
      rw [counts_uniform isUniform,sum_cons,← Nat.add_assoc]
      exact ih
  | other noUniform rest ih => rw [counts_other noUniform,ih]

theorem kept : Forall₂ (fun g g' =>
    g' = g ∨ g.storage = .uniform ∧ g' = { g with location := g'.location }) gs gs' := by
  induction assigned with
  | nil => exact .nil
  | uniform isUniform fits rest ih => exact .cons (.inr ⟨isUniform,rfl⟩) ih
  | other noUniform rest ih => exact .cons (.inl rfl) ih

end

end Assigned

/-- The table and the program that the registers of a program give. -/
structure Reflected (p : Program) (table : UniformTable) (q : Program) : Prop where
  length : table.length = p.uniforms.length
  entries : ∀ {i : Nat} {g : Global}, p.uniforms[i]? = some g → ∃ u, table[i]? = some u ∧
    u.name = g.name ∧ u.kind = .ofTy g.ty.base ∧ u.count.toNat = g.ty.count ∧ u.registers = u.count ∧
    u.register.toNat = ((counts p.globals).take i).sum ∧
    q.uniforms[i]? = some { g with location := some u.register.toNat }
  contiguous : table.isContiguous = true
  registerCount : table.registerCount = (counts p.globals).sum
  others : q = { p with globals := q.globals }
  globals : Forall₂ (fun g g' =>
    g' = g ∨ g.storage = .uniform ∧ g' = { g with location := g'.location }) p.globals q.globals

variable {table : UniformTable}

theorem Assigned.reflected {globals : List Global} (assigned : Assigned 0 p.globals table globals)
    (room : (counts p.globals).sum ≤ countLimit) : Reflected p table { p with globals } where
  length := assigned.length_eq.trans (length_map _)
  entries {i g} here := by
    obtain ⟨entry,placed⟩ := assigned.entry here
    rw [Nat.zero_add] at entry placed
    have count : g.ty.count ≤ (counts p.globals).sum :=
      le_sum_of_mem (mem_map_of_mem (mem_of_getElem? here))
    have before : ((counts p.globals).take i).sum ≤ (counts p.globals).sum :=
      (take_sublist i _).sum_le_sum fun _ _ => Nat.zero_le _
    have register := toNat_ofNat (Nat.le_trans before room)
    refine ⟨_,entry,rfl,rfl,toNat_ofNat (Nat.le_trans count room),rfl,register,?_⟩
    rw [← register] at placed
    exact placed
  contiguous := assigned.contiguous
  registerCount := by
    rw [assigned.registerCount]
    split
    · rename_i none
      have empty : counts p.globals = [] := eq_nil_of_length_eq_zero (by rw [← assigned.length_eq,none]; rfl)
      exact (congrArg List.sum empty).symm
    · exact Nat.zero_add _
  others := rfl
  globals := assigned.kept

theorem reflect_ends (p : Program) : (reflect p).Ends
    (fun r => Reflected p r.1 r.2 ∧ 0 ∉ counts p.globals ∧ (counts p.globals).sum < UInt32.size)
    (¬(0 ∉ counts p.globals ∧ (counts p.globals).sum < UInt32.size)) := by
  have limit : countLimit + 1 = UInt32.size := rfl
  refine .bind ((assignRegisters_ends (Nat.zero_le _) p.globals).mono (fun _ => id) (by grind))
    fun r ⟨assigned,filled,room⟩ => .bind .of_note fun _ _ => .of_pure ?_
  rw [Nat.zero_add] at room
  exact ⟨assigned.reflected room,filled,by omega⟩

/-- Registers are given exactly if all uniforms have values, and together no more than registers can be
numbered. They follow each other in the order of the uniforms, and nothing but the locations of uniforms
changes. -/
theorem reflect_outcome (p : Program) (j : Journal) :
    if 0 ∉ counts p.globals ∧ (counts p.globals).sum < UInt32.size then
      ∃ table q j', (reflect p).run.run j = (.ok (table, q), j') ∧ j'.log = j.log ∧ Reflected p table q
    else ∃ f j', (reflect p).run.run j = (.error f, j') := by
  have ends := reflect_ends p j
  generalize (reflect p).run.run j = ran at ends ⊢
  obtain ⟨f | ⟨table,q⟩,j'⟩ := ran
  · rw [if_neg ends]
    exact ⟨f,j',rfl⟩
  · rw [if_pos ends.1.2]
    exact ⟨table,q,j',rfl,ends.2,ends.1.1⟩

theorem assignRegisters_assigned (given : (assignRegisters 0 gs).Gives (us, gs')) :
    Assigned 0 gs us gs' :=
  ((assignRegisters_ends (Nat.zero_le _) gs).of_gives given).1

/-- The uniform is the global as a loader sees it. -/
structure Registered (u : Uniform) (g : Global) : Prop where
  name : u.name = g.name
  kind : u.kind = .ofTy g.ty.base
  count : u.count.toNat = g.ty.count
  location : g.location = some u.register.toNat

theorem Assigned.registered (assigned : Assigned next gs us gs') :
    Forall₂ Registered us (gs'.filter fun g => g.storage == .uniform) := by
  induction assigned with
  | nil => exact .nil
  | @uniform next g gs gs' us isUniform fits rest ih =>
    rw [filter_cons_of_pos (by simp [isUniform])]
    refine .cons ⟨rfl,rfl,toNat_ofNat (by omega),?_⟩ ih
    exact congrArg some (toNat_ofNat (by omega)).symm
  | other noUniform rest ih =>
    rw [filter_cons_of_neg (by simpa using noUniform)]
    exact ih

theorem reflect_registered {q : Program} (reflected : (reflect p).Gives (table, q)) :
    Forall₂ Registered table (q.globals.filter fun g => g.storage == .uniform) := by
  obtain ⟨⟨us,globals⟩,assigned,given⟩ := Reporting.Gives.of_bind reflected
  obtain ⟨-,-,given⟩ := given.of_bind
  rw [Reporting.gives_pure] at given
  cases given
  exact (assignRegisters_assigned assigned).registered

end Linked
end Shading
