import Shading.Proofs.Linked.Merging
import Shading.Proofs.Typed.Equality

/-! Resources are counted with a limit, yet the check is exact: what a unit that passes it uses, with all
products and sums taken as they are, is within the limits of its stage. So its uniforms have registers. -/
namespace Shading
open List

variable {stage : Stage} {u : WrittenUnit} {c : Checked} {gs : List Global}

namespace Ty

theorem mulCount_min (m n : Nat) : mulCount m (min countLimit n) = min countLimit (m * n) := by
  unfold mulCount
  rcases Nat.le_total n countLimit with small | large
  · rw [Nat.min_eq_right small]
  · rcases Nat.eq_zero_or_pos m with rfl | positive
    · simp
    · rw [Nat.min_eq_left large,Nat.min_eq_left (Nat.le_mul_of_pos_left _ positive),
        Nat.min_eq_left (Nat.le_trans large (Nat.le_mul_of_pos_left _ positive))]

theorem count_eq (t : Ty) : t.count = min countLimit t.dims.prod := by
  induction t with
  | array e n ih => rw [count,ih,mulCount_min,dims,prod_cons]
  | _ => rfl

variable {t : Ty}

theorem slots_eq (denoted : t.Denoted) : t.slots = min countLimit (t.dims.prod * t.base.slots) := by
  induction t with
  | array e n ih =>
    rw [slots,ih denoted.1,mulCount_min,dims,prod_cons,Nat.mul_assoc]
    rfl
  | matrix c r =>
    have small := (denoted_matrix.mp denoted).1.2
    simp [slots,dims,base,countLimit]
    omega
  | _ => rfl

theorem prod_dims_pos (denoted : t.Denoted) : 0 < t.dims.prod := by
  induction t with
  | array e n ih =>
    rw [dims,prod_cons]
    exact Nat.mul_pos denoted.2.2 (ih denoted.1)
  | _ => exact Nat.one_pos

theorem base_valued (denoted : t.Denoted) (valued : t ≠ .void) :
    t.base.isSampler = true ∨ 0 < t.base.components := by
  induction t with
  | void => exact absurd rfl valued
  | array e n ih => exact ih denoted.1 denoted.2.1
  | scalar k => exact .inr Nat.one_pos
  | sampler s => exact .inl rfl
  | vector k n =>
    have := denoted_vector.mp denoted
    exact .inr (show 0 < n by omega)
  | matrix c r =>
    have := denoted_matrix.mp denoted
    exact .inr (Nat.mul_pos (by omega) (by omega))

end Ty

namespace Typed

variable {g : Global}

/-- What a global uses, counted without a limit. -/
def Global.exactUsage (r : Resource) (g : Global) : Nat :=
  if g.builtin.isSome then 0
  else
    match r, g.storage with
    | .samplers, .uniform => if g.ty.base.isSampler then g.ty.dims.prod else 0
    | .uniformComponents, .uniform => if g.ty.base.isSampler then 0 else g.ty.base.components * g.ty.dims.prod
    | .inputs, .input | .outputs, .output => g.ty.dims.prod * g.ty.base.slots
    | _, _ => 0

def Program.exactUsage (p : Program) (r : Resource) : Nat := (p.globals.map (Global.exactUsage r)).sum

variable {r : Resource} {limit : Nat}

theorem Resource.limit?_lt (limited : r.limit? stage = some limit) : limit < countLimit := by
  cases r <;> cases stage <;> simp [limit?,Stage.limits] at limited <;> subst limited <;> decide

theorem Global.usage?_eq (denoted : g.ty.Denoted) :
    (∀ r, g.exactUsage r = 0) ∧ g.usage? = none ∨
    ∃ r, g.usage? = some (r, min countLimit (g.exactUsage r)) ∧ ∀ q ≠ r, g.exactUsage q = 0 := by
  unfold exactUsage usage?
  by_cases builtin : g.builtin.isSome
  · simp [builtin]
  · cases storage : g.storage with
    | uniform =>
      by_cases sampler : g.ty.base.isSampler
      · refine .inr ⟨.samplers,?_,?_⟩
        · simp [builtin,sampler,Ty.count_eq]
        · rintro (_ | _) <;> simp [sampler]
      · refine .inr ⟨.uniformComponents,?_,?_⟩
        · simp [builtin,sampler,Ty.count_eq,Ty.mulCount_min]
        · rintro (_ | _) <;> simp [sampler]
    | input =>
      refine .inr ⟨.inputs,?_,?_⟩
      · simp [builtin,Ty.slots_eq denoted]
      · rintro (_ | _) <;> simp
    | output =>
      refine .inr ⟨.outputs,?_,?_⟩
      · simp [builtin,Ty.slots_eq denoted]
      · rintro (_ | _) <;> simp
    | priv =>
      refine .inl ⟨?_,?_⟩
      · rintro (_ | _) <;> simp
      · simp [builtin]

theorem usage_le_of_overuse (denoted : ∀ g ∈ gs, g.ty.Denoted) {used : Resource → Nat}
    (silent : overuse stage used [] gs = []) (limited : r.limit? stage = some limit)
    (start : used r ≤ limit) : used r + (gs.map (Global.exactUsage r)).sum ≤ limit := by
  induction gs generalizing used with
  | nil => simpa using start
  | cons g gs ih =>
    rw [forall_mem_cons] at denoted
    rw [map_cons,sum_cons,← Nat.add_assoc]
    unfold overuse at silent
    rcases Global.usage?_eq denoted.1 with ⟨free,none⟩ | ⟨q,some,others⟩
    · rw [none] at silent
      rw [free r]
      exact ih denoted.2 silent start
    · rw [some] at silent
      dsimp only at silent
      by_cases same : r = q
      · subst same
        rw [limited] at silent
        dsimp only at silent
        split at silent
        · cases silent
        · rename_i within
          have small := Resource.limit?_lt limited
          have total : min countLimit (used r + min countLimit (g.exactUsage r)) = used r + g.exactUsage r := by
            simp only [not_mem_nil,not_false_eq_true,and_true] at within
            omega
          rw [total] at silent within
          simpa using ih denoted.2 silent (by simpa using within)
      · have kept : overuse stage
            (fun x => if x = q then min countLimit (used q + min countLimit (g.exactUsage q)) else used x) [] gs = [] := by
          split at silent
          · split at silent
            · cases silent
            · exact silent
          · exact silent
        rw [others r same]
        simpa [same] using ih denoted.2 kept (by simpa [same] using start)

theorem exactUsage_of_check (checked : u.check.Gives c)
    (limited : r.limit? c.program.stage = some limit) : c.program.exactUsage r ≤ limit := by
  obtain ⟨rfl,faultless⟩ := faultless_of_check checked
  have silent : (checkUnit u).program.overuse = [] := by
    change Log.firstError? ((u.after u.items).log ++ (checkUnit u).program.overuse.map fun d =>
      Diagnostic.error u.file d.1 d.2) = none at faultless
    rw [Log.firstError?,find?_append,Option.or_eq_none_iff] at faultless
    refine eq_nil_iff_forall_not_mem.mpr fun complaint said => ?_
    exact List.find?_eq_none.mp faultless.2 _ (mem_map_of_mem said) rfl
  simpa [Program.exactUsage] using
    usage_le_of_overuse (checkUnit_wellTyped u).globals.denoted silent limited (Nat.zero_le _)

theorem Global.prod_dims_le (isUniform : g.storage = .uniform) (user : g.builtin = none)
    (denoted : g.ty.Denoted) (valued : g.ty ≠ .void) :
    g.ty.dims.prod ≤ g.exactUsage .samplers + g.exactUsage .uniformComponents := by
  simp only [exactUsage,isUniform,user,Option.isSome_none,Bool.false_eq_true,if_false]
  rcases Ty.base_valued denoted valued with sampler | components
  · simp [sampler]
  · split
    · omega
    · rw [Nat.zero_add]
      exact Nat.le_mul_of_pos_left _ components

end Typed

namespace Linked
open Typed

theorem sum_counts_le (user : ∀ g ∈ gs, g.storage = .uniform → g.builtin = none)
    (denoted : ∀ g ∈ gs, g.ty.Denoted) (valued : ∀ g ∈ gs, g.ty ≠ .void) :
    (counts gs).sum ≤ (gs.map (Global.exactUsage .samplers)).sum +
      (gs.map (Global.exactUsage .uniformComponents)).sum := by
  induction gs with
  | nil => simp [counts]
  | cons g gs ih =>
    rw [forall_mem_cons] at user denoted valued
    have rest := ih user.2 denoted.2 valued.2
    simp only [map_cons,sum_cons]
    by_cases isUniform : g.storage = .uniform
    · have here := Global.prod_dims_le isUniform (user.1 isUniform) denoted.1 valued.1
      have count := Ty.count_eq g.ty
      rw [counts_uniform isUniform,sum_cons]
      omega
    · rw [counts_other isUniform]
      omega

theorem counts_relocated {gs' : List Global} (moved : Relocated gs gs') :
    counts gs' = counts gs := by
  have form (gs : List Global) : counts gs =
      ((gs.map fun g => (g.storage, g.ty)).filter fun x => x.1 == .uniform).map fun x => x.2.count := by
    simp [counts,filter_map,Function.comp_def]
  rw [form,form,moved.map_eq fun _ => rfl]

theorem sum_counts_of_check (checked : u.check.Gives c) :
    (counts c.program.globals).sum ≤ 4128 := by
  have typed : c.program.WellTyped := by
    rw [eq_checkUnit_of_check checked]
    exact checkUnit_wellTyped u
  have admitted : ∀ g ∈ c.program.globals, g.Admitted := by
    rw [eq_checkUnit_of_check checked]
    exact checkUnit_admitted u
  have user : ∀ g ∈ c.program.globals, g.storage = .uniform → g.builtin = none := by
    intro g mem isUniform
    rcases typed.globals.ordinary g mem with ⟨v,line,rfl⟩ | ⟨user,-⟩
    · cases out : v.isOutput <;> simp [Global.ofBuiltin,out] at isUniform
    · exact user
  have sum := sum_counts_le user typed.globals.denoted fun g mem => (admitted g mem).valued
  have samplers := exactUsage_of_check checked (r := .samplers) rfl
  have components := exactUsage_of_check checked (r := .uniformComponents) rfl
  have few : c.program.stage.limits.textureUnits + c.program.stage.limits.uniformComponents ≤ 4128 := by
    cases c.program.stage <;> decide
  simp only [Program.exactUsage] at samplers components
  omega

/-- The exact totals of a unit that passed the check respect the limits of its stage. If it is linked alone,
its uniforms have registers, one for each of their values. -/
theorem check_resources {u : WrittenUnit} {c : Checked} (checked : u.check.Gives c) :
    (∀ r limit, r.limit? c.program.stage = some limit → c.program.exactUsage r ≤ limit) ∧
    ∀ l, (link [c]).Gives l → ∀ j, ∃ table q j', (reflect l.program).run.run j = (.ok (table, q), j') ∧
      table.length = l.program.uniforms.length ∧ ∀ (i : Nat) (g : Global), l.program.uniforms[i]? = some g →
        ∃ v : Uniform, table[i]? = some v ∧ v.name = g.name ∧ v.count.toNat = g.ty.dims.prod := by
  refine ⟨fun r limit limited => exactUsage_of_check checked limited,fun l linked j => ?_⟩
  obtain ⟨-,-,globals,moved,same⟩ := link_alone linked
  have few : (counts l.program.globals).sum ≤ 4128 := by
    rw [same,counts_relocated moved]
    exact sum_counts_of_check checked
  have exact_ {g : Global} (member : g ∈ l.program.uniforms) : g.ty.count = g.ty.dims.prod ∧ g.ty.count ≠ 0 := by
    have below : g.ty.count ≤ (counts l.program.globals).sum := le_sum_of_mem (mem_map_of_mem member)
    have denoted : g.ty.Denoted := by
      rw [same] at member
      obtain ⟨h,old,location,rfl⟩ := moved.mem (mem_filter.mp member).1
      rw [eq_checkUnit_of_check checked] at old
      exact (checkUnit_wellTyped u).globals.denoted h old
    have positive := Ty.prod_dims_pos denoted
    have limit : 4128 < countLimit := by decide
    rw [Ty.count_eq] at below ⊢
    omega
  have ends := reflect_ends l.program j
  generalize (reflect l.program).run.run j = ran at ends ⊢
  obtain ⟨f | ⟨table,q⟩,j'⟩ := ran
  · refine absurd ⟨fun zero => ?_,Nat.lt_of_le_of_lt few (by decide)⟩ ends
    obtain ⟨g,member,none⟩ := mem_map.mp zero
    exact (exact_ member).2 none
  · refine ⟨table,q,j',rfl,ends.1.1.length,fun i g here => ?_⟩
    obtain ⟨v,entry,name,-,count,-⟩ := ends.1.1.entries here
    exact ⟨v,entry,name,count.trans (exact_ (mem_of_getElem? here)).1⟩

def arrayed : Checked where
  program := {
    stage := .fragment
    file := "a"
    globals := [
      { name := "m", ty := .array (.array (.vector .float 4) 3) 2, storage := .uniform, line := 1 },
      { name := "s", ty := .array (.sampler ⟨.d2, false, .float⟩) 4, storage := .uniform, line := 1 }]
    functions := [
      { name := "main", signature := "main()", returnTy := .void, params := [], locals := [], body := some [], line := 1 }] }
  log := []

def arrayedText : CheckedText :=
  ⟨"uniform vec4 m[2][3];uniform sampler2D s[4];void main(){}", arrayed, by decide +kernel⟩

/-- It is checked and linked, and its ten values have registers. -/
theorem arrayed_resources : ∃ (u : WrittenUnit) (c : Checked) (l : Linked), u.check.Gives c ∧ (link [c]).Gives l ∧
    l.program.uniforms.map (fun g => g.ty.dims.prod) = [6, 4] ∧ c.program.exactUsage .uniformComponents ≤ 4096 ∧
    ∀ j, ∃ table q j', (reflect l.program).run.run j = (.ok (table, q), j') ∧ table.length = 2 := by
  obtain ⟨u,checked⟩ := arrayedText.exists_unit
  have linked : ((link [arrayedText.unit]).run.run {}).1 = .ok ⟨arrayed.program,[]⟩ := by cbv
  have linked := Reporting.gives_of_run linked
  obtain ⟨totals,registers⟩ := check_resources checked
  refine ⟨u,_,_,checked,linked,by decide,totals _ _ rfl,fun j => ?_⟩
  obtain ⟨table,q,j',ran,length,-⟩ := registers _ linked j
  exact ⟨table,q,j',ran,length⟩

end Linked
end Shading
