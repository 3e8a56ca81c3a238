import Shading.Proofs.Pass.Behavior
import Shading.Proofs.Pass.DeadCode

/-! Values that nothing uses and variables that nothing reads can be left out: what is left agrees on all
other ids, and on all other variables. -/
namespace Shading.Bytecode
open Pass Execution Instruction

variable {i : Instruction} {r : Id}

namespace Pass

variable {code : List Instruction} {i : Instruction}

theorem keeps_eq_false (deleted : keeps code i = false) :
    (i.op = .store ∧ i.operand 0 ∈ deadIn code) ∨
      ∃ r, i.result? = some r ∧ ((i.op = .var ∧ r ∈ deadIn code) ∨ i.op.isPure = true) := by
  unfold keeps needed at deleted
  split at deleted
  · rename_i store
    exact .inl ⟨store,by simpa using deleted⟩
  grind [isLocal]

theorem not_mem_deadIn (unique : (results code).Nodup) (mem : i ∈ code) (kept : keeps code i = true)
    (result : i.result? = some r) : r ∉ deadIn code := by
  grind [mem_deadIn,eq_of_result,isLocal,keeps,needed]

end Pass

theorem Instruction.head?_arguments (store : i.op = .store) (full : i.operands ≠ []) :
    i.arguments.head? = some (i.operand 0) := by
  obtain ⟨_,operands⟩ := i
  cases store
  cases operands with
  | nil => exact absurd rfl full
  | cons x rest =>
    simp [arguments,mentions,refersAt,Opcode.hasResultType,operand_eq,List.zipIdx_cons]

namespace Outline

variable {V : Type} {m : Machine V} {t u : Outline}

/-- What is kept stands for the same, and dead variables are lost. -/
def sweeping (V : Type) (u : Outline) : Transfer V where
  ids := id
  keeps := Pass.keeps u.code
  locals x := x ∉ deadIn u.code
  lost x := x ∈ deadIn u.code
  fixed _ _ := False
  sees _ x := ∃ d ∈ u.code, d.result? = some x ∧ Pass.keeps u.code d = true
  locals_apart := fun _ _ same => same
  sees_mono := fun _ seen => seen

section Sweeping

theorem sweeping_fresh (unique : (results u.code).Nodup) (mem : i ∈ u.code)
    (kept : Pass.keeps u.code i = true) {visible : List Id} (result : i.result? = some r) :
    (sweeping V u).Fresh visible r :=
  ⟨fun _ _ other => other,fun _ seen => .inr seen,not_mem_deadIn unique mem kept result,fun _ => id⟩

variable {s s' : State V} {visible wider : List Id}

theorem sweeping_bind (unique : (results u.code).Nodup) (agree : Agree (sweeping V u) visible s s')
    (mem : i ∈ u.code) (deleted : Pass.keeps u.code i = false) (result : i.result? = some r)
    {d : Datum V}
    (lost : r ∈ deadIn u.code → ∀ c path, d = .pointer c path → ¬ c.Within (sweeping V u).locals) :
    Agree (sweeping V u) wider (s.bind r d) s' := by
  have other : ∀ x, (sweeping V u).sees visible x → x ≠ r := by
    rintro x ⟨d,here,defined,kept⟩ rfl
    obtain rfl := eq_of_result unique mem here result defined
    rw [deleted] at kept
    cases kept
  refine ⟨fun x seen => ?_,fun x seen => ?_,fun x dead => ?_,agree.fixed,agree.memory⟩
  · rw [State.bind_env_of_ne _ (other x seen)]
    exact agree.env x seen
  · rw [State.bind_env_of_ne _ (other x seen)]
    exact agree.within x seen
  · by_cases same : x = r
    · rw [same,State.bind_env_self]
      exact lost (same ▸ dead)
    · rw [State.bind_env_of_ne _ same]
      exact agree.lost x dead

theorem sweeping_set (agree : Agree (sweeping V u) visible s s') {c : Cell}
    (outside : ¬ c.Within (sweeping V u).locals) (v : V) :
    Agree (sweeping V u) wider (s.set c v) s' := by
  refine ⟨agree.env,agree.within,agree.lost,agree.fixed,fun c' within => ?_⟩
  grind [State.set_memory_of_ne,Agree.memory]

/-- What is deleted does nothing that is seen. -/
theorem sweeping_drops (unique : (results u.code).Nodup) (full : Targeted u.code)
    {shapes : Id → Shape} {depth : Nat} {call : Id → List (Datum V) → State V → Result V}
    (mem : i ∈ u.code) (deleted : Pass.keeps u.code i = false)
    (agree : Agree (sweeping V u) visible s s') :
    ∃ s₁, step m shapes depth call i s = some (.next, s₁) ∧ Agree (sweeping V u) wider s₁ s' := by
  rcases keeps_eq_false deleted with ⟨store,dead⟩ | ⟨r,result,⟨var,dead⟩ | pure⟩
  · have target : ∀ c path d, s.data i = [.pointer c path,d] → ¬ c.Within (sweeping V u).locals := by
      intro c path d data
      refine agree.lost _ dead c path ?_
      grind [head?_arguments,State.data,List.head?_map]
    unfold step
    rw [store]
    dsimp only
    split
    · rename_i c path d data
      exact ⟨_,rfl,sweeping_set agree (target c path d data) _⟩
    · exact ⟨_,rfl,agree.env,agree.within,agree.lost,agree.fixed,agree.memory⟩
  · unfold step
    rw [var,result]
    have outside : ¬ (Cell.frame depth r).Within (sweeping V u).locals := fun alive => alive dead
    have allocated : ∀ v, Agree (sweeping V u) visible (s.set (.frame depth r) v) s' :=
      fun v => sweeping_set agree outside v
    refine ⟨_,rfl,sweeping_bind unique (allocated _) mem deleted result ?_⟩
    rintro _ c path ⟨⟩
    exact outside
  · refine ⟨s.give i _,step_of_isPure pure,?_⟩
    rw [State.give,result]
    refine sweeping_bind unique agree mem deleted result fun dead => ?_
    obtain ⟨⟨d,here,local_,defined⟩,-⟩ := mem_deadIn.mp dead
    obtain rfl := eq_of_result unique mem here result defined
    simp only [isLocal,Bool.and_eq_true,beq_iff_eq] at local_
    rw [local_.1] at pure
    cases pure

theorem sweeping_admits (unique : (results u.code).Nodup) {params : List Instruction} :
    ∀ {visible : List Id}, (∀ p ∈ params, p ∈ u.code ∧ Pass.keeps u.code p = true) →
      (sweeping V u).Admits visible params := by
  induction params with
  | nil => exact fun _ => trivial
  | cons p params ih =>
    intro visible kept
    rw [List.forall_mem_cons] at kept
    refine ⟨fun r result => ⟨?_,?_⟩,ih kept.2⟩
    · exact sweeping_fresh unique kept.1.1 kept.1.2 result
    · exact not_mem_deadIn unique kept.1.1 kept.1.2 result

theorem Runnable.sweeping_start (runnable : u.Runnable) (globals : ∀ i ∈ u.outside, isLocal i = false)
    {memory memory' : Cell → V}
    (same : ∀ c, c.Within (sweeping V u).locals → memory' (c.rename id) = memory c) :
    Agree (sweeping V u) visible ⟨(u.globals m).data, memory⟩ ⟨(u.globals m).data, memory'⟩ := by
  refine ⟨fun x _ => ?_,fun x _ => ?_,fun x dead c path points => ?_,fun _ _ fixed => fixed.elim,same⟩
  · exact (Datum.rename_eq_self (globals_shared x) id).symm
  · exact (globals_shared x).mono fun _ none => none.elim
  · obtain ⟨⟨d,here,local_,result⟩,-⟩ := mem_deadIn.mp dead
    have absent : x ∉ results u.outside := by
      intro outside
      obtain ⟨j,there,result'⟩ := mem_results.mp outside
      obtain rfl := eq_of_result runnable.unique here (mem_code.mpr (.inl there)) result result'
      rw [globals d there] at local_
      cases local_
    have nowhere : (u.globals m).data x = .value (nothing m) :=
      (Globals.foldl_declare_of_not_mem u.outside absent).2
    have contra := nowhere.symm.trans points
    cases contra

theorem Runnable.sweeping_sees (runnable : u.Runnable) (full : Targeted u.code) {r : Routine}
    (routine : r ∈ u.routines) (here : i ∈ r.code) (kept : Pass.keeps u.code i = true) :
    ∀ x ∈ i.mentions, (sweeping V u).sees visible x := by
  intro x mentioned
  have referred : x ∈ i.references := mem_references_iff.mpr (.inl mentioned)
  obtain ⟨d,defined,result⟩ := mem_results.mp (runnable.closed r routine i here referred)
  have noName : i.op ≠ .debugName := by
    intro op
    have states := (runnable.shaped.routines r routine).states i here
    rw [op] at states
    cases states
  exact ⟨d,defined,result,
    keeps_of_mentioned full (mem_code.mpr (.inr ⟨r,routine,here⟩)) kept noName referred result⟩

theorem Runnable.sweeping_each (runnable : u.Runnable) (full : Targeted u.code) {r : Routine}
    (routine : r ∈ u.routines) (shapes : Id → Shape) :
    r.body.Each ((sweeping V u).Treats m shapes shapes fun x => ∃ r ∈ u.routines, r.id = x)
      (sweeping V u).sees visible := by
  have inside : ∀ i ∈ r.body.code, i ∈ r.code := fun i here => by simp [Routine.code,here]
  refine Block.each_of_code (fun i here visible => ?_) fun c here visible => ?_
  · have here := inside i here
    have known : i ∈ u.code := mem_code.mpr (.inr ⟨r,routine,here⟩)
    rw [Transfer.Treats]
    cases kept : (sweeping V u).keeps i with
    | true =>
      rw [if_pos rfl]
      exact ⟨runnable.sweeping_sees full routine here kept,fun _ _ => rfl,
        fun r result => sweeping_fresh runnable.unique known kept result,
        fun _ r result => not_mem_deadIn runnable.unique known kept result,
        runnable.calls r routine i here⟩
    | false =>
      rw [if_neg Bool.false_ne_true]
      exact fun _ _ _ _ agree => sweeping_drops runnable.unique full known kept agree
  · exact runnable.sweeping_sees full routine (inside _ here) (keeps_of_isPlain_false _ rfl) c
      (by simp [mentions,refersAt])

end Sweeping

theorem Runnable.behaves_sweep (runnable : u.Runnable)
    (globals : ∀ i ∈ u.outside, isLocal i = false) (full : Targeted u.code) (init : Nat → V)
    (seen : Behavior V) : u.sweep.Behaves m init seen ↔ u.Behaves m init seen := by
  have carries : (sweeping V u).Carries m u u.sweep fun x => ∃ r ∈ u.routines, r.id = x := by
    refine ⟨fun _ _ same => runnable.sweeping_start globals same,?_,?_⟩
    · rintro x ⟨r,routine,rfl⟩
      obtain ⟨r',found⟩ := exists_routine? routine
      obtain ⟨routine',-⟩ := routine?_eq_some found
      have swept : u.sweep.routine? r.id = some ((sweeping V u).routine r') := by
        have filtered : u.sweep.routine? (id r.id) =
            (u.routine? r.id).map (Routine.filter (Pass.keeps u.code)) :=
          routine?_map (fun _ _ => rfl) fun _ _ same => same
        rw [id,found] at filtered
        rw [Transfer.routine,sweeping,renameRoutine_id]
        exact filtered
      refine ⟨r',found,swept,sweeping_admits runnable.unique fun p param => ⟨?_,?_⟩,
        runnable.sweeping_each full routine' _⟩
      · exact mem_code.mpr (.inr ⟨r',routine',by simp [Routine.code,param]⟩)
      · exact (runnable.shaped.routines r' routine').keeps_outer p (List.mem_cons_of_mem _ param)
    · obtain ⟨r,routine,main⟩ := runnable.main
      exact ⟨r.id,⟨r,routine,rfl⟩,main,main⟩
  exact carries.behaves init seen

theorem Swept.behaves (swept : t.Swept u) (valid : t.Valid) (shaped : t.Shaped) (init : Nat → V)
    (seen : Behavior V) : u.Behaves m init seen ↔ t.Behaves m init seen := by
  induction swept with
  | none => exact Iff.rfl
  | again before ih =>
    have trims := before.trims valid shaped
    grind [Trims.runnable,Runnable.behaves_sweep,Trims.outside,Valid.isLocal_outside,Trims.store_operands]

end Outline

end Shading.Bytecode
