import Shading.Proofs.Bytecode.Execution
import Shading.Proofs.Bytecode.Renaming

/-! A module whose ids are seen as others, and from whose functions instructions are left out, behaves as
before if what is left out can be left out in every state. A transfer says which ids and which variables
stand for the same in both runs; one step preserves that, hence whole runs do. -/
namespace Shading.Bytecode
open List Pass Instruction

/-- What holds of every plain instruction and every condition, by the ids that are visible there. -/
def Block.Each (p : List Id → Instruction → Prop) (c : List Id → Id → Prop) : List Id → Block → Prop
  | _, .done => True
  | visible, .plain i rest => p visible i ∧ rest.Each p c (i.result?.toList ++ visible)
  | visible, .ifThen cond yes rest => c visible cond ∧ yes.Each p c visible ∧ rest.Each p c visible
  | visible, .ifElse cond yes no rest =>
    c visible cond ∧ yes.Each p c visible ∧ no.Each p c visible ∧ rest.Each p c visible
  | visible, .loop _ body continuing rest =>
    body.Each p c visible ∧ continuing.Each p c visible ∧ rest.Each p c visible

section Instructions

variable {f : Id → Id} {i : Instruction}

@[simp] theorem literals_renameIds : (renameIds f i).literals = i.literals := by
  rw [literals,literals]
  simp only [refersAt_renameIds,resultPosition?_renameIds]
  rw [operandsAt_renameIds fun p => !i.refersAt p && i.resultPosition? != some p]
  refine map_congr_left fun (w, p) mem => ?_
  have literal := (mem_filter.mp mem).2
  simp only [Bool.and_eq_true,Bool.not_eq_true',bne_iff_ne,ne_eq] at literal
  simp [literal.1,Ne.symm literal.2]

theorem arguments_renameIds : (renameIds f i).arguments = i.arguments.map f := by
  rw [arguments,arguments,renameIds_op,mentions_renameIds]
  split <;> simp

theorem Instruction.arguments_subset (i : Instruction) : i.arguments ⊆ i.mentions := by
  rw [arguments]
  split
  · exact fun _ => mem_of_mem_tail
  · exact Subset.refl _

end Instructions

namespace Execution

variable {V : Type} {i : Instruction} {m : Machine V} {memory' : Cell → V} {r r' : Result V}

def Cell.rename (f : Id → Id) : Cell → Cell
  | .shared n => .shared n
  | .frame depth x => .frame depth (f x)

def Cell.Within (locals : Id → Prop) : Cell → Prop
  | .shared _ => True
  | .frame _ x => locals x

namespace Datum

def rename (f : Id → Id) : Datum V → Datum V
  | .value v => .value v
  | .pointer c path => .pointer (c.rename f) path

def Within (locals : Id → Prop) : Datum V → Prop
  | .value _ => True
  | .pointer c _ => c.Within locals

variable {m : Machine V} {f : Id → Id}

@[simp] theorem rename_pointer (c : Cell) (path : List V) :
    (pointer c path).rename f = .pointer (c.rename f) path := rfl

@[simp] theorem get_rename (d : Datum V) : (d.rename f).get m = d.get m := by cases d <;> rfl

@[simp] theorem holds_rename (d : Datum V) : (d.rename f).holds m = d.holds m := by simp [holds]

theorem map_get_rename (ds : List (Datum V)) : (ds.map (rename f)).map (get m) = ds.map (get m) := by
  rw [map_map]
  exact map_congr_left fun d _ => get_rename d

end Datum

/-- How the run of a module goes along with that of another. -/
structure Transfer (V : Type) where
  /-- The ids as the other run has them. -/
  ids : Id → Id
  /-- Which instructions the other run has. -/
  keeps : Instruction → Bool
  /-- The variables of functions that hold the same in both. -/
  locals : Id → Prop
  /-- Ids that lead to other variables at most. -/
  lost : Id → Prop
  /-- Ids of the other run that always stand for the same. -/
  fixed : Id → Datum V → Prop
  /-- The ids that stand for the same in both, where some ids are visible. -/
  sees : List Id → Id → Prop
  locals_apart : ∀ {x y}, locals x → locals y → ids x = ids y → x = y
  sees_mono : ∀ {visible wider x}, visible ⊆ wider → sees visible x → sees wider x

/-- The states of both runs. -/
structure Agree (τ : Transfer V) (visible : List Id) (s s' : State V) : Prop where
  env : ∀ x, τ.sees visible x → s'.env (τ.ids x) = (s.env x).rename τ.ids
  within : ∀ x, τ.sees visible x → (s.env x).Within τ.locals
  lost : ∀ x, τ.lost x → ∀ c path, s.env x = .pointer c path → ¬ c.Within τ.locals
  fixed : ∀ x d, τ.fixed x d → s'.env x = d
  memory : ∀ c, c.Within τ.locals → s'.memory (c.rename τ.ids) = s.memory c

/-- An id that comes to stand for the same. -/
structure Transfer.Fresh (τ : Transfer V) (visible : List Id) (r : Id) : Prop where
  apart : ∀ x, τ.sees visible x → x ≠ r → τ.ids x ≠ τ.ids r
  sees : ∀ x, τ.sees (r :: visible) x → x = r ∨ τ.sees visible x
  found : ¬ τ.lost r
  free : ∀ d, ¬ τ.fixed (τ.ids r) d

variable {τ : Transfer V} {visible wider : List Id} {s s' : State V}

theorem Transfer.cell_apart {c c' : Cell} (here : c.Within τ.locals) (there : c'.Within τ.locals)
    (same : c.rename τ.ids = c'.rename τ.ids) : c = c' := by
  cases c with
  | shared n =>
    cases c' with
    | shared n' => exact same
    | frame depth' x' => cases same
  | frame depth x =>
    cases c' with
    | shared n' => cases same
    | frame depth' x' =>
      injection same with depths ids
      rw [depths,τ.locals_apart here there ids]

namespace Agree

theorem mono (agree : Agree τ wider s s') (le : visible ⊆ wider) : Agree τ visible s s' :=
  ⟨fun x seen => agree.env x (τ.sees_mono le seen),fun x seen => agree.within x (τ.sees_mono le seen),
    agree.lost,agree.fixed,agree.memory⟩

section

variable (agree : Agree τ visible s s')
include agree

theorem bind {r : Id} (fresh : τ.Fresh visible r) {d : Datum V} (within : d.Within τ.locals) :
    Agree τ (r :: visible) (s.bind r d) (s'.bind (τ.ids r) (d.rename τ.ids)) := by
  refine ⟨fun x seen => ?_,fun x seen => ?_,fun x lost => ?_,fun x d fixed => ?_,agree.memory⟩
  · grind [State.bind_env_self,Transfer.Fresh.sees,State.bind_env_of_ne,Transfer.Fresh.apart,env]
  · grind [State.bind_env_self,State.bind_env_of_ne,within,Transfer.Fresh.sees]
  · have other : x ≠ r := fun same => fresh.found (same ▸ lost)
    rw [State.bind_env_of_ne _ other]
    exact agree.lost x lost
  grind [Transfer.Fresh.free,State.bind_env_of_ne,fixed]

theorem replace {r : Id} {d : Datum V}
    (sees : ∀ x, τ.sees (r :: visible) x → x = r ∨ τ.sees visible x) (found : ¬ τ.lost r)
    (within : d.Within τ.locals) (value : s'.env (τ.ids r) = d.rename τ.ids) :
    Agree τ (r :: visible) (s.bind r d) s' := by
  refine ⟨fun x seen => ?_,fun x seen => ?_,fun x lost => ?_,agree.fixed,agree.memory⟩
  · grind [State.bind_env_self,State.bind_env_of_ne,env]
  · grind [State.bind_env_self,State.bind_env_of_ne,within]
  · have other : x ≠ r := fun same => found (same ▸ lost)
    rw [State.bind_env_of_ne _ other]
    exact agree.lost x lost

theorem set {c : Cell} (within : c.Within τ.locals) (v : V) :
    Agree τ visible (s.set c v) (s'.set (c.rename τ.ids) v) := by
  refine ⟨agree.env,agree.within,agree.lost,agree.fixed,fun c' here => ?_⟩
  by_cases same : c' = c
  · rw [same,State.set_memory_self,State.set_memory_self]
  grind [Transfer.cell_apart,State.set_memory_of_ne,memory]

end

end Agree

namespace Flow

def rename (f : Id → Id) : Flow V → Flow V
  | .returned d => .returned (d.rename f)
  | flow => flow

def Within (locals : Id → Prop) : Flow V → Prop
  | .returned d => d.Within locals
  | _ => True

end Flow

/-- Both runs have reached the bound, or have been left in the same way. -/
inductive Matches (τ : Transfer V) (visible : List Id) : Result V → Result V → Prop
  | bound : Matches τ visible none none
  | left {flow : Flow V} {first second : State V} (within : flow.Within τ.locals)
      (agree : Agree τ visible first second) :
      Matches τ visible (some (flow, first)) (some (flow.rename τ.ids, second))

namespace Matches

variable {r r' : Result V} {k k' : State V → Result V}

theorem next (agree : Agree τ visible s s') :
    Matches τ visible (some (.next, s)) (some (.next, s')) := .left trivial agree

theorem returned (agree : Agree τ visible s s') {d : Datum V} (within : d.Within τ.locals) :
    Matches τ visible (some (.returned d, s)) (some (.returned (d.rename τ.ids), s')) :=
  .left within agree

theorem mono (along : Matches τ wider r r') (le : visible ⊆ wider) : Matches τ visible r r' := by
  cases along with
  | bound => exact .bound
  | left within agree => exact .left within (agree.mono le)

section

variable (along : Matches τ visible r r')
include along

section

variable (after : ∀ s s', Agree τ visible s s' → Matches τ visible (k s) (k' s'))
include after

theorem andThen : Matches τ visible (Result.andThen r k) (Result.andThen r' k') := by
  cases along with
  | bound => exact .bound
  | @left flow _ _ within agree =>
    cases flow with
    | next => exact after _ _ agree
    | _ => exact .left within agree

theorem onward : Matches τ visible (Result.onward r k) (Result.onward r' k') := by
  cases along with
  | bound => exact .bound
  | @left flow _ _ within agree =>
    cases flow with
    | next => exact after _ _ agree
    | continued => exact after _ _ agree
    | _ => exact .left within agree

end

theorem leave : Matches τ visible (Result.leave r) (Result.leave r') := by
  cases along with
  | bound => exact .bound
  | @left flow _ _ within agree => cases flow <;> exact .left within agree

end

end Matches

section Compute

variable {m : Machine V} {shape : Shape} {i : Instruction} {arguments : List (Datum V)}

theorem compute_renameIds (f : Id → Id) (memory : Cell → V) :
    compute m shape memory (renameIds f i) arguments = compute m shape memory i arguments := by
  unfold compute
  rw [renameIds_op,literals_renameIds]

theorem compute_rename {memory : Cell → V} (within : ∀ d ∈ arguments, d.Within τ.locals)
    (same : ∀ c, c.Within τ.locals → memory' (c.rename τ.ids) = memory c) :
    compute m shape memory' i (arguments.map (Datum.rename τ.ids)) =
      (compute m shape memory i arguments).rename τ.ids := by
  unfold compute
  split
  · match arguments, within with
    | [.pointer c path], within =>
      simp only [map_cons,map_nil,Datum.rename]
      rw [same c (within _ (mem_singleton_self _))]
    | [], _ | .value _ :: _, _ | .pointer _ _ :: _ :: _, _ => rfl
  · match arguments with
    | .pointer c path :: indices =>
      simp only [map_cons,Datum.rename,Datum.map_get_rename]
    | [] | .value _ :: _ => rfl
  · match arguments with
    | [cond,yes,no] =>
      simp only [map_cons,map_nil,Datum.holds_rename]
      split <;> rfl
    | [] | [_] | [_,_] | _ :: _ :: _ :: _ :: _ => rfl
  · rw [Datum.map_get_rename]
    rfl

theorem compute_within {memory : Cell → V} (within : ∀ d ∈ arguments, d.Within τ.locals) :
    (compute m shape memory i arguments).Within τ.locals := by
  unfold compute
  split
  · split <;> trivial
  · split
    · rename_i c path indices
      exact within (.pointer c path) mem_cons_self
    · trivial
  · split
    · split
      · exact within _ (by simp)
      · exact within _ (by simp)
    · trivial
  · trivial

end Compute

/-- An instruction that the other run has, too. -/
structure Transfer.Retains (τ : Transfer V) (shapes shapes' : Id → Shape) (called : Id → Prop)
    (visible : List Id) (i : Instruction) : Prop where
  mentions : ∀ x ∈ i.mentions, τ.sees visible x
  shape : ∀ ty ∈ i.resultType?, shapes' (τ.ids ty) = shapes ty
  result : ∀ r ∈ i.result?, τ.Fresh visible r
  allocates : i.op = .var → ∀ r ∈ i.result?, τ.locals r
  callee : ∀ f ∈ i.callee?, called f

namespace Agree

variable {i : Instruction}

section

variable (agree : Agree τ visible s s')
include agree

theorem give (fresh : ∀ r ∈ i.result?, τ.Fresh visible r) {d : Datum V}
    (within : d.Within τ.locals) : Agree τ (i.result?.toList ++ visible) (s.give i d)
      (s'.give (renameIds τ.ids i) (d.rename τ.ids)) := by
  grind [State.give,result?_renameIds,bind]

theorem data_within (seen : ∀ x ∈ i.mentions, τ.sees visible x) :
    ∀ d ∈ s.data i, d.Within τ.locals := by
  intro d mem
  obtain ⟨x,argument,rfl⟩ := mem_map.mp mem
  exact agree.within x (seen x (i.arguments_subset argument))

theorem data_rename (seen : ∀ x ∈ i.mentions, τ.sees visible x) :
    s'.data (renameIds τ.ids i) = (s.data i).map (Datum.rename τ.ids) := by
  grind [State.data,arguments_renameIds,map_congr_left,env,arguments_subset]

end

end Agree

theorem Matches.resume (along : Matches τ visible r r')
    (fresh : ∀ r ∈ i.result?, τ.Fresh visible r) :
    Matches τ (i.result?.toList ++ visible) (r.map (resume m i))
      (r'.map (resume m (renameIds τ.ids i))) := by
  cases along with
  | bound => exact .bound
  | @left flow _ _ within agree =>
    have given : (flow.result m).Within τ.locals := by
      cases flow with
      | returned d => exact within
      | _ => trivial
    have same : (flow.rename τ.ids).result m = (flow.result m).rename τ.ids := by cases flow <;> rfl
    have after : (flow.rename τ.ids).after = flow.after.rename τ.ids := by cases flow <;> rfl
    have left : flow.after.Within τ.locals := by cases flow <;> trivial
    simp only [Option.map_some,Execution.resume,same,after]
    exact .left left (agree.give fresh given)

theorem Matches.step {shapes shapes' : Id → Shape} {called : Id → Prop} {depth : Nat}
    {call call' : Id → List (Datum V) → State V → Result V} (agree : Agree τ visible s s')
    (retains : τ.Retains shapes shapes' called visible i)
    (calls : ∀ f, called f → ∀ arguments : List (Datum V), (∀ d ∈ arguments, d.Within τ.locals) →
      Matches τ visible (call f arguments s) (call' (τ.ids f) (arguments.map (Datum.rename τ.ids)) s')) :
    Matches τ (i.result?.toList ++ visible) (step m shapes depth call i s)
      (step m shapes' depth call' (renameIds τ.ids i) s') := by
  have shape : ((renameIds τ.ids i).resultType?.map shapes').getD .unknown =
      (i.resultType?.map shapes).getD .unknown := by
    rw [resultType?_renameIds]
    cases ofType : i.resultType? with
    | none => rfl
    | some ty => simp [retains.shape ty ofType]
  have same := agree.data_rename retains.mentions
  have within := agree.data_within retains.mentions
  have without : i.op.hasResult = false → i.result?.toList ++ visible = visible := by
    intro none
    obtain ⟨op,operands⟩ := i
    cases op <;> first | rfl | cases none
  unfold Execution.step
  simp only [renameIds_op,shape,same,result?_renameIds,callee?_renameIds]
  split
  · rename_i op
    rw [without (by rw [op]; rfl)]
    generalize s.data i = arguments at within ⊢
    match arguments, within with
    | [.pointer c path,d], within =>
      have here : c.Within τ.locals := within (.pointer c path) mem_cons_self
      simp only [map_cons,map_nil,Datum.rename_pointer,Datum.get_rename,agree.memory c here]
      exact .next (agree.set here _)
    | [], _ | .value _ :: _, _ | [.pointer _ _], _ | .pointer _ _ :: _ :: _ :: _, _ =>
      exact .next agree
  · rename_i op
    cases result : i.result? with
    | none => exact .next agree
    | some r =>
      have local' : (Cell.frame depth r).Within τ.locals := retains.allocates op r result
      exact .next ((agree.set local' _).bind (retains.result r result) local')
  · cases callee : i.callee? with
    | none => exact .next (agree.give retains.result trivial)
    | some f => exact (calls f (retains.callee f callee) _ within).resume retains.result
  · rename_i op
    rw [without (by rw [op]; rfl)]
    match s.data i with
    | [d] =>
      simp only [map_cons,map_nil,Datum.holds_rename]
      split <;> exact .left trivial agree
    | [] | _ :: _ :: _ => exact .next agree
  · rename_i op
    rw [without (by rw [op]; rfl)]
    exact .left trivial agree
  · rename_i op
    rw [without (by rw [op]; rfl)]
    exact .left trivial agree
  · rename_i op
    rw [without (by rw [op]; rfl)]
    exact .returned agree trivial
  · rename_i op
    rw [without (by rw [op]; rfl)]
    generalize s.data i = arguments at within ⊢
    match arguments, within with
    | [d], within => exact .returned agree (within d mem_cons_self)
    | [], _ | _ :: _ :: _, _ => exact .returned agree trivial
  · rename_i op
    rw [without (by rw [op]; rfl)]
    exact .left trivial agree
  · rw [compute_renameIds,compute_rename within agree.memory]
    exact .next (agree.give retains.result (compute_within within))

/-- Parameters that the functions of both runs have. -/
def Transfer.Admits (τ : Transfer V) : List Id → List Instruction → Prop
  | _, [] => True
  | visible, p :: params =>
    (∀ r ∈ p.result?, τ.Fresh visible r ∧ τ.locals r) ∧
      τ.Admits (p.result?.toList ++ visible) params

namespace Agree

variable {m : Machine V} {depth : Nat}

theorem receive (agree : Agree τ visible s s') {p : Instruction} {argument : Option (Datum V)}
    (admits : ∀ r ∈ p.result?, τ.Fresh visible r ∧ τ.locals r)
    (within : ∀ d ∈ argument, d.Within τ.locals) :
    Agree τ (p.result?.toList ++ visible) (receive m depth p argument s)
      (receive m depth (renameIds τ.ids p) (argument.map (Datum.rename τ.ids)) s') := by
  unfold Execution.receive
  rw [result?_renameIds]
  cases result : p.result? with
  | none => exact agree
  | some r =>
    obtain ⟨fresh,owned⟩ := admits r result
    have own : (Cell.frame depth r).Within τ.locals := owned
    match argument, within with
    | some (.pointer c path), within => exact agree.bind fresh (within _ rfl)
    | some (.value v), _ => exact (agree.set own v).bind fresh own
    | none, _ => exact (agree.set own _).bind fresh own

theorem enter {params : List Instruction} : ∀ {visible : List Id} {arguments : List (Datum V)}
    {s s' : State V}, τ.Admits visible params → (∀ d ∈ arguments, d.Within τ.locals) →
      Agree τ visible s s' → Agree τ (results params ++ visible) (enter m depth params arguments s)
        (enter m depth (params.map (renameIds τ.ids)) (arguments.map (Datum.rename τ.ids)) s') := by
  induction params with
  | nil => exact fun _ _ agree => agree
  | cons p params ih =>
    intro visible arguments s s' admits within agree
    have first : Agree τ _ (Execution.receive m depth p arguments.head? s) _ :=
      agree.receive admits.1 fun d here => within d (mem_of_mem_head? here)
    have rest := ih admits.2 (fun d here => within d (mem_of_mem_tail here)) first
    grind [enter,head?_map,map_tail,mono,results_cons]

end Agree

def Transfer.block (τ : Transfer V) (b : Block) : Block := (b.filter τ.keeps).rename τ.ids

theorem Matches.exec {step step' : Instruction → State V → Result V}
    {again again' : Block → State V → Result V} {P : List Id → Instruction → Prop}
    (kept : ∀ visible i s s', P visible i → τ.keeps i = true → Agree τ visible s s' →
      Matches τ (i.result?.toList ++ visible) (step i s) (step' (renameIds τ.ids i) s'))
    (dropped : ∀ visible i s s', P visible i → τ.keeps i = false → Agree τ visible s s' →
      ∃ s₁, step i s = some (.next, s₁) ∧ Agree τ (i.result?.toList ++ visible) s₁ s')
    (turns : ∀ visible b s s', b.Each P τ.sees visible → Agree τ visible s s' →
      Matches τ visible (again b s) (again' (τ.block b) s'))
    (b : Block) : ∀ {visible s s'}, b.Each P τ.sees visible → Agree τ visible s s' →
      Matches τ visible (exec m step again b s) (exec m step' again' (τ.block b) s') := by
  have condition : ∀ {visible : List Id} {s s' : State V} {c : Id}, τ.sees visible c →
      Agree τ visible s s' → (s'.env (τ.ids c)).holds m = (s.env c).holds m := by
    intro visible s s' c seen agree
    rw [agree.env c seen,Datum.holds_rename]
  induction b with
  | done => exact fun _ agree => .next agree
  | plain i rest ih =>
    intro visible s s' each agree
    have le : visible ⊆ i.result?.toList ++ visible := subset_append_right _ _
    cases here : τ.keeps i with
    | true =>
      have block : τ.block (.plain i rest) = .plain (renameIds τ.ids i) (τ.block rest) := by
        simp [Transfer.block,Block.filter,here,Block.rename]
      rw [block]
      exact ((kept visible i s s' each.1 here agree).andThen fun _ _ => ih each.2).mono le
    | false =>
      have block : τ.block (.plain i rest) = τ.block rest := by
        simp [Transfer.block,Block.filter,here]
      obtain ⟨s₁,result,agree⟩ := dropped visible i s s' each.1 here agree
      rw [block,Execution.exec,result]
      exact (ih each.2 agree).mono le
  | ifThen c yes rest ihYes ih =>
    intro visible s s' each agree
    refine Matches.andThen ?_ fun _ _ => ih each.2.2
    rw [condition each.1 agree]
    split
    · exact ihYes each.2.1 agree
    · exact .next agree
  | ifElse c yes no rest ihYes ihNo ih =>
    intro visible s s' each agree
    refine Matches.andThen ?_ fun _ _ => ih each.2.2.2
    rw [condition each.1 agree]
    split
    · exact ihYes each.2.1 agree
    · exact ihNo each.2.2.1 agree
  | loop t body continuing rest ihBody ihContinuing ih =>
    intro visible s s' each agree
    refine Matches.andThen (Matches.leave ?_) fun _ _ => ih each.2.2
    refine Matches.onward (Matches.onward (ihBody each.1 agree) fun _ _ => ihContinuing each.2.1) ?_
    exact fun s s' => turns visible (.loop t body continuing .done) s s' ⟨each.1,each.2.1,trivial⟩

def Transfer.routine (τ : Transfer V) (r : Routine) : Routine := (r.filter τ.keeps).rename τ.ids

/-- An instruction is in both runs, or what it does is not seen in the other. -/
def Transfer.Treats (τ : Transfer V) (m : Machine V) (shapes shapes' : Id → Shape) (called : Id → Prop)
    (visible : List Id) (i : Instruction) : Prop :=
  if τ.keeps i then τ.Retains shapes shapes' called visible i
  else ∀ depth call s s', Agree τ visible s s' →
    ∃ s₁, step m shapes depth call i s = some (.next, s₁) ∧ Agree τ (i.result?.toList ++ visible) s₁ s'

/-- The second module is the first one as a transfer has it, in all functions that are called. -/
structure Transfer.Carries (τ : Transfer V) (m : Machine V) (t t' : Outline) (called : Id → Prop) :
    Prop where
  start : ∀ memory memory', (∀ c, c.Within τ.locals → memory' (c.rename τ.ids) = memory c) →
    Agree τ (results t.outside) ⟨(t.globals m).data, memory⟩ ⟨(t'.globals m).data, memory'⟩
  routine : ∀ f, called f → ∃ r, t.routine? f = some r ∧ t'.routine? (τ.ids f) = some (τ.routine r) ∧
    τ.Admits (results t.outside) r.params ∧
      r.body.Each (τ.Treats m (t.globals m).shapes (t'.globals m).shapes called) τ.sees
        (results r.params ++ results t.outside)
  main : ∃ f, called f ∧ t.mainId? = some f ∧ t'.mainId? = some (τ.ids f)

theorem Matches.back {inner visible : List Id} {s s' : State V} (along : Matches τ inner r r')
    (agree : Agree τ visible s s') :
    Matches τ visible (r.map fun (flow, s₁) => (flow, { s with memory := s₁.memory }))
      (r'.map fun (flow, s₁) => (flow, { s' with memory := s₁.memory })) := by
  cases along with
  | bound => exact .bound
  | left within inner =>
    exact .left within ⟨agree.env,agree.within,agree.lost,agree.fixed,inner.memory⟩

theorem Matches.seen (along : Matches τ visible r r') :
    (r'.map fun (flow, s) => (flow.ending, s.contents)) =
      r.map fun (flow, s) => (flow.ending, s.contents) := by
  cases along with
  | bound => rfl
  | @left flow s s' within agree =>
    have ending : (flow.rename τ.ids).ending = flow.ending := by cases flow <;> rfl
    have contents : s'.contents = s.contents := funext fun n => agree.memory (.shared n) trivial
    simp only [Option.map_some,ending,contents]

namespace Transfer.Carries

variable {m : Machine V} {t t' : Outline} {called : Id → Prop}

section

variable (carries : τ.Carries m t t' called)
include carries

theorem enter {r : Routine} {depth : Nat} {arguments : List (Datum V)} {memory : Cell → V}
    (admits : τ.Admits (results t.outside) r.params) (within : ∀ d ∈ arguments, d.Within τ.locals)
    (same : ∀ c, c.Within τ.locals → memory' (c.rename τ.ids) = memory c) :
    Agree τ (results r.params ++ results t.outside)
      (enter m depth r.params arguments ⟨(t.globals m).data, memory⟩)
      (enter m depth (τ.routine r).params (arguments.map (Datum.rename τ.ids))
        ⟨(t'.globals m).data, memory'⟩) :=
  Agree.enter admits within (carries.start memory memory' same)

theorem run (bound : Nat) : ∀ {depth visible s s'} (b : Block),
    b.Each (τ.Treats m (t.globals m).shapes (t'.globals m).shapes called) τ.sees visible →
      Agree τ visible s s' →
        Matches τ visible (t.run m bound depth b s) (t'.run m bound depth (τ.block b) s') := by
  induction bound with
  | zero => exact fun _ _ _ => .bound
  | succ bound ih =>
    intro depth visible s s' b each agree
    refine Matches.exec (fun visible i s s' treats here agree => ?_)
      (fun visible i s s' treats here agree => ?_) (fun visible b s s' => ih b) b each agree
    · rw [Treats,here,if_pos rfl] at treats
      refine Matches.step agree treats fun f call arguments within => ?_
      obtain ⟨r,first,second,admits,body⟩ := carries.routine f call
      rw [Outline.call,first,Outline.call,second]
      exact (ih r.body body (carries.enter admits within agree.memory)).back agree
    · rw [Treats,here,if_neg Bool.false_ne_true] at treats
      exact treats depth _ s s' agree

theorem behaves (init : Nat → V) (seen : Behavior V) :
    t'.Behaves m init seen ↔ t.Behaves m init seen := by
  obtain ⟨f,call,main,main'⟩ := carries.main
  obtain ⟨r,first,second,admits,body⟩ := carries.routine f call
  have same : ∀ c, c.Within τ.locals →
      (t'.start m init).memory (c.rename τ.ids) = (t.start m init).memory c := by
    intro c _
    cases c <;> rfl
  have outcomes : ∀ bound, t'.outcome m (τ.routine r) (t'.start m init) bound =
      t.outcome m r (t.start m init) bound := by
    intro bound
    have entered : Agree τ _ (Execution.enter m 0 r.params [] (t.start m init)) _ :=
      carries.enter admits (forall_mem_nil _) same
    exact (carries.run bound r.body body entered).seen
  simp only [Outline.Behaves,Outline.main?,main,main',Option.bind_some,first,second,outcomes,
    Option.some.injEq,exists_eq_left']

end

end Transfer.Carries

end Execution

end Shading.Bytecode
