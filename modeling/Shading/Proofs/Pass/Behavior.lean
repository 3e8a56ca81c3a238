import Shading.Proofs.Bytecode.Simulation
import Shading.Proofs.Pass.DeadFunctions
import Shading.Proofs.Pass.Naming
import Shading.Proofs.Pass.Unreachable

/-! Names, functions that are not called and code that is not reached do nothing, and a module does the
same under every numbering of its ids. -/
namespace Shading.Bytecode
open List Pass Execution Instruction Routine

variable {b : Block} {r : Routine} {i : Instruction} {visible : List Id}

namespace Block

variable {p q : List Id → Instruction → Prop} {c d : List Id → Id → Prop}

theorem Each.imp (weaker : ∀ visible i, p visible i → q visible i)
    (conditions : ∀ visible x, c visible x → d visible x) :
    ∀ {visible : List Id}, b.Each p c visible → b.Each q d visible := by
  induction b with
  | done => exact fun _ => trivial
  | plain i rest ih => exact fun each => ⟨weaker _ _ each.1,ih each.2⟩
  | ifThen x yes rest ihYes ih =>
    exact fun each => ⟨conditions _ _ each.1,ihYes each.2.1,ih each.2.2⟩
  | ifElse x yes no rest ihYes ihNo ih =>
    exact fun each => ⟨conditions _ _ each.1,ihYes each.2.1,ihNo each.2.2.1,ih each.2.2.2⟩
  | loop t body continuing rest ihBody ihContinuing ih =>
    exact fun each => ⟨ihBody each.1,ihContinuing each.2.1,ih each.2.2⟩

/-- What does not depend on visible ids holds if it holds of the code. -/
theorem each_of_code (all : ∀ i ∈ b.code, ∀ visible, p visible i)
    (conditions : ∀ x, ⟨.ifThen, [x]⟩ ∈ b.code → ∀ visible, c visible x) : b.Each p c visible := by
  have parts (b' : Block) : ∀ {visible : List Id}, b'.code ⊆ b.code → b'.Each p c visible := by
    induction b' with
    | done => exact fun _ => trivial
    | plain i rest ih =>
      exact fun sub => ⟨all i (sub (by simp [code])) _,ih fun j here => sub (by simp [code,here])⟩
    | ifThen x yes rest ihYes ih =>
      exact fun sub => ⟨conditions x (sub (by simp [code])) _,
        ihYes fun j here => sub (by simp [code,here]),ih fun j here => sub (by simp [code,here])⟩
    | ifElse x yes no rest ihYes ihNo ih =>
      exact fun sub => ⟨conditions x (sub (by simp [code])) _,
        ihYes fun j here => sub (by simp [code,here]),ihNo fun j here => sub (by simp [code,here]),
        ih fun j here => sub (by simp [code,here])⟩
    | loop t body continuing rest ihBody ihContinuing ih =>
      exact fun sub => ⟨ihBody fun j here => sub (by simp [code,here]),
        ihContinuing fun j here => sub (by simp [code,here]),ih fun j here => sub (by simp [code,here])⟩
  exact parts b (Subset.refl _)

end Block

namespace Outline

variable {V : Type} {m : Machine V} {t t' : Outline} {p : Instruction → Bool}

theorem routine?_eq_some {f : Id} (found : t.routine? f = some r) : r ∈ t.routines ∧ r.id = f := by
  refine ⟨mem_of_find?_eq_some found,?_⟩
  simpa using find?_some found

theorem exists_routine? (mem : r ∈ t.routines) : ∃ r', t.routine? r.id = some r' := by
  rw [← Option.isSome_iff_exists,routine?,find?_isSome]
  exact ⟨r,mem,by simp⟩

/-- What a module needs to run. -/
structure Runnable (t : Outline) : Prop where
  shaped : t.Shaped
  unique : (results t.code).Nodup
  closed : ∀ r ∈ t.routines, ∀ i ∈ r.code, i.references ⊆ results t.code
  calls : ∀ r ∈ t.routines, ∀ i ∈ r.code, ∀ f ∈ i.callee?, ∃ r' ∈ t.routines, r'.id = f
  main : ∃ r ∈ t.routines, t.mainId? = some r.id

theorem Trims.runnable (trims : t'.Trims t) (valid : t.Valid) (shaped : t.Shaped) : t'.Runnable := by
  have unique : (results t'.code).Nodup := (Sublist.filterMap _ trims.sub).nodup valid.unique
  -- A function that is defined is defined by the head of a function that is left.
  have function : ∀ f ∈ results t'.code, kindOf t.code f = some .function →
      ∃ r ∈ t'.routines, r.id = f := by
    intro f defined kind
    refine trims.shaped.routine_of_kindOf unique ?_
    rw [kindOf_sublist trims.sub valid.unique defined,kind]
  refine ⟨trims.shaped,unique,trims.closed,fun r' routine' i mem f called => ?_,?_⟩
  · obtain ⟨r,routine,here⟩ := trims.inside r' routine' i mem
    obtain ⟨r'',routine'',same⟩ := valid.routine_of_callee shaped routine here called
    refine function f (trims.closed r' routine' i mem (mem_references_iff.mpr (.inr called))) ?_
    have head : r''.head ∈ t.code :=
      mem_code.mpr (.inr ⟨r'',routine'',by simp [Routine.code]⟩)
    have shaped := shaped.routines r'' routine''
    rw [kindOf_of_mem valid.unique head (same ▸ shaped.defines),shaped.head]
  grind [Valid.entryPoint,Trims.entry,mainId?,Trims.outside,head?_filter]

theorem Valid.runnable (valid : t.Valid) (shaped : t.Shaped) : t.Runnable :=
  (valid.trims_self shaped).runnable valid shaped

theorem foldl_declare_filter (without : ∀ i : Instruction, p i = false → i.result? = none)
    (l : List Instruction) :
    ∀ g : Globals V, (l.filter p).foldl (Globals.declare m) g = l.foldl (Globals.declare m) g := by
  induction l with
  | nil => exact fun _ => rfl
  | cons i l ih =>
    intro g
    rw [filter_cons,foldl_cons]
    split
    · exact ih _
    · rename_i fails
      rw [ih,Globals.declare,without i (by simpa using fails)]

theorem behaves_congr (routines : t'.routines = t.routines) (globals : t'.globals m = t.globals m)
    (main : t'.mainId? = t.mainId?) (init : Nat → V) (seen : Behavior V) :
    t'.Behaves m init seen ↔ t.Behaves m init seen := by
  have found : t'.routine? = t.routine? := by
    funext f
    rw [routine?,routines,routine?]
  have runs : ∀ bound, t'.run m bound = t.run m bound := by
    intro bound
    induction bound with
    | zero => rfl
    | succ bound ih =>
      funext depth b s
      have calls : t'.call m (depth + 1) = t.call m (depth + 1) := by
        funext run f arguments s
        rw [call,call,found,globals]
      rw [run,run,ih,calls,globals]
  have starts : t'.start m init = t.start m init := by rw [start,start,globals]
  have outcomes : t'.outcome m = t.outcome m := by
    funext r s bound
    rw [outcome,outcome,runs]
  rw [Behaves,Behaves,main?,main?,main,found,starts,outcomes]

theorem behaves_filter (without : ∀ i : Instruction, p i = false → i.result? = none)
    (entry : (t.outside.filter fun i => i.op == .entryPoint).length = 1)
    (entry' : ((t.outside.filter p).filter fun i => i.op == .entryPoint).length = 1)
    (init : Nat → V) (seen : Behavior V) :
    Behaves { t with outside := t.outside.filter p } m init seen ↔ t.Behaves m init seen := by
  refine behaves_congr ?_ ?_ ?_ init seen
  · rfl
  · exact foldl_declare_filter without _ _
  · have same := (Sublist.filter (fun i : Instruction => i.op == .entryPoint)
      filter_sublist).eq_of_length (entry'.trans entry.symm)
    rw [mainId?,mainId?,← head?_filter,← head?_filter,same]

theorem Trims.behaves_prune (trims : t'.Trims t) (valid : t.Valid) (init : Nat → V)
    (seen : Behavior V) : t'.prune.Behaves m init seen ↔ t'.Behaves m init seen := by
  refine behaves_filter ?_ (trims.outside ▸ valid.entry) (trims.valid valid).entry init seen
  rintro ⟨op,operands⟩ stale
  cases op <;> first | rfl | cases stale

theorem Valid.behaves_unname (valid : t.Valid) (shaped : t.Shaped) (init : Nat → V)
    (seen : Behavior V) : t.unname.Behaves m init seen ↔ t.Behaves m init seen := by
  refine behaves_filter ?_ valid.entry (valid.unname shaped).entry init seen
  rintro ⟨op,operands⟩ names
  cases op <;> first | rfl | cases names

theorem routine?_map {g : Routine → Routine} {f : Id → Id} {outside : List Instruction}
    (renamed : ∀ r ∈ t.routines, (g r).id = f r.id) {x : Id}
    (apart : ∀ r ∈ t.routines, f r.id = f x → r.id = x) :
    routine? ⟨outside, t.routines.map g⟩ (f x) = (t.routine? x).map g := by
  unfold routine?
  dsimp only
  generalize t.routines = routines at renamed apart
  induction routines with
  | nil => rfl
  | cons r routines ih =>
    grind

end Outline

section Reached

variable {V : Type} {m : Machine V}

theorem andThen_step (terminator : i.op.isTerminator = true) (shapes : Id → Shape) (depth : Nat)
    (call : Id → List (Datum V) → State V → Result V) (s : State V) (k : State V → Result V) :
    Result.andThen (step m shapes depth call i s) k = step m shapes depth call i s := by
  obtain ⟨op,operands⟩ := i
  cases op <;> first | rfl | cases terminator
  unfold step
  dsimp only
  split <;> rfl

theorem exec_reach {step : Instruction → State V → Result V} {again again' : Block → State V → Result V}
    (stops : ∀ i s k, i.op.isTerminator = true → Result.andThen (step i s) k = step i s)
    (turns : ∀ b s, again' b.reach s = again b s) (b : Block) :
    ∀ s, exec m step again' b.reach s = exec m step again b s := by
  induction b with
  | done => exact fun _ => rfl
  | plain i rest ih =>
    intro s
    rw [Block.reach,exec,exec]
    cases terminator : i.op.isTerminator with
    | true => rw [stops i s _ terminator,stops i s _ terminator]
    | false => rw [if_neg Bool.false_ne_true,funext ih]
  | ifThen c yes rest ihYes ih => exact fun s => by rw [Block.reach,exec,exec,ihYes,funext ih]
  | ifElse c yes no rest ihYes ihNo ih =>
    exact fun s => by rw [Block.reach,exec,exec,ihYes,ihNo,funext ih]
  | loop t body continuing rest ihBody ihContinuing ih =>
    intro s
    have turn : again' (.loop t body.reach continuing.reach .done) =
        again (.loop t body continuing .done) := funext (turns (.loop t body continuing .done))
    rw [Block.reach,exec,exec,ihBody,funext ihContinuing,funext ih,turn]

namespace Outline

variable {t : Outline}

theorem routine?_reach (x : Id) : t.reach.routine? x = (t.routine? x).map Routine.reach :=
  routine?_map (t := t) (g := Routine.reach) (f := id) (fun _ _ => rfl) fun _ _ same => same

theorem run_reach (bound : Nat) : ∀ (depth : Nat) (b : Block) (s : State V),
    t.reach.run m bound depth b.reach s = t.run m bound depth b s := by
  induction bound with
  | zero => exact fun _ _ _ => rfl
  | succ bound ih =>
    intro depth b s
    have calls : t.reach.call m (depth + 1) (t.reach.run m bound (depth + 1)) =
        t.call m (depth + 1) (t.run m bound (depth + 1)) := by
      funext f arguments s
      rw [call,call,routine?_reach]
      cases t.routine? f with
      | none => rfl
      | some r =>
        dsimp only [Option.map_some]
        rw [Routine.reach,ih]
        rfl
    rw [run,run,calls]
    exact exec_reach (fun i s k terminator => andThen_step terminator _ _ _ s k) (ih depth) b s

theorem behaves_reach (init : Nat → V) (seen : Behavior V) :
    t.reach.Behaves m init seen ↔ t.Behaves m init seen := by
  have outcomes : ∀ (r : Routine) s bound, t.reach.outcome m r.reach s bound = t.outcome m r s bound := by
    intro r s bound
    rw [outcome,outcome,Routine.reach,run_reach]
  have main : t.reach.main? = t.main?.map Routine.reach := by
    rw [main?,main?,funext routine?_reach,Option.map_bind]
    rfl
  have starts : t.reach.start m init = t.start m init := rfl
  grind [Behaves,Option.map_eq_some_iff]

end Outline

end Reached

namespace Execution

variable {V : Type} {m : Machine V} {d : Datum V}

theorem Datum.rename_eq_self (shared : d.Within fun _ => False) (f : Id → Id) : d.rename f = d := by
  match d with
  | .value _ => rfl
  | .pointer (.shared _) _ => rfl
  | .pointer (.frame _ _) _ => exact shared.elim

theorem Datum.Within.mono {locals locals' : Id → Prop} (within : d.Within locals)
    (le : ∀ x, locals x → locals' x) : d.Within locals' := by
  match d with
  | .value _ => trivial
  | .pointer (.shared _) _ => trivial
  | .pointer (.frame _ x) _ => exact le x within

namespace Globals

theorem declare_shared {g : Globals V} (shared : ∀ x, (g.data x).Within fun _ => False)
    (i : Instruction) : ∀ x, ((g.declare m i).data x).Within fun _ => False := by
  intro x
  have bound : ∀ r d, d.Within (fun _ => False) → ((g.bind r d).data x).Within fun _ => False := by
    intro r d within
    dsimp only [bind]
    split
    · exact within
    · exact shared x
  unfold declare
  split
  · exact shared x
  · split
    · exact bound _ _ trivial
    · exact bound _ _ trivial
    · exact bound _ _ trivial
    · split <;> exact shared x

theorem foldl_declare_of_not_mem {x : Id} (l : List Instruction) : ∀ {g : Globals V}, x ∉ results l →
    (l.foldl (declare m) g).shapes x = g.shapes x ∧ (l.foldl (declare m) g).data x = g.data x := by
  induction l with
  | nil => exact fun _ => ⟨rfl,rfl⟩
  | cons i l ih =>
    intro g absent
    rw [results_cons,mem_append,not_or] at absent
    rw [foldl_cons,(ih absent.2).1,(ih absent.2).2]
    have other : ∀ r, i.result? = some r → x ≠ r := by
      rintro r result rfl
      exact absent.1 (by simp [result])
    unfold declare
    grind [bind]

theorem foldl_declare_shared (l : List Instruction) : ∀ {g : Globals V},
    (∀ x, (g.data x).Within fun _ => False) →
      ∀ x, ((l.foldl (declare m) g).data x).Within fun _ => False := by
  induction l with
  | nil => exact fun shared => shared
  | cons i l ih => exact fun shared => ih (declare_shared shared i)

end Globals

end Execution

namespace Outline

variable {V : Type} {m : Machine V} {t t' : Outline}

theorem globals_shared (x : Id) : ((t.globals m).data x).Within fun _ => False :=
  Globals.foldl_declare_shared (g := .empty m) t.outside (fun _ => trivial) x

/-- Every id stands for the same under its new name. -/
def transfer (V : Type) {f : Id → Id} (apart : t.Apart f) : Transfer V where
  ids := f
  keeps _ := true
  locals x := x ∈ results t.code
  lost _ := False
  fixed _ _ := False
  sees _ x := x ∈ results t.code
  locals_apart := fun here there same => apart _ here _ there same
  sees_mono := fun _ seen => seen

section Transfer

variable {f : Id → Id} {apart : t.Apart f}

theorem transfer_routine (r : Routine) : (transfer V apart).routine r = r.rename f := by
  rw [Transfer.routine,transfer,Routine.filter,Block.filter_true]

theorem transfer_fresh {r : Id} (defined : r ∈ results t.code) :
    (transfer V apart).Fresh visible r :=
  ⟨fun x seen other same => other (apart x seen r defined same),fun _ seen => .inr seen,id,
    fun _ => id⟩

theorem transfer_admits {params : List Instruction} : ∀ {visible : List Id},
    results params ⊆ results t.code → (transfer V apart).Admits visible params := by
  induction params with
  | nil => exact fun _ => trivial
  | cons p params ih =>
    intro visible defined
    rw [results_cons,append_subset] at defined
    refine ⟨fun r result => ?_,ih defined.2⟩
    have here : r ∈ results t.code := defined.1 (by simpa using result)
    exact ⟨transfer_fresh here,here⟩

/-- A module whose functions are those that are called under new names. -/
theorem Runnable.carries (runnable : t.Runnable) {called : Id → Prop}
    (shapes : ∀ x ∈ results t.code, (t'.globals m).shapes (f x) = (t.globals m).shapes x)
    (data : ∀ x ∈ results t.code, (t'.globals m).data (f x) = (t.globals m).data x)
    (routines : ∀ x, called x → ∃ r, t.routine? x = some r ∧ t'.routine? (f x) = some (r.rename f) ∧
      ∀ i ∈ r.code, ∀ c ∈ i.callee?, called c)
    (main : ∃ x, called x ∧ t.mainId? = some x ∧ t'.mainId? = some (f x)) :
    (transfer V apart).Carries m t t' called := by
  refine ⟨fun memory memory' same => ?_,fun x call => ?_,main⟩
  · refine ⟨fun x seen => ?_,fun x _ => ?_,fun _ lost => lost.elim,fun _ _ fixed => fixed.elim,same⟩
    · exact (data x seen).trans (Datum.rename_eq_self (globals_shared x) f).symm
    · exact (globals_shared x).mono fun _ none => none.elim
  · obtain ⟨r,found,found',calls⟩ := routines x call
    obtain ⟨mem,-⟩ := routine?_eq_some found
    have inside : ∀ i ∈ r.body.code, i ∈ r.code := fun i here => by simp [Routine.code,here]
    have defined : ∀ i ∈ r.code, ∀ x ∈ i.result?, x ∈ results t.code := fun i here x result =>
      results_subset mem (mem_results.mpr ⟨i,here,result⟩)
    have closed : ∀ i ∈ r.code, ∀ x ∈ i.mentions, x ∈ results t.code := fun i here x mentioned =>
      runnable.closed r mem i here (mem_references_iff.mpr (.inl mentioned))
    refine ⟨r,found,found'.trans (congrArg some (transfer_routine r).symm),transfer_admits ?_,?_⟩
    · grind [mem_results,Routine.code]
    · refine Block.each_of_code (fun i here visible => ?_) fun c here _ => ?_
      · have here := inside i here
        rw [Transfer.Treats,transfer,if_pos rfl]
        refine ⟨closed i here,fun ty ofType => shapes ty ?_,
          fun r result => transfer_fresh (defined i here r result),fun _ => defined i here,calls i here⟩
        exact runnable.closed r mem i here (resultType?_mem_references ofType)
      · exact closed _ (inside _ here) c (by simp [mentions,refersAt])

end Transfer

theorem Valid.behaves_keep (valid : t.Valid) (shaped : t.Shaped) (inside : t.Scoped) (init : Nat → V)
    (seen : Behavior V) : (t.keep t.live).Behaves m init seen ↔ t.Behaves m init seen := by
  have apart : t.Apart id := fun _ _ _ _ same => same
  have carries : (transfer V apart).Carries m t (t.keep t.live)
      fun x => x ∈ t.live ∧ ∃ r ∈ t.routines, r.id = x := by
    refine (valid.runnable shaped).carries (fun _ _ => rfl) (fun _ _ => rfl) ?_ ?_
    · rintro x ⟨live,r,mem,rfl⟩
      obtain ⟨r',found⟩ := exists_routine? mem
      obtain ⟨member',same⟩ := routine?_eq_some found
      have left : (t.keep t.live).routine? (id r.id) = some (r'.rename id) := by
        grind [renameRoutine_id,routine?,keep]
      refine ⟨r',found,left,fun i here c called => ?_⟩
      obtain ⟨r'',routine,rfl,live⟩ := valid.live_closed shaped member' (same ▸ live) here called
      exact ⟨live,r'',routine,rfl⟩
    · obtain ⟨r,mem,main⟩ := ((valid.keep_trims shaped inside).runnable valid shaped).main
      obtain ⟨routine,live⟩ := mem_keep.mp mem
      exact ⟨r.id,⟨live,r,routine,rfl⟩,main,main⟩
  exact carries.behaves init seen

end Outline

namespace Execution.Globals

variable {V : Type} {m : Machine V}

/-- Ids stand for the same under their new names. -/
structure Renames (f : Id → Id) (ids : List Id) (g g' : Globals V) : Prop where
  shapes : ∀ x ∈ ids, g'.shapes (f x) = g.shapes x
  data : ∀ x ∈ ids, g'.data (f x) = g.data x
  count : g'.count = g.count

variable {f : Id → Id} {ids : List Id} {g g' : Globals V}

section

variable (same : Renames f ids g g')
include same

theorem Renames.bind (apart : ∀ x ∈ ids, ∀ y ∈ ids, f x = f y → x = y) {r : Id} (defined : r ∈ ids)
    (d : Datum V) : Renames f ids (g.bind r d) (g'.bind (f r) d) := by
  refine ⟨same.shapes,fun x here => ?_,same.count⟩
  grind [bind,Renames.data]

theorem Renames.constant (closed : i.references ⊆ ids) :
    g'.constant m (renameIds f i) = g.constant m i := by
  have shape : ((renameIds f i).resultType?.map g'.shapes).getD .unknown =
      (i.resultType?.map g.shapes).getD .unknown := by
    grind [resultType?_renameIds,resultType?,Renames.shapes,resultType?_mem_references]
  have arguments : ((renameIds f i).arguments.map fun x => (g'.data x).get m) =
      i.arguments.map fun x => (g.data x).get m := by
    grind [arguments_renameIds,map_congr_left,mem_references_iff,arguments_subset,Renames.data]
  simp only [Globals.constant,renameIds_op,literals_renameIds,shape,arguments]

theorem Renames.declare (apart : ∀ x ∈ ids, ∀ y ∈ ids, f x = f y → x = y)
    (closed : i.result?.isSome = true → i.references ⊆ ids) (defined : ∀ r ∈ i.result?, r ∈ ids) :
    Renames f ids (g.declare m i) (g'.declare m (renameIds f i)) := by
  unfold Globals.declare
  rw [result?_renameIds]
  cases result : i.result? with
  | none => exact same
  | some r =>
    have closed := closed (by rw [result]; rfl)
    have here := defined r result
    simp only [Option.map_some,renameIds_op,literals_renameIds,references_renameIds,map_map]
    split
    · rw [same.count]
      have bound := same.bind apart here (.pointer (.shared g.count) [])
      exact ⟨bound.shapes,bound.data,rfl⟩
    · rw [same.constant closed]
      exact same.bind apart here _
    · rw [same.constant closed]
      exact same.bind apart here _
    · split
      · have parts : i.references.map (g'.shapes ∘ f) = i.references.map g.shapes :=
          map_congr_left fun x mentioned => same.shapes x (closed mentioned)
        rw [parts]
        refine ⟨fun x known => ?_,same.data,same.count⟩
        by_cases eq : x = r
        · simp [eq]
        · have other : f x ≠ f r := fun eq' => eq (apart x known r here eq')
          simp [eq,other,same.shapes x known]
      · exact same

end

theorem Renames.foldl (l : List Instruction) : ∀ {g g' : Globals V}, Renames f ids g g' →
    (∀ x ∈ ids, ∀ y ∈ ids, f x = f y → x = y) →
      (∀ i ∈ l, i.result?.isSome = true → i.references ⊆ ids) → (∀ i ∈ l, ∀ r ∈ i.result?, r ∈ ids) →
        Renames f ids (l.foldl (Globals.declare m) g)
          ((l.map (renameIds f)).foldl (Globals.declare m) g') := by
  induction l with
  | nil => exact fun same _ _ _ => same
  | cons i l ih =>
    intro g g' same apart closed defined
    rw [forall_mem_cons] at closed defined
    exact ih (same.declare apart closed.1 defined.1) apart closed.2 defined.2

end Execution.Globals

namespace Outline

variable {V : Type} {m : Machine V} {t : Outline} {f : Id → Id}

theorem Valid.globals_rename (valid : t.Valid) (shaped : t.Shaped) (apart : t.Apart f) :
    (t.globals m).Renames f (results t.code) ((t.rename f).globals m) := by
  refine Globals.Renames.foldl t.outside ⟨fun _ _ => rfl,fun _ _ => rfl,rfl⟩ apart
    (fun i mem _ => valid.closed shaped i (mem_code.mpr (.inl mem))) fun i mem r result => ?_
  exact mem_results.mpr ⟨i,mem_code.mpr (.inl mem),result⟩

/-- A module does the same under other names. -/
theorem Valid.behaves_rename (valid : t.Valid) (shaped : t.Shaped) (apart : t.Apart f) (init : Nat → V)
    (seen : Behavior V) : (t.rename f).Behaves m init seen ↔ t.Behaves m init seen := by
  have runnable := valid.runnable shaped
  have globals : (t.globals m).Renames f (results t.code) ((t.rename f).globals m) :=
    valid.globals_rename shaped apart
  have defined : ∀ r ∈ t.routines, r.id ∈ results t.code := fun r mem =>
    results_subset mem (results_code (shaped.routines r mem) ▸ mem_cons_self)
  have carries : (transfer V apart).Carries m t (t.rename f) fun x => ∃ r ∈ t.routines, r.id = x := by
    refine runnable.carries globals.shapes globals.data ?_ ?_
    · rintro x ⟨r,mem,rfl⟩
      obtain ⟨r',found⟩ := exists_routine? mem
      obtain ⟨member',-⟩ := routine?_eq_some found
      have renamed : (t.rename f).routine? (f r.id) = (t.routine? r.id).map (Routine.rename f) :=
        routine?_map (fun q routine => id_rename f (shaped.routines q routine))
          fun q routine same => apart _ (defined q routine) _ (defined r mem) same
      exact ⟨r',found,by rw [renamed,found]; rfl,runnable.calls r' member'⟩
    · obtain ⟨r,mem,main⟩ := runnable.main
      refine ⟨r.id,⟨r,mem,rfl⟩,main,?_⟩
      obtain ⟨i,found,head⟩ := Option.bind_eq_some_iff.mp main
      have op : i.op = .entryPoint := by simpa using find?_some found
      have test : (fun i : Instruction => i.op == .entryPoint) ∘ renameIds f =
          fun i => i.op == .entryPoint := rfl
      rw [mainId?,Outline.rename,find?_map,test,found]
      grind [List.head?_eq_getElem?,getElem?_renameIds,refersAt]
  exact carries.behaves init seen

end Outline

end Shading.Bytecode
