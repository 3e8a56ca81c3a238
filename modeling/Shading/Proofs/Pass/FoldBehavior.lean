import Shading.Proofs.Pass.Behavior
import Shading.Proofs.Pass.Fold

/-! An operation on constants can be left out if its result is seen as the constant that it computes, and a
choice with a constant condition if its result is seen as what is chosen. -/
namespace Shading.Bytecode
open List Pass Execution Instruction

variable {r : Routine}

/-- Along a block that is well scoped, new ids come to what is visible, and what is visible may keep an
invariant. -/
theorem Block.Scoped.each {b : Block} {known : Instruction → Prop} {invariant : List Id → Prop}
    (grows : ∀ visible i, known i → i.mentions ⊆ visible → invariant visible → invariant (i.result?.toList ++ visible)) :
    ∀ {visible : List Id}, b.Scoped visible → (results b.code).Nodup →
      (∀ x ∈ results b.code, x ∉ visible) → (∀ i ∈ b.code, known i) → invariant visible →
        b.Each (fun visible i => known i ∧ i.mentions ⊆ visible ∧ (∀ r ∈ i.result?, r ∉ visible) ∧
          invariant visible) (fun visible x => x ∈ visible) visible := by
  induction b with
  | done => exact fun _ _ _ _ _ => trivial
  | plain i rest ih =>
    intro visible inside unique new all holds
    rw [Block.results_plain] at unique new
    obtain ⟨-,unique,apart⟩ := nodup_append.mp unique
    refine ⟨⟨all i (by simp [code]),inside.1,fun r result => new r (by simp_all),holds⟩,
      ih inside.2 unique (fun x here => ?_) (fun j here => all j (by simp [code,here]))
        (grows visible i (all i (by simp [code])) inside.1 holds)⟩
    rw [mem_append,not_or]
    exact ⟨fun before => apart x before x here rfl,new x (mem_append_right _ here)⟩
  | ifThen c yes rest ihYes ih =>
    intro visible inside unique new all holds
    rw [Block.results_ifThen] at unique new
    obtain ⟨first,second,-⟩ := nodup_append.mp unique
    rw [forall_mem_append] at new
    exact ⟨inside.1,ihYes inside.2.1 first new.1 (fun j here => all j (by simp [code,here])) holds,
      ih inside.2.2 second new.2 (fun j here => all j (by simp [code,here])) holds⟩
  | ifElse c yes no rest ihYes ihNo ih =>
    intro visible inside unique new all holds
    rw [Block.results_ifElse] at unique new
    obtain ⟨first,others,-⟩ := nodup_append.mp unique
    obtain ⟨second,third,-⟩ := nodup_append.mp others
    rw [forall_mem_append,forall_mem_append] at new
    exact ⟨inside.1,ihYes inside.2.1 first new.1 (fun j here => all j (by simp [code,here])) holds,
      ihNo inside.2.2.1 second new.2.1 (fun j here => all j (by simp [code,here])) holds,
      ih inside.2.2.2 third new.2.2 (fun j here => all j (by simp [code,here])) holds⟩
  | loop t body continuing rest ihBody ihContinuing ih =>
    intro visible inside unique new all holds
    rw [Block.results_loop] at unique new
    obtain ⟨first,others,-⟩ := nodup_append.mp unique
    obtain ⟨second,third,-⟩ := nodup_append.mp others
    rw [forall_mem_append,forall_mem_append] at new
    exact ⟨ihBody inside.1 first new.1 (fun j here => all j (by simp [code,here])) holds,
      ihContinuing inside.2.1 second new.2.1 (fun j here => all j (by simp [code,here])) holds,
      ih inside.2.2 third new.2.2 (fun j here => all j (by simp [code,here])) holds⟩

section Constants

variable {V : Type} {m : Machine V} {l : List Instruction}

theorem Typed.shape (unique : (results l).Nodup) {ty : Id} {kind : Scalar} (typed : Typed l ty kind)
    (g : Globals V) : ((l.foldl (Globals.declare m) g).shapes ty).scalar? = some kind := by
  obtain ⟨i,mem,declares⟩ := typed
  obtain ⟨before,after,rfl⟩ := append_of_mem mem
  rw [results_append,results_cons] at unique
  have later : i.result? = some ty → ty ∉ results after := by
    intro result
    have rest := (nodup_append.mp unique).2.1
    rw [result] at rest
    exact (nodup_cons.mp rest).1
  rw [foldl_append,foldl_cons]
  obtain ⟨rest,rfl,rfl⟩ | ⟨rest,rfl,rfl⟩ | ⟨sign,rest,rfl,rfl⟩ :=
    scalar?_eq_some declares
  all_goals
    rw [(Globals.foldl_declare_of_not_mem after (later rfl)).1]
    simp [Globals.declare,result?,resultPosition?,Opcode.hasResultType,
      Opcode.isType,Shape.scalar?,literals,refersAt,zipIdx_cons]

theorem Known.datum (unique : (results l).Nodup) (ordered : Ordered [] l) {x : Id} {c : Const}
    (known : Known l x c) (g : Globals V) :
    (l.foldl (Globals.declare m) g).data x = .value (m.scalar c) := by
  obtain ⟨ty,word,rest,mem,kind,typed,rfl⟩ := known
  have shape := typed.shape (m := m) unique g
  obtain ⟨before,after,rfl⟩ := append_of_mem mem
  have first : ty ∈ results before := by
    have here := (ordered_append.mp ordered).2.1 rfl
    have mentioned : ty ∈ (⟨.constant,ty :: x :: word :: rest⟩ : Instruction).references :=
      mem_references.mpr ⟨0,rfl,rfl⟩
    simpa using here mentioned
  rw [results_append,results_cons] at unique
  obtain ⟨-,second,apart⟩ := nodup_append.mp unique
  have later : x ∉ results after := (nodup_cons.mp second).1
  have same : ty ∉ results (⟨.constant,ty :: x :: word :: rest⟩ :: after) := by
    intro again
    rw [results_cons] at again
    exact apart ty first ty again rfl
  rw [foldl_append,(Globals.foldl_declare_of_not_mem _ same).1] at shape
  rw [foldl_append,foldl_cons,(Globals.foldl_declare_of_not_mem after later).2]
  generalize before.foldl (Globals.declare m) g = g at shape ⊢
  simp [Globals.declare,Globals.bind,Globals.constant,result?,resultType?,
    resultPosition?,literals,refersAt,Opcode.hasResultType,shape]

theorem arguments_append (op : Opcode) (front : List UInt32) {rest : List UInt32}
    (late : ∀ p, front.length ≤ p → refersAt ⟨op, front⟩ p = false) :
    arguments ⟨op, front ++ rest⟩ = arguments ⟨op, front⟩ := by
  have mentions : mentions ⟨op,front ++ rest⟩ = mentions ⟨op,front⟩ := by
    unfold mentions
    rw [zipIdx_append,filter_append,map_append]
    refine (congrArg _ ?_).trans (append_nil _)
    grind [filter_eq_nil_iff,refersAt]
  rw [arguments,arguments,mentions]

theorem Folds.compute {i : Instruction} {v : Id} (folds : Folds l i v) {shapes : Id → Shape}
    (types : ∀ {ty kind}, Typed l ty kind → (shapes ty).scalar? = some kind) {s : State V}
    (constants : ∀ {x c}, Known l x c → s.env x = .value (m.scalar c)) :
    compute m ((i.resultType?.map shapes).getD .unknown) s.memory i (s.data i) = s.env v := by
  cases folds with
  | @select ty r x a b rest cond condition =>
    have arguments : arguments ⟨.select,ty :: r :: x :: a :: b :: rest⟩ = [x,a,b] :=
      arguments_append .select [ty,r,x,a,b] fun p late => by
        grind [refersAt]
    grind [compute,State.data,Datum.holds,Datum.get,Machine.truth_scalar]
  | @binary ty r w x y v rest op left right c operator first second computed typed value =>
    have arguments : arguments ⟨.binary,ty :: r :: w :: x :: y :: rest⟩ = [x,y] :=
      arguments_append .binary [ty,r,w,x,y] fun p late => by
        grind [refersAt]
    obtain ⟨more,literals⟩ : ∃ more,
        literals ⟨.binary,ty :: r :: w :: x :: y :: rest⟩ = w :: more := ⟨_,rfl⟩
    simp only [Execution.compute,State.data,arguments,literals,map_cons,map_nil,
      constants first,constants second,constants value,Datum.get]
    exact congrArg _ (m.apply_binary operator computed (types typed))
  | @unary ty r w x v rest op operand c operator first computed typed value =>
    have arguments : arguments ⟨.unary,ty :: r :: w :: x :: rest⟩ = [x] :=
      arguments_append .unary [ty,r,w,x] fun p late => by
        grind [refersAt]
    obtain ⟨more,literals⟩ : ∃ more,
        literals ⟨.unary,ty :: r :: w :: x :: rest⟩ = w :: more := ⟨_,rfl⟩
    simp only [Execution.compute,State.data,arguments,literals,map_cons,map_nil,
      constants first,constants value,Datum.get]
    exact congrArg _ (m.apply_unary operator computed (types typed))
  | @construct ty r x v operand kind first typed value =>
    have arguments : arguments ⟨.construct,[ty,r,x]⟩ = [x] := rfl
    have literals : literals ⟨.construct,[ty,r,x]⟩ = [] := rfl
    simp only [Execution.compute,State.data,arguments,literals,map_cons,map_nil,
      constants first,constants value,Datum.get]
    exact congrArg _ (m.apply_construct (types typed))

end Constants

namespace Outline

variable {V : Type} {m : Machine V} {t : Outline} {visible : List Id}

def foldTransfer (m : Machine V) (t : Outline) : Transfer V where
  ids := t.folding.subst
  keeps := t.folding.keeps
  locals x := t.folding.subst x = x
  lost _ := False
  fixed x d := ∃ c, Known t.fold.outside x c ∧ d = .value (m.scalar c)
  sees visible x := x ∈ visible
  locals_apart := fun here there same => here.symm.trans (same.trans there)
  sees_mono := fun le seen => le seen

/-- What is visible is seen as something visible, or as a constant. -/
def Settled (t : Outline) (visible : List Id) : Prop :=
  ∀ x ∈ visible, t.folding.subst x ∈ visible ∨ t.folding.subst x ∈ results t.fold.outside

variable {i : Instruction}

theorem Valid.folds_of_keeps (valid : t.Valid) (shaped : t.Shaped) (mem : i ∈ t.inside)
    (deleted : t.folding.keeps i = false) : ∃ r, i.result? = some r ∧
      Folds t.fold.outside (t.folding.rename i) (t.folding.subst r) := by
  rw [Folding.keeps,Option.all_eq_false] at deleted
  obtain ⟨r,result,found⟩ := deleted
  rw [Option.isNone_eq_false_iff] at found
  obtain ⟨v,found⟩ := Option.isSome_iff_exists.mp found
  obtain ⟨j,here,result',folds⟩ := valid.folds shaped found
  obtain rfl := eq_of_result valid.unique (mem_append_right _ mem)
    (mem_append_right _ here) result result'
  refine ⟨r,result,?_⟩
  rw [Folding.subst,found]
  exact folds

theorem subst_of_keeps (kept : t.folding.keeps i = true) {r : Id} (result : i.result? = some r) :
    t.folding.subst r = r := by
  rw [Folding.keeps,result] at kept
  exact Folding.subst_of_lookup_none (by simpa using kept)

section

variable (valid : t.Valid) (shaped : t.Shaped)
include valid shaped

theorem Settled.grows (mem : i ∈ t.inside) (mentions : i.mentions ⊆ visible)
    (settled : t.Settled visible) : t.Settled (i.result?.toList ++ visible) := by
  intro x seen
  rcases mem_append.mp seen with here | before
  · have result : i.result? = some x := by simpa using here
    cases kept : t.folding.keeps i with
    | true => exact .inl (by rwa [subst_of_keeps kept result])
    | false =>
      obtain ⟨r,result',folds⟩ := valid.folds_of_keeps shaped mem kept
      obtain rfl : x = r := Option.some.inj (result.symm.trans result')
      rcases folds.mem with mentioned | constant
      · -- What is chosen was visible, under the name that it has now.
        have noCall : i.callee? = none := by
          have computed : i.op.isComputed = true := folds.isComputed
          rw [callee?,if_neg]
          intro call
          rw [call] at computed
          cases computed
        rw [Folding.rename,references_renameIds] at mentioned
        obtain ⟨y,referred,same⟩ := mem_map.mp mentioned
        rcases mem_references_iff.mp referred with mentioned | called
        · by_cases again : some y = i.result?
          · simp_all
          · rw [if_neg again] at same
            rw [← same]
            exact (settled y (mentions mentioned)).imp_left (mem_append_right _)
        · rw [noCall] at called
          cases called
      · exact .inr constant
  · exact (settled x before).imp_left (mem_append_right _)

theorem Valid.not_mem_outside (room : t.Roomy) (mem : i ∈ t.inside)
    (kept : t.folding.keeps i = true) {r : Id} (result : i.result? = some r) :
    r ∉ results t.fold.outside := by
  have unique := valid.nodup_fold shaped room
  have whole : t.fold.code = t.fold.outside ++ t.fold.inside := rfl
  grind [results_append,Valid.results_fold_inside,mem_results]

theorem Valid.fold_fresh (room : t.Roomy) (mem : i ∈ t.inside) (kept : t.folding.keeps i = true)
    {r : Id} (result : i.result? = some r) (new : r ∉ visible) (settled : t.Settled visible) :
    (foldTransfer m t).Fresh visible r := by
  have outside := valid.not_mem_outside shaped room mem kept result
  have same : t.folding.subst r = r := subst_of_keeps kept result
  refine ⟨fun x seen _ => ?_,fun x => mem_cons.mp,id,?_⟩
  · intro eq
    have eq : t.folding.subst x = r := eq.trans same
    rcases settled x seen with here | constant
    · exact new (eq ▸ here)
    · exact outside (eq ▸ constant)
  · rintro d ⟨c,known,-⟩
    have known : Known t.fold.outside (t.folding.subst r) c := known
    rw [same] at known
    exact outside known.mem_results

theorem Valid.fold_admits (room : t.Roomy) {params : List Instruction} : ∀ {visible : List Id},
      (∀ p ∈ params, p ∈ t.inside ∧ t.folding.keeps p = true ∧ p.mentions ⊆ visible) →
        (results params).Nodup → (∀ x ∈ results params, x ∉ visible) → t.Settled visible →
          (foldTransfer m t).Admits visible params ∧ t.Settled (results params ++ visible) := by
  induction params with
  | nil => exact fun _ _ _ settled => ⟨trivial,settled⟩
  | cons p params ih =>
    intro visible all unique new settled
    rw [forall_mem_cons] at all
    obtain ⟨⟨mem,kept,mentions⟩,later⟩ := all
    rw [results_cons] at unique new
    obtain ⟨-,unique,apart⟩ := nodup_append.mp unique
    have grown := settled.grows valid shaped mem mentions
    have fresh : ∀ x ∈ results params, x ∉ p.result?.toList ++ visible := by
      grind
    obtain ⟨admits,settled'⟩ := ih (fun q here => ⟨(later q here).1,(later q here).2.1,
      Subset.trans (later q here).2.2 (subset_append_right _ _)⟩) unique fresh grown
    refine ⟨⟨fun r result => ⟨?_,subst_of_keeps kept result⟩,admits⟩,?_⟩
    · have here : r ∈ p.result?.toList := Option.mem_toList.mpr result
      exact valid.fold_fresh shaped room mem kept result (new r (mem_append_left _ here)) settled
    · intro x seen
      rw [results_cons] at seen ⊢
      have both : ∀ y, y ∈ results params ++ (p.result?.toList ++ visible) ↔
          y ∈ p.result?.toList ++ results params ++ visible := by grind
      exact ((settled' x ((both x).mpr seen)).imp_left (both _).mp)

end

theorem Roomy.fold_globals (room : t.Roomy) (shaped : t.Shaped) {x : Id} (defined : x ∈ results t.code) :
    (t.fold.globals m).shapes x = (t.globals m).shapes x ∧
      (t.fold.globals m).data x = (t.globals m).data x := by
  have absent : x ∉ results t.folding.added := by
    intro added
    have := (room.fresh shaped).2 x added
    have := le_maxId defined
    omega
  grind [fold,globals,Globals.foldl_declare_of_not_mem]

section

variable (valid : t.Valid) (shaped : t.Shaped)
include valid shaped

theorem Valid.subst_type (room : t.Roomy) (routine : r ∈ t.routines) (here : i ∈ r.code) {ty : Id}
    (ofType : i.resultType? = some ty) :
    t.folding.subst ty = ty ∧ (t.fold.globals m).shapes ty = (t.globals m).shapes ty := by
  have type := ((valid.routines r routine i here).1 ty ofType).1
  obtain ⟨op,known,type⟩ := (Option.any_eq_true ..).mp type
  have other : op.isComputed = false := by cases op <;> first | rfl | cases type
  obtain ⟨d,mem,result,rfl⟩ := (kindOf_eq_some valid.unique).mp known
  exact ⟨valid.subst_eq_self shaped mem result other,
    (room.fold_globals shaped (mem_results.mpr ⟨d,mem,result⟩)).1⟩

theorem Valid.fold_drops (room : t.Roomy) (unique : (results t.fold.outside).Nodup)
    (routine : r ∈ t.routines) (here : i ∈ r.code) (deleted : t.folding.keeps i = false)
    (mentions : i.mentions ⊆ visible) (new : ∀ r ∈ i.result?, r ∉ visible) {depth : Nat}
    {call : Id → List (Datum V) → State V → Result V} {s s' : State V}
    (agree : Agree (foldTransfer m t) visible s s') :
    ∃ s₁, step m (t.globals m).shapes depth call i s = some (.next, s₁) ∧
      Agree (foldTransfer m t) (i.result?.toList ++ visible) s₁ s' := by
  obtain ⟨x,result,folds⟩ :=
    valid.folds_of_keeps shaped (mem_flatMap.mpr ⟨r,routine,here⟩) deleted
  have pure : i.op.isPure = true := by
    have computed : i.op.isComputed = true := folds.isComputed
    revert computed
    cases i.op <;> decide
  let g : Id → Id := fun id => if some id = i.result? then id else t.folding.subst id
  have renamed : t.folding.rename i = renameIds g i := rfl
  have seen : ∀ y ∈ i.mentions, (foldTransfer m t).sees visible y := fun y here => mentions here
  have same : ∀ y ∈ i.mentions, g y = t.folding.subst y := fun y mentioned =>
    if_neg fun result => new y result.symm (mentions mentioned)
  have data : s'.data (renameIds g i) = (s.data i).map (Datum.rename (foldTransfer m t).ids) := by
    rw [State.data,arguments_renameIds,State.data,map_map,map_map]
    refine map_congr_left fun y argument => ?_
    have mentioned := i.arguments_subset argument
    rw [Function.comp_apply,same y mentioned]
    exact agree.env y (seen y mentioned)
  have shape : ((renameIds g i).resultType?.map (t.fold.globals m).shapes).getD .unknown =
      (i.resultType?.map (t.globals m).shapes).getD .unknown := by
    grind [resultType?_renameIds,resultType?,Valid.subst_type]
  have within := agree.data_within seen
  have types : ∀ {ty kind}, Typed t.fold.outside ty kind →
      ((t.fold.globals m).shapes ty).scalar? = some kind := fun typed => typed.shape unique _
  have value := folds.compute types fun known => agree.fixed _ _ ⟨_,known,rfl⟩
  rw [renamed,shape,data,compute_renameIds,compute_rename within agree.memory] at value
  refine ⟨_,step_of_isPure pure,?_⟩
  rw [State.give,result]
  exact agree.replace (fun y => mem_cons.mp) id (compute_within within) value.symm

theorem Valid.nodup_routine (routine : r ∈ t.routines) :
    (results t.outside ++ r.id :: (results r.params ++ results r.body.code)).Nodup := by
  obtain ⟨before,after,split⟩ := append_of_mem routine
  have sub : r.code.Sublist t.inside := by
    grind [inside]
  have whole : (t.outside ++ r.code).Sublist t.code := (Sublist.refl _).append sub
  rw [← Routine.results_code (shaped.routines r routine),← results_append]
  exact (Sublist.filterMap _ whole).nodup valid.unique

theorem Valid.fold_each (inside : t.Scoped) (room : t.Roomy)
    (unique : (results t.fold.outside).Nodup) (routine : r ∈ t.routines)
    (settled : t.Settled (results r.params ++ results t.outside)) :
    r.body.Each ((foldTransfer m t).Treats m (t.globals m).shapes (t.fold.globals m).shapes
      fun x => ∃ r ∈ t.routines, r.id = x) (foldTransfer m t).sees
        (results r.params ++ results t.outside) := by
  have mem : ∀ i ∈ r.code, i ∈ t.inside := fun i here => mem_flatMap.mpr ⟨r,routine,here⟩
  have grows : ∀ visible i, i ∈ r.code → i.mentions ⊆ visible → t.Settled visible →
      t.Settled (i.result?.toList ++ visible) := fun visible i here mentions settled =>
    settled.grows valid shaped (mem i here) mentions
  have once := valid.nodup_routine shaped routine
  have apart : ∀ x ∈ results r.body.code, x ∉ results r.params ++ results t.outside := by
    grind
  have each := (inside.bodies r routine).each grows (by grind) apart
    (fun i here => by simp [Routine.code,here]) settled
  refine each.imp (fun visible i treated => ?_) fun visible x seen => seen
  obtain ⟨here,mentions,new,settled⟩ := treated
  rw [Transfer.Treats]
  cases kept : (foldTransfer m t).keeps i with
  | true =>
    rw [if_pos rfl]
    refine ⟨fun x mentioned => mentions mentioned,fun ty ofType => ?_,fun x result => ?_,
      fun _ x result => subst_of_keeps kept result,fun f called => ?_⟩
    · obtain ⟨same,shapes⟩ := valid.subst_type (m := m) shaped room routine here ofType
      have same : (foldTransfer m t).ids ty = ty := same
      rw [same,shapes]
    · exact valid.fold_fresh shaped room (mem i here) kept result (new x result) settled
    · exact valid.routine_of_callee shaped routine here called
  | false =>
    rw [if_neg Bool.false_ne_true]
    exact fun _ _ _ _ agree =>
      valid.fold_drops shaped room unique routine here kept mentions new agree

theorem Valid.subst_outside {x : Id} (outside : x ∈ results t.outside) : t.folding.subst x = x := by
  obtain ⟨i,here,result⟩ := mem_results.mp outside
  refine valid.subst_eq_self shaped (mem_code.mpr (.inl here)) result ?_
  have outside := shaped.outside i here
  revert outside
  cases i.op <;> decide

theorem Valid.fold_start (room : t.Roomy) (valid' : t.fold.Valid) {memory memory' : Cell → V}
    (same : ∀ c, c.Within (foldTransfer m t).locals → memory' (c.rename (foldTransfer m t).ids) = memory c) :
    Agree (foldTransfer m t) (results t.outside) ⟨(t.globals m).data, memory⟩
      ⟨(t.fold.globals m).data, memory'⟩ := by
  have unique := valid'.unique
  have ordered := valid'.ordered
  rw [code,results_append] at unique
  rw [code,ordered_append] at ordered
  refine ⟨fun x seen => ?_,fun x _ => ?_,fun _ lost => lost.elim,?_,same⟩
  · have known : x ∈ results t.code := by
      rw [code,results_append]
      exact mem_append_left _ seen
    have still : (foldTransfer m t).ids x = x := valid.subst_outside shaped seen
    rw [still,Datum.rename_eq_self (globals_shared x)]
    exact (room.fold_globals shaped known).2
  · exact (globals_shared x).mono fun _ none => none.elim
  · rintro x d ⟨c,known,rfl⟩
    exact known.datum (nodup_append.mp unique).1 ordered.1 _

/-- Folding changes nothing that is seen. -/
theorem Valid.behaves_fold (inside : t.Scoped) (room : t.Roomy) (init : Nat → V)
    (seen : Behavior V) : t.fold.Behaves m init seen ↔ t.Behaves m init seen := by
  have valid' := valid.fold shaped room inside.named
  have unique : (results t.fold.outside).Nodup := by
    have unique := valid'.unique
    rw [code,results_append] at unique
    exact (nodup_append.mp unique).1
  have function : ∀ r ∈ t.routines, t.folding.subst r.id = r.id := by
    intro r routine
    have shaped' := shaped.routines r routine
    have head : r.head ∈ t.code := mem_code.mpr (.inr ⟨r,routine,by simp [Routine.code]⟩)
    exact valid.subst_eq_self shaped head shaped'.defines (by rw [shaped'.head]; rfl)
  have carries : (foldTransfer m t).Carries m t t.fold fun x => ∃ r ∈ t.routines, r.id = x := by
    refine ⟨fun _ _ same => valid.fold_start shaped room valid' same,?_,?_⟩
    · rintro x ⟨q,routine,rfl⟩
      obtain ⟨r,found⟩ := exists_routine? routine
      obtain ⟨routine',-⟩ := routine?_eq_some found
      have folded : t.fold.routine? (t.folding.subst q.id) =
          (t.routine? q.id).map (foldTransfer m t).routine := by
        refine routine?_map (fun p mem => ?_) fun p mem same => ?_
        · exact Routine.id_rename _ ((shaped.routines p mem).filter _)
        · rwa [function p mem,function q routine] at same
      rw [found] at folded
      have once := valid.nodup_routine shaped routine'
      have params : ∀ p ∈ r.params, p ∈ t.inside ∧ t.folding.keeps p = true ∧
          p.mentions ⊆ results t.outside := by
        intro p param
        refine ⟨mem_flatMap.mpr ⟨r,routine',by simp [Routine.code,param]⟩,
          valid.keeps_outer shaped r routine' p (mem_cons_of_mem _ param),fun x mentioned => ?_⟩
        exact inside.heads r routine' p (mem_cons_of_mem _ param)
          (mem_references_iff.mpr (.inl mentioned))
      have start : t.Settled (results t.outside) := fun x here =>
        .inl (by rwa [valid.subst_outside shaped here])
      obtain ⟨admits,settled⟩ := valid.fold_admits (m := m) shaped room params (by grind) (by grind) start
      exact ⟨r,found,folded,admits,valid.fold_each shaped inside room unique routine' settled⟩
    · obtain ⟨r,routine,main⟩ := (valid.runnable shaped).main
      refine ⟨r.id,⟨r,routine,rfl⟩,main,?_⟩
      have still : (foldTransfer m t).ids r.id = r.id := function r routine
      obtain ⟨i,found,head⟩ := Option.bind_eq_some_iff.mp main
      rw [mainId?,Outline.fold,find?_append,found,still]
      exact head
  exact carries.behaves init seen

end

end Outline

end Shading.Bytecode
