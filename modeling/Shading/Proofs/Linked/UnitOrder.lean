import Shading.Proofs.Linked.InitOrder

/-! The order of units does not matter. Units are merged exactly if any two of them fit each other, and what
they are merged to is what all of them say together: the greatest version, and of each name all that is said
of it anywhere. -/
namespace Shading.Typed

/-- What a program says of a global. -/
def Global.meaning (g : Global) :
    String × Ty × Storage × Option Nat × Option Nat × Option Builtin.Var × Option Expr :=
  (g.name, g.ty, g.storage, g.location, g.binding, g.builtin, g.init)

def Function.meaning (f : Function) : String × Ty × Option (List Stmt) :=
  (f.signature, f.returnTy, f.body)

end Shading.Typed

namespace Shading.Linked
open List Typed

def GlobalsFit (g h : Global) : Prop := g.name = h.name → SameGlobal g h

/-- Declarations of one overload give the same result, and only one of them has a body. -/
def FunctionsFit (f g : Function) : Prop :=
  f.signature = g.signature → f.returnTy = g.returnTy ∧ (f.body = none ∨ g.body = none)

/-- Two units may be of one program. -/
structure UnitsFit (u v : Program) : Prop where
  stage : u.stage = v.stage
  es : u.es = v.es
  localSize : Agreed u.localSize v.localSize
  globals : ∀ g ∈ u.globals, ∀ h ∈ v.globals, GlobalsFit g h
  functions : ∀ f ∈ u.functions, ∀ g ∈ v.functions, FunctionsFit f g

theorem UnitsFit.symm {u v : Program} (fit : UnitsFit u v) : UnitsFit v u where
  stage := fit.stage.symm
  es := fit.es.symm
  localSize := fit.localSize.symm
  globals g mem h member' named := (fit.globals h member' g mem named.symm).symm
  functions f mem g member' signed :=
    let ⟨returns,once⟩ := fit.functions g member' f mem signed.symm
    ⟨returns.symm,once.symm⟩

theorem addAll_isOk {α : Type} {key : α → String} {join : α → α → Except Cause α} {l : α → Nat}
    {made : List α → α → Prop} {fits : α → α → Prop} {ds gs hs : List α} (makes : Makes key join made)
    (accepts : ∀ {h ds g}, made ds g → ((∃ m, join g h = .ok m) ↔ ∀ d ∈ ds, fits d h))
    (gathered : Gathered key made ds gs) (distinct : (hs.map key).Nodup) (file : String) :
    (∃ gs', hs.foldlM (fun gs g => placed file (l g) (insertBy key join g gs)) gs = .ok gs') ↔
      ∀ d ∈ ds, ∀ h ∈ hs, key d = key h → fits d h := by
  rw [foldlM_isOk (H := Gathered key made) (fun gathered ok => ?_) (fun _ _ _ _ gathered => ?_) gathered,
    and_iff_left]
  · -- Declarations of one unit have different keys.
    exact (pairwise_map.mp distinct).imp fun apart same => absurd same apart
  · rw [placed,Except.mapError_eq_ok] at ok
    exact gathered.add makes ok
  · simpa only [placed,Except.mapError_eq_ok] using gathered.add_isOk accepts

namespace Union

variable {us : List Program} {p u q : Program}

theorem absorb_isOk (union : Union us p) (distinct : Distinct u) :
    (∃ q, Linked.absorb p u = .ok q) ↔ ∀ v ∈ us, UnitsFit v u := by
  have globals := addAll_isOk (l := Global.line) makesGlobals mergeGlobal_isOk union.globals
    distinct.globals u.file
  have functions := addAll_isOk (l := Function.line) makesFunctions mergeFunction_isOk_iff
    union.functions distinct.functions u.file
  simp only [Linked.absorb,addGlobal_eq,addFunction_eq,Except.ite_throw_eq_ok,Except.bind_eq_ok,Except.pure_eq_ok]
  constructor
  · rintro ⟨q,stage,es,localSize,sized,gs,addedGlobals,fs,addedFunctions,-⟩ v mem
    rw [placed,Except.mapError_eq_ok,mergeLocalSize_eq_ok] at sized
    refine ⟨(union.stage v mem).trans (not_not.mp stage).symm,
      (union.es v mem).trans (not_not.mp es).symm,fun a left => ?_,fun g inside => ?_,fun f inside => ?_⟩
    · exact sized.1 a ((union.localSize a).mpr (mem_map.mpr ⟨v,mem,left⟩))
    · exact globals.mp ⟨gs,addedGlobals⟩ g (mem_flatMap.mpr ⟨v,mem,inside⟩)
    · exact functions.mp ⟨fs,addedFunctions⟩ f (mem_flatMap.mpr ⟨v,mem,inside⟩)
  · intro fits
    obtain ⟨v,mem,-⟩ := union.version_mem
    have agreed : Agreed p.localSize u.localSize := fun a left => by
      obtain ⟨w,inside,given⟩ := mem_map.mp ((union.localSize a).mp left)
      exact (fits w inside).localSize a given
    obtain ⟨gs,addedGlobals⟩ := globals.mpr fun g declared => by
      obtain ⟨w,inside,here⟩ := mem_flatMap.mp declared
      exact (fits w inside).globals g here
    obtain ⟨fs,addedFunctions⟩ := functions.mpr fun f declared => by
      obtain ⟨w,inside,here⟩ := mem_flatMap.mp declared
      exact (fits w inside).functions f here
    refine ⟨_,not_not.mpr ?_,not_not.mpr ?_,p.localSize.or u.localSize,?_,gs,addedGlobals,fs,
      addedFunctions,rfl⟩
    · exact (fits v mem).stage.symm.trans (union.stage v mem)
    · exact (fits v mem).es.symm.trans (union.es v mem)
    · rw [placed,Except.mapError_eq_ok,mergeLocalSize_eq_ok]
      exact ⟨agreed,rfl⟩

end Union

section Units

variable {us us' : List Program} {p q : Program}

theorem mergeUnits_isOk (distinct : ∀ u ∈ us, Distinct u) :
    (∃ p, mergeUnits us = .ok p) ↔ us ≠ [] ∧ us.Pairwise UnitsFit := by
  cases us with
  | nil => simp [mergeUnits]
  | cons u us =>
    obtain ⟨first,later⟩ := forall_mem_cons.mp distinct
    unfold mergeUnits
    rw [foldlM_isOk (H := Union) (fun union absorbed => union.absorb absorbed)
      (fun v mem _ _ union => union.absorb_isOk (later v mem)) (.single first)]
    simp

theorem builtin_eq {u v : Program} (typed : u.WellTyped) (typed' : v.WellTyped) {g h : Global}
    (mem : g ∈ u.globals) (member' : h ∈ v.globals) (named : g.name = h.name) :
    g.builtin = h.builtin := by
  rcases typed.globals.ordinary g mem with ⟨b,line,rfl⟩ | ⟨none,ordinary⟩ <;>
    rcases typed'.globals.ordinary h member' with ⟨b',line',rfl⟩ | ⟨none',ordinary'⟩
  · rw [builtin_eq_of_name named]
    rfl
  · exact absurd (named ▸ builtin_startsWith b) ordinary'
  · exact absurd (named ▸ builtin_startsWith b') ordinary
  · rw [none,none']

/-- Programs that differ in the order of their declarations only. -/
structure Alike (p q : Program) : Prop where
  stage : p.stage = q.stage
  es : p.es = q.es
  version : p.version = q.version
  localSize : p.localSize = q.localSize
  globals : ∀ x, x ∈ p.globals.map Global.meaning ↔ x ∈ q.globals.map Global.meaning
  functions : ∀ x, x ∈ p.functions.map Function.meaning ↔ x ∈ q.functions.map Function.meaning
  names : (p.globals.map Global.name).Nodup ∧ (q.globals.map Global.name).Nodup
  signatures : (p.functions.map Function.signature).Nodup ∧ (q.functions.map Function.signature).Nodup

namespace Union

variable (left : Union us p) (right : Union us' q) (same : ∀ u, u ∈ us ↔ u ∈ us')

include left right same

theorem version_eq : p.version = q.version := by
  have le {us us' : List Program} {p q : Program} (left : Union us p) (right : Union us' q)
      (same : ∀ u ∈ us, u ∈ us') : p.version ≤ q.version := by
    obtain ⟨u,mem,version⟩ := left.version_mem
    exact version ▸ right.version_le u (same u mem)
  exact Nat.le_antisymm (le left right fun u => (same u).mp) (le right left fun u => (same u).mpr)

theorem localSize_eq : p.localSize = q.localSize := by
  refine Option.ext fun size => ?_
  rw [left.localSize,right.localSize]
  simp only [mem_map,same]

theorem meaning_mem (typed : ∀ u ∈ us, u.WellTyped) {g : Global} (mem : g ∈ p.globals) :
    g.meaning ∈ q.globals.map Global.meaning := by
  have declared {d : Global} : d ∈ us.flatMap Program.globals ↔ d ∈ us'.flatMap Program.globals := by
    simp only [mem_flatMap,same]
  obtain ⟨d,found,location,binding,init,rfl⟩ := left.globals.first mem
  have here := mem_of_find?_eq_some found
  have known : d.name ∈ q.globals.map Global.name :=
    right.globals.mem_keys.mpr (mem_map_of_mem (declared.mp here))
  obtain ⟨h,member',named⟩ := mem_map.mp known
  refine mem_map.mpr ⟨h,member',?_⟩
  obtain ⟨ty,storage,-⟩ := right.globals.agree (declared.mp here) member' named
  have builtin : h.builtin = d.builtin := by
    obtain ⟨d',found',_,_,_,rfl⟩ := right.globals.first member'
    grind [builtin_eq]
  have mine (x : Global) : x ∈ (us.flatMap Program.globals).filter (fun x => x.name == d.name) ↔
      x ∈ (us'.flatMap Program.globals).filter fun x => x.name == h.name := by
    simp only [mem_filter,declared,named]
  have made := left.globals.made _ mem
  have made' := right.globals.made h member'
  have joined {β : Type} {field : Global → Option β} {x y : Option β}
      (first : Collects x (((us.flatMap Program.globals).filter (fun x => x.name == d.name)).map field))
      (second : Collects y (((us'.flatMap Program.globals).filter fun x => x.name == h.name).map field)) :
      y = x := by
    refine Option.ext fun n => ?_
    rw [first,second]
    simp only [mem_map,mine]
  simp only [Global.meaning,named,ty,storage,builtin,joined made.location made'.location,
    joined made.binding made'.binding,joined made.init made'.init]

theorem function_mem {f : Function} (mem : f ∈ p.functions) (hasBody : f.body.isSome = true) :
    f ∈ q.functions := by
  obtain ⟨u,unit,inside⟩ := mem_flatMap.mp (left.functions.origin mem)
  obtain ⟨g,member',-,-,kept⟩ :=
    right.functions.overload (mem_flatMap.mpr ⟨u,(same u).mp unit,inside⟩)
  exact kept hasBody ▸ member'

theorem function_meaning_mem {f : Function} (mem : f ∈ p.functions) :
    f.meaning ∈ q.functions.map Function.meaning := by
  cases hasBody : f.body with
  | some body => exact mem_map_of_mem (left.function_mem right same mem (by simp [hasBody]))
  | none =>
    obtain ⟨u,unit,inside⟩ := mem_flatMap.mp (left.functions.origin mem)
    obtain ⟨g,member',signed,returns,-⟩ :=
      right.functions.overload (mem_flatMap.mpr ⟨u,(same u).mp unit,inside⟩)
    have none : g.body = none := by
      by_contra some
      have back := right.function_mem left (fun u => (same u).symm) member' (Option.isSome_iff_ne_none.mpr some)
      cases inj_on_of_nodup_map left.functions.distinct back mem signed
      exact some hasBody
    exact mem_map.mpr ⟨g,member',by rw [Function.meaning,Function.meaning,signed,returns,none,hasBody]⟩

theorem body?_eq : body? p = body? q := by
  have reached {us us' : List Program} {p q : Program} (left : Union us p) (right : Union us' q)
      (same : ∀ u, u ∈ us ↔ u ∈ us') {s : String} {f : Function} (found : body? p s = some f) :
      body? q s = some f := by
    obtain ⟨mem,hasBody⟩ := mem_body? found
    have named : f.signature = s := by
      simpa using find?_some (Option.filter_eq_some_iff.mp found).1
    exact named ▸ body?_of_mem right.functions.distinct (left.function_mem right same mem hasBody) hasBody
  funext s
  refine Option.ext fun f => ⟨reached left right same,reached right left fun u => (same u).symm⟩

theorem checkCalls_iff : checkCalls p = .ok () ↔ checkCalls q = .ok () := by
  have bodies := left.body?_eq right same
  have calls : Calls p = Calls q := by
    unfold Calls
    rw [bodies]
  rw [checkCalls_eq_ok left.functions.distinct,checkCalls_eq_ok right.functions.distinct,bodies,calls]

theorem checkEntry_iff : checkEntry p = .ok () ↔ checkEntry q = .ok () := by
  have perm : (p.functions.filter fun f => f.isEntry && f.body.isSome).Perm
      (q.functions.filter fun f => f.isEntry && f.body.isSome) := by
    refine (perm_ext_iff_of_nodup ?_ ?_).mpr fun f => ?_
    · exact (left.functions.distinct.of_map _).filter _
    · exact (right.functions.distinct.of_map _).filter _
    · simp only [mem_filter,Bool.and_eq_true]
      refine ⟨fun ⟨mem,entry,body⟩ => ⟨?_,entry,body⟩,fun ⟨mem,entry,body⟩ => ⟨?_,entry,body⟩⟩
      · exact left.function_mem right same mem body
      · exact right.function_mem left (fun u => (same u).symm) mem body
  have counts : (p.functions.countP fun f => f.isEntry && f.body.isSome) =
      q.functions.countP fun f => f.isEntry && f.body.isSome := by
    rw [countP_eq_length_filter,countP_eq_length_filter,perm.length_eq]
  unfold checkEntry
  rw [counts]
  split <;> simp

theorem alike (typed : ∀ u ∈ us, u.WellTyped) : Alike p q where
  stage := by
    obtain ⟨u,mem,-⟩ := left.version_mem
    exact (left.stage u mem).symm.trans (right.stage u ((same u).mp mem))
  es := by
    obtain ⟨u,mem,-⟩ := left.version_mem
    exact (left.es u mem).symm.trans (right.es u ((same u).mp mem))
  version := left.version_eq right same
  localSize := left.localSize_eq right same
  globals x := by
    grind [meaning_mem]
  functions x := by
    grind [function_meaning_mem]
  names := ⟨left.globals.distinct,right.globals.distinct⟩
  signatures := ⟨left.functions.distinct,right.functions.distinct⟩

end Union

theorem merge_perm (typed : ∀ u ∈ us, u.WellTyped) (perm : us.Perm us') (merged : merge us = .ok p) :
    ∃ q, merge us' = .ok q := by
  have distinct : ∀ u ∈ us, Distinct u := fun u mem => distinct_of_wellTyped (typed u mem)
  have distinct' : ∀ u ∈ us', Distinct u := fun u mem => distinct u (perm.mem_iff.mpr mem)
  obtain ⟨merged,entry,calls⟩ := merge_eq_ok.mp merged
  obtain ⟨some,fit⟩ := (mergeUnits_isOk distinct).mp ⟨p,merged⟩
  have fit' : us'.Pairwise UnitsFit := (perm.pairwise_iff UnitsFit.symm).mp fit
  obtain ⟨q,merged'⟩ := (mergeUnits_isOk distinct').mpr ⟨fun none => some (none ▸ perm).eq_nil,fit'⟩
  have left := mergeUnits_union distinct merged
  have right := mergeUnits_union distinct' merged'
  grind [merge_eq_ok,Union.checkEntry_iff,Union.checkCalls_iff]

end Units

/-- The order of units does not matter: they can be merged in any order or in none, and the programs differ
in the order of their declarations only. -/
theorem merge_order_irrelevant {units units' : List Checked}
    (checked : ∀ c ∈ units, ∃ u : WrittenUnit, u.check.Gives c) (perm : units.Perm units') :
    ((∃ p, merge (units.map Checked.program) = .ok p) ↔ ∃ q, merge (units'.map Checked.program) = .ok q) ∧
      ∀ p q, merge (units.map Checked.program) = .ok p → merge (units'.map Checked.program) = .ok q →
        Alike p q := by
  have typed := checked_wellTyped checked
  have perm' := perm.map Checked.program
  have typed' : ∀ u ∈ units'.map Checked.program, u.WellTyped := fun u member =>
    typed u (perm'.mem_iff.mpr member)
  refine ⟨⟨fun ⟨p,merged⟩ => merge_perm typed perm' merged,
    fun ⟨q,merged⟩ => merge_perm typed' perm'.symm merged⟩,fun p q left right => ?_⟩
  have distinct {us : List Program} (typed : ∀ u ∈ us, u.WellTyped) : ∀ u ∈ us, Distinct u :=
    fun u member => distinct_of_wellTyped (typed u member)
  exact (mergeUnits_union (distinct typed) (merge_eq_ok.mp left).1).alike
    (mergeUnits_union (distinct typed') (merge_eq_ok.mp right).1) (fun _ => perm'.mem_iff) typed

/-- Units that give each other's initial values, in both orders. -/
theorem swapped_order_irrelevant : (∀ c ∈ Dependent.swapped, ∃ u : WrittenUnit, u.check.Gives c) ∧
      Dependent.swapped.Perm Dependent.swapped.reverse ∧
      (∃ p q, merge (Dependent.swapped.map Checked.program) = .ok p ∧
        merge (Dependent.swapped.reverse.map Checked.program) = .ok q ∧ Alike p q) := by
  have checked : ∀ c ∈ Dependent.swapped, ∃ u : WrittenUnit, u.check.Gives c :=
    fun c member => Dependent.checked (mem_append_right _ member)
  have perm := (reverse_perm Dependent.swapped).symm
  have merged : merge (Dependent.swapped.map Checked.program) = .ok Dependent.outOfOrder.program := by cbv
  obtain ⟨both,alike⟩ := merge_order_irrelevant checked perm
  obtain ⟨q,merged'⟩ := both.mp ⟨_,merged⟩
  exact ⟨checked,perm,_,q,merged,merged',alike _ q merged merged'⟩

end Shading.Linked
