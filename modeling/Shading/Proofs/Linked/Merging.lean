import Shading.Proofs.Linked.Scoping

/-! What merging makes of the declarations of units. Those of one name are merged one after another, where
the first one stands: a global is what all its declarations agree on, and an overload is one of the functions
that were declared for it. -/
namespace Shading.Linked
open List Typed

variable {f : Function} {h : Global} {p : Program} {us : List Program} {α : Type}

def Agreed {α : Type} (a b : Option α) : Prop := ∀ x ∈ a, ∀ y ∈ b, x = y

theorem Agreed.symm {a b : Option α} (agreed : Agreed a b) : Agreed b a :=
  fun x left y right => (agreed y right x left).symm

theorem mergePlace_eq_ok {name what : String} {a b c : Option Nat} :
    mergePlace name what a b = .ok c ↔ Agreed a b ∧ c = a.or b := by
  cases a with
  | none => simp [mergePlace,Agreed,eq_comm]
  | some m =>
    cases b with
    | none => simp [mergePlace,Agreed,eq_comm]
    | some n => by_cases same : m = n <;> simp [mergePlace,Agreed,same,eq_comm]

theorem mergeLocalSize_eq_ok {a b c : Option WorkGroup} :
    mergeLocalSize a b = .ok c ↔ Agreed a b ∧ c = a.or b := by
  cases a with
  | none => simp [mergeLocalSize,Agreed,eq_comm]
  | some m =>
    cases b with
    | none => simp [mergeLocalSize,Agreed,eq_comm]
    | some n => by_cases same : m = n <;> simp [mergeLocalSize,Agreed,same,eq_comm]

section Folds

variable {α σ ε : Type} {H : List α → σ → Prop} {step : σ → α → Except ε σ} {fits : α → α → Prop}
  {done more : List α} {s : σ}

section

variable (adds : ∀ {done s x s'}, H done s → step s x = .ok s' → H (done ++ [x]) s')
include adds

theorem foldlM_holds (start : H done s) {s' : σ} (ran : more.foldlM step s = .ok s') :
    H (done ++ more) s' := by
  induction more generalizing done s with
  | nil =>
    cases ran
    simpa using start
  | cons x more ih =>
    grind [Except.bind_eq_ok]

/-- If a step succeeds exactly where what it adds fits all that were done, then all steps succeed exactly
where any two fit. -/
theorem foldlM_isOk
    (accepts : ∀ x ∈ more, ∀ {done s}, H done s → ((∃ s', step s x = .ok s') ↔ ∀ d ∈ done, fits d x))
    (start : H done s) :
    (∃ s', more.foldlM step s = .ok s') ↔ (∀ d ∈ done, ∀ x ∈ more, fits d x) ∧ more.Pairwise fits := by
  induction more generalizing done s with
  | nil => exact ⟨fun _ => ⟨fun _ _ _ mem => absurd mem not_mem_nil,.nil⟩,fun _ => ⟨s,rfl⟩⟩
  | cons x more ih =>
    obtain ⟨accepts,later⟩ := forall_mem_cons.mp accepts
    constructor
    · rintro ⟨s',ran⟩
      rw [foldlM_cons,Except.bind_eq_ok] at ran
      obtain ⟨middle,first,rest⟩ := ran
      obtain ⟨across,among⟩ := (ih later (adds start first)).mp ⟨s',rest⟩
      grind [pairwise_cons]
    · rintro ⟨across,among⟩
      obtain ⟨others,among⟩ := pairwise_cons.mp among
      obtain ⟨middle,first⟩ := (accepts start).mpr fun d mem => across d mem x mem_cons_self
      have across' : ∀ d ∈ done ++ [x], ∀ y ∈ more, fits d y := by
        grind
      obtain ⟨s',rest⟩ := (ih later (adds start first)).mpr ⟨across',among⟩
      refine ⟨s',?_⟩
      rw [foldlM_cons,first]
      exact rest

end

end Folds

theorem eraseDups_of_nodup [BEq α] [LawfulBEq α] {l : List α} (distinct : l.Nodup) :
    l.eraseDups = l := by
  induction l with
  | nil => rfl
  | cons a l ih =>
    grind [filter_eq_self]

theorem eraseDups_append_singleton [BEq α] [LawfulBEq α] (l : List α) (a : α) :
    (l ++ [a]).eraseDups = if l.elem a then l.eraseDups else l.eraseDups ++ [a] := by
  grind [List.removeAll]

theorem pair_sublist_eraseDups [BEq α] [LawfulBEq α] {before after : List α} {a b : α}
    (earlier : a ∈ before) (first : b ∉ before) :
    Sublist [a, b] (before ++ b :: after).eraseDups := by
  grind [mem_eraseDups]

section Gathering

variable {α ε : Type} {key : α → String} {join : α → α → Except ε α} {made : List α → α → Prop}
  {ds gs gs' : List α} {h : α}

/-- A declaration is joined to the earlier one of its key, or it comes last. -/
def insertBy (key : α → String) (join : α → α → Except ε α) (h : α) : List α → Except ε (List α)
  | [] => .ok [h]
  | g :: gs =>
    if key g = key h then (join g h).map (· :: gs) else (insertBy key join h gs).map (g :: ·)

theorem insertBy_cases (added : insertBy key join h gs = .ok gs') :
    (∀ g ∈ gs, key g ≠ key h) ∧ gs' = gs ++ [h] ∨
      ∃ before g after m, gs = before ++ g :: after ∧ key g = key h ∧
        join g h = .ok m ∧ gs' = before ++ m :: after := by
  induction gs generalizing gs' with
  | nil =>
    cases added
    exact .inl ⟨by simp,rfl⟩
  | cons g gs ih =>
    unfold insertBy at added
    by_cases same : key g = key h
    · rw [if_pos same,Except.map_eq_ok] at added
      obtain ⟨m,joined,rfl⟩ := added
      exact .inr ⟨[],g,gs,m,rfl,same,joined,rfl⟩
    · rw [if_neg same,Except.map_eq_ok] at added
      grind

theorem insertBy_isOk (fits : ∀ g ∈ gs, key g = key h → ∃ m, join g h = .ok m) :
    ∃ gs', insertBy key join h gs = .ok gs' := by
  induction gs with
  | nil => exact ⟨[h],rfl⟩
  | cons g gs ih =>
    unfold insertBy
    by_cases same : key g = key h
    · obtain ⟨m,joined⟩ := fits g mem_cons_self same
      exact ⟨m :: gs,by rw [if_pos same,joined]; rfl⟩
    simp_all

/-- What is made of declarations in their order, each thing of those that have its key. -/
structure Gathered (key : α → String) (made : List α → α → Prop) (ds gs : List α) : Prop where
  keys : gs.map key = (ds.map key).eraseDups
  distinct : (gs.map key).Nodup
  made : ∀ g ∈ gs, made (ds.filter fun d => key d == key g) g

/-- How a thing is made of its declarations: of the first one as it is, and by joining the next one. -/
structure Makes (key : α → String) (join : α → α → Except ε α) (made : List α → α → Prop) : Prop where
  single : ∀ d, made [d] d
  key : ∀ {g h m}, join g h = .ok m → key g = key h → key m = key g
  join : ∀ {ds g h m}, made ds g → join g h = .ok m → made (ds ++ [h]) m

theorem filter_key_eq_singleton (distinct : (ds.map key).Nodup) {g : α} (mem : g ∈ ds) :
    ds.filter (fun d => key d == key g) = [g] := by
  induction ds with
  | nil => cases mem
  | cons d ds ih =>
    obtain ⟨new,distinct⟩ := nodup_cons.mp distinct
    rcases mem_cons.mp mem with rfl | later
    · simp_all
    grind

namespace Gathered

variable (gathered : Gathered key made ds gs)

theorem of_nodup (makes : Makes key join made) (distinct : (ds.map key).Nodup) :
    Gathered key made ds ds :=
  ⟨(eraseDups_of_nodup distinct).symm,distinct,fun g mem => by
    rw [filter_key_eq_singleton distinct mem]
    exact makes.single g⟩

include gathered

theorem mem_keys {k : String} : k ∈ gs.map key ↔ k ∈ ds.map key := by
  rw [gathered.keys,mem_eraseDups]

theorem exists_of_mem {d : α} (declared : d ∈ ds) : ∃ g ∈ gs, key g = key d :=
  mem_map.mp (gathered.mem_keys.mpr (mem_map_of_mem declared))

/-- One more declaration. -/
theorem add (makes : Makes key join made) (added : insertBy key join h gs = .ok gs') :
    Gathered key made (ds ++ [h]) gs' := by
  have keep {x : α} (apart : key x ≠ key h) : (ds ++ [h]).filter (fun d => key d == key x) =
      ds.filter fun d => key d == key x := by
    simp [filter_append,apart.symm]
  have last {x : α} (same : key x = key h) : (ds ++ [h]).filter (fun d => key d == key x) =
      ds.filter (fun d => key d == key x) ++ [h] := by
    simp [filter_append,same]
  rcases insertBy_cases added with ⟨new,rfl⟩ | ⟨before,g,after,m,rfl,same,ok,rfl⟩
  · have absent : key h ∉ ds.map key := mt gathered.mem_keys.mpr (by simpa using new)
    refine ⟨?_,?_,fun x mem => ?_⟩
    · grind [eraseDups_append_singleton,keys]
    · rw [map_append,nodup_append]
      exact ⟨gathered.distinct,by simp,by simpa using new⟩
    · rcases mem_append.mp mem with old | isNew
      · rw [keep (new x old)]
        exact gathered.made x old
      · cases mem_singleton.mp isNew
        grind [filter_eq_nil_iff,Makes.single]
  · have kept := makes.key ok same
    have known : key h ∈ ds.map key := gathered.mem_keys.mp (by simp [same])
    have keys : (before ++ m :: after).map key = (before ++ g :: after).map key := by simp [kept]
    have distinct : ((before ++ m :: after).map key).Nodup := keys ▸ gathered.distinct
    refine ⟨?_,distinct,fun x mem => ?_⟩
    · rw [keys,gathered.keys,map_append,map_singleton,eraseDups_append_singleton,
        if_pos (by simpa using known)]
    · by_cases isNew : x = m
      · subst isNew
        rw [last (kept.trans same),kept]
        exact makes.join (gathered.made g (by simp)) ok
      · have old : x ∈ before ++ g :: after := by
          simp only [mem_append,mem_cons] at mem ⊢
          tauto
        have apart : key x ≠ key h := fun eq => isNew
          (inj_on_of_nodup_map distinct mem (by simp) (eq.trans (kept.trans same).symm))
        rw [keep apart]
        exact gathered.made x old

theorem add_isOk {fits : α → α → Prop}
    (accepts : ∀ {ds g}, made ds g → ((∃ m, join g h = .ok m) ↔ ∀ d ∈ ds, fits d h)) :
    (∃ gs', insertBy key join h gs = .ok gs') ↔ ∀ d ∈ ds, key d = key h → fits d h := by
  constructor
  · rintro ⟨gs',added⟩ d declared same
    obtain ⟨g,mem,eq⟩ := gathered.exists_of_mem declared
    rcases insertBy_cases added with ⟨new,-⟩ | ⟨before,g',after,m,rfl,same',ok,-⟩
    · exact absurd (eq.trans same) (new g mem)
    · cases inj_on_of_nodup_map gathered.distinct mem (by simp)
        ((eq.trans same).trans same'.symm)
      exact (accepts (gathered.made g mem)).mp ⟨m,ok⟩ d (mem_filter.mpr ⟨declared,by simp [eq]⟩)
  · refine fun fits => insertBy_isOk fun g mem same =>
      (accepts (gathered.made g mem)).mpr fun d declared => ?_
    simp_all

end Gathered

end Gathering

def Collects {α : Type} (x : Option α) (l : List (Option α)) : Prop := ∀ n, x = some n ↔ some n ∈ l

namespace Collects

variable {α : Type} {x y : Option α} {l : List (Option α)}

theorem single (x : Option α) : Collects x [x] := fun n => by simp [eq_comm]

theorem or (collects : Collects x l) (agreed : Agreed x y) : Collects (x.or y) (l ++ [y]) := by
  intro n
  cases x with
  | none => simp [← collects n,eq_comm]
  | some m =>
    have here : some n ∈ l ↔ m = n := by simp [← collects n]
    simp only [Option.some_or,Option.some.injEq,mem_append,here,mem_singleton]
    exact ⟨.inl,fun h => h.elim id fun given => agreed m rfl n given.symm⟩

theorem agreed_iff (collects : Collects x l) : Agreed x y ↔ ∀ z ∈ l, Agreed z y :=
  ⟨fun agreed _ mem n given => agreed n ((collects n).mpr (given ▸ mem)),
    fun agreed n given => agreed _ ((collects n).mp given) n rfl⟩

theorem eq_none_iff (collects : Collects x l) : x = none ↔ ∀ z ∈ l, z = none := by
  simp only [Option.eq_none_iff_forall_ne_some,ne_eq]
  exact ⟨fun none z mem n given => none n ((collects n).mpr (given ▸ mem)),
    fun none n given => none _ ((collects n).mp given) n rfl⟩

end Collects

/-- Two declarations may be of one global. -/
structure SameGlobal (g h : Global) : Prop where
  ty : g.ty = h.ty
  storage : g.storage = h.storage
  location : Agreed g.location h.location
  binding : Agreed g.binding h.binding
  init : g.init = none ∨ h.init = none

theorem SameGlobal.symm {g : Global} (same : SameGlobal g h) : SameGlobal h g :=
  ⟨same.ty.symm,same.storage.symm,same.location.symm,same.binding.symm,same.init.symm⟩

theorem mergeGlobal_eq_ok {g m : Global} : mergeGlobal g h = .ok m ↔ SameGlobal g h ∧
      m = { g with location := g.location.or h.location, binding := g.binding.or h.binding,
                   init := h.init.or g.init } := by
  constructor
  · intro merged
    simp only [mergeGlobal,Except.ite_throw_eq_ok,Except.bind_eq_ok,Except.pure_eq_ok] at merged
    obtain ⟨same,location,atLocation,binding,atBinding,once,rfl⟩ := merged
    simp only [not_or,Decidable.not_not] at same
    obtain ⟨locations,rfl⟩ := mergePlace_eq_ok.mp atLocation
    obtain ⟨bindings,rfl⟩ := mergePlace_eq_ok.mp atBinding
    refine ⟨⟨same.1,same.2,locations,bindings,?_⟩,rfl⟩
    by_contra both
    exact once (by simpa [Option.isSome_iff_ne_none,and_comm] using both)
  · rintro ⟨same,rfl⟩
    have once : (h.init.isSome && g.init.isSome) ≠ true := by
      rcases same.init with none | none <;> simp [none]
    simp only [mergeGlobal,Except.ite_throw_eq_ok,Except.bind_eq_ok,Except.pure_eq_ok,not_or,
      Decidable.not_not]
    grind [SameGlobal.ty,SameGlobal.storage,mergePlace_eq_ok,SameGlobal.location,SameGlobal.binding]

/-- A global is what its first declaration says, with what the later ones add. -/
structure MadeGlobal (ds : List Global) (g : Global) : Prop where
  first : ∃ d, ds.head? = some d ∧ ∃ location binding init, g = { d with location, binding, init }
  agree : ∀ d ∈ ds, g.ty = d.ty ∧ g.storage = d.storage
  location : Collects g.location (ds.map Global.location)
  binding : Collects g.binding (ds.map Global.binding)
  init : Collects g.init (ds.map Global.init)

theorem makesGlobals : Makes Global.name mergeGlobal MadeGlobal where
  single d := ⟨⟨d,rfl,d.location,d.binding,d.init,rfl⟩,by simp,.single _,.single _,.single _⟩
  key merged _ := by rw [(mergeGlobal_eq_ok.mp merged).2]
  join {ds g h m} made merged := by
    obtain ⟨same,rfl⟩ := mergeGlobal_eq_ok.mp merged
    obtain ⟨d,first,location,binding,init,rfl⟩ := made.first
    have once : Agreed init h.init ∧ h.init.or init = init.or h.init := by
      rcases same.init with none | none <;> simp_all [Agreed]
    refine ⟨⟨d,by simp [head?_append,first],_,_,_,rfl⟩,fun d' mem => ?_,?_,?_,?_⟩
    · rcases mem_append.mp mem with old | last
      · exact made.agree d' old
      · cases mem_singleton.mp last
        exact ⟨same.ty,same.storage⟩
    · simpa using made.location.or same.location
    · simpa using made.binding.or same.binding
    · simpa [once.2] using made.init.or once.1

theorem mergeGlobal_isOk {ds : List Global} {g : Global} (made : MadeGlobal ds g) :
    (∃ m, mergeGlobal g h = .ok m) ↔ ∀ d ∈ ds, SameGlobal d h := by
  obtain ⟨first,here,-⟩ := made.first
  have here := mem_of_mem_head? here
  simp only [mergeGlobal_eq_ok]
  constructor
  · rintro ⟨-,same,-⟩ d mem
    obtain ⟨ty,storage⟩ := made.agree d mem
    refine ⟨ty.symm.trans same.ty,storage.symm.trans same.storage,
      made.location.agreed_iff.mp same.location _ (mem_map_of_mem mem),
      made.binding.agreed_iff.mp same.binding _ (mem_map_of_mem mem),?_⟩
    exact same.init.imp_left fun none => made.init.eq_none_iff.mp none _ (mem_map_of_mem mem)
  · intro same
    obtain ⟨ty,storage⟩ := made.agree first here
    refine ⟨_,⟨ty.trans (same first here).ty,storage.trans (same first here).storage,
      made.location.agreed_iff.mpr ?_,made.binding.agreed_iff.mpr ?_,?_⟩,rfl⟩
    · simpa using fun d mem => (same d mem).location
    · simpa using fun d mem => (same d mem).binding
    · by_cases given : h.init = none
      · exact .inr given
      · refine .inl (made.init.eq_none_iff.mpr ?_)
        simpa using fun d mem => (same d mem).init.resolve_right given

theorem addGlobal_eq (h : Global) (gs : List Global) :
    addGlobal h gs = insertBy Global.name mergeGlobal h gs := by
  induction gs with
  | nil => rfl
  | cons g gs ih => rw [addGlobal,insertBy,ih]

abbrev Merged (ds gs : List Global) : Prop := Gathered Global.name MadeGlobal ds gs

section Globals

variable {ds gs : List Global} (merged : Merged ds gs)

include merged

theorem Gathered.first {g : Global} (mem : g ∈ gs) :
    ∃ d, ds.find? (fun d => d.name == g.name) = some d ∧
      ∃ location binding init, g = { d with location, binding, init } := by
  obtain ⟨d,first,rest⟩ := (merged.made g mem).first
  exact ⟨d,head?_filter ▸ first,rest⟩

theorem Gathered.agree {d g : Global} (declared : d ∈ ds) (mem : g ∈ gs) (same : g.name = d.name) :
    g.ty = d.ty ∧ g.storage = d.storage ∧ ∀ e ∈ d.init, g.init = some e := by
  have made := merged.made g mem
  have mine : d ∈ ds.filter fun d => d.name == g.name :=
    mem_filter.mpr ⟨declared,by simp [same]⟩
  obtain ⟨ty,storage⟩ := made.agree d mine
  exact ⟨ty,storage,fun e init => (made.init e).mpr (mem_map.mpr ⟨d,mine,init⟩)⟩

theorem Gathered.inits {g : Global} (mem : g ∈ gs) {e : Expr} (init : e ∈ g.init) :
    ∃ d ∈ ds, d.name = g.name ∧ d.init = some e := by
  obtain ⟨d,mine,given⟩ := mem_map.mp (((merged.made g mem).init e).mp init)
  obtain ⟨declared,same⟩ := mem_filter.mp mine
  exact ⟨d,declared,by simpa using same,given⟩

end Globals

theorem mergeFunction_eq_ok {g m : Function} (merged : mergeFunction f g = .ok m) :
    f.returnTy = g.returnTy ∧ (m = f ∧ g.body = none ∨ m = g ∧ f.body = none) := by
  grind [mergeFunction,Option.isNone_iff_eq_none,Option.not_isSome_iff_eq_none]

theorem mergeFunction_isOk {g : Function} (returns : f.returnTy = g.returnTy)
    (once : f.body = none ∨ g.body = none) : ∃ m, mergeFunction f g = .ok m := by
  unfold mergeFunction
  rw [if_neg (not_not.mpr returns)]
  rcases once with none | none
  · by_cases declared : g.body.isNone = true
    · exact ⟨f,if_pos declared⟩
    · exact ⟨g,by simp [declared,none]⟩
  · exact ⟨f,by simp [none]⟩

/-- An overload is one of its declarations, and the one that has a body. -/
structure MadeFunction (ds : List Function) (f : Function) : Prop where
  origin : f ∈ ds
  agree : ∀ d ∈ ds, f.returnTy = d.returnTy ∧ (d.body.isSome = true → f = d)

theorem makesFunctions : Makes Function.signature mergeFunction MadeFunction where
  single d := ⟨by simp,by simp⟩
  key merged same := by
    obtain ⟨-,⟨rfl,-⟩ | ⟨rfl,-⟩⟩ := mergeFunction_eq_ok merged
    · rfl
    · exact same.symm
  join {ds f g m} made merged := by
    obtain ⟨returns,choice⟩ := mergeFunction_eq_ok merged
    rcases choice with ⟨rfl,none⟩ | ⟨rfl,none⟩
    · refine ⟨mem_append_left _ made.origin,fun d mem => ?_⟩
      rcases mem_append.mp mem with old | last
      · exact made.agree d old
      · cases mem_singleton.mp last
        exact ⟨returns,by simp [none]⟩
    · refine ⟨by simp,fun d mem => ?_⟩
      rcases mem_append.mp mem with old | last
      · obtain ⟨returns',kept⟩ := made.agree d old
        refine ⟨returns.symm.trans returns',fun hasBody => ?_⟩
        cases kept hasBody
        simp [none] at hasBody
      · cases mem_singleton.mp last
        exact ⟨rfl,fun _ => rfl⟩

theorem mergeFunction_isOk_iff {ds : List Function} {g : Function} (made : MadeFunction ds f) :
    (∃ m, mergeFunction f g = .ok m) ↔
      ∀ d ∈ ds, d.returnTy = g.returnTy ∧ (d.body = none ∨ g.body = none) := by
  constructor
  · rintro ⟨m,merged⟩ d mem
    obtain ⟨returns,choice⟩ := mergeFunction_eq_ok merged
    obtain ⟨returns',kept⟩ := made.agree d mem
    refine ⟨returns'.symm.trans returns,?_⟩
    rcases choice with ⟨-,none⟩ | ⟨-,none⟩
    · exact .inr none
    · refine .inl (Option.not_isSome_iff_eq_none.mp fun hasBody => ?_)
      cases kept hasBody
      simp [none] at hasBody
  · intro fits
    obtain ⟨returns,once⟩ := fits f made.origin
    exact mergeFunction_isOk returns once

theorem addFunction_eq (g : Function) (fs : List Function) :
    addFunction g fs = insertBy Function.signature mergeFunction g fs := by
  induction fs with
  | nil => rfl
  | cons f fs ih => rw [addFunction,insertBy,ih]

abbrev MergedFunctions (ds fs : List Function) : Prop :=
  Gathered Function.signature MadeFunction ds fs

section Functions

variable {ds fs : List Function} (merged : MergedFunctions ds fs)

include merged

theorem Gathered.origin (mem : f ∈ fs) : f ∈ ds :=
  (mem_filter.mp (merged.made f mem).origin).1

theorem Gathered.overload {d : Function} (declared : d ∈ ds) :
    ∃ f ∈ fs, f.signature = d.signature ∧ f.returnTy = d.returnTy ∧ (d.body.isSome = true → f = d) := by
  obtain ⟨f,mem,same⟩ := merged.exists_of_mem declared
  have made := merged.made f mem
  exact ⟨f,mem,same,made.agree d (mem_filter.mpr ⟨declared,by simp [same]⟩)⟩

end Functions

/-- A unit that says nothing twice. -/
structure Distinct (u : Program) : Prop where
  globals : (u.globals.map Global.name).Nodup
  functions : (u.functions.map Function.signature).Nodup

theorem distinct_of_wellTyped {u : Program} (typed : u.WellTyped) : Distinct u :=
  ⟨typed.globals.distinct,typed.signatures⟩

/-- The program that says what all units say together. -/
structure Union (us : List Program) (p : Program) : Prop where
  stage : ∀ u ∈ us, u.stage = p.stage
  es : ∀ u ∈ us, u.es = p.es
  version_le : ∀ u ∈ us, u.version ≤ p.version
  version_mem : ∃ u ∈ us, u.version = p.version
  localSize : Collects p.localSize (us.map Program.localSize)
  globals : Merged (us.flatMap Program.globals) p.globals
  functions : MergedFunctions (us.flatMap Program.functions) p.functions

namespace Union

variable {us : List Program} {p u q : Program}

theorem single (distinct : Distinct u) : Union [u] u := by
  refine ⟨by simp,by simp,by simp,by simp,.single _,?_,?_⟩
  · simpa using Gathered.of_nodup makesGlobals distinct.globals
  · simpa using Gathered.of_nodup makesFunctions distinct.functions

theorem absorb (union : Union us p) (absorbed : Linked.absorb p u = .ok q) : Union (us ++ [u]) q := by
  simp only [Linked.absorb,Except.ite_throw_eq_ok,Except.bind_eq_ok,Except.pure_eq_ok] at absorbed
  obtain ⟨stage,es,localSize,sized,globals,addedGlobals,functions,addedFunctions,rfl⟩ := absorbed
  rw [placed,Except.mapError_eq_ok,mergeLocalSize_eq_ok] at sized
  obtain ⟨agreed,rfl⟩ := sized
  have each {P : Program → Prop} (old : ∀ v ∈ us, P v) (last : P u) : ∀ v ∈ us ++ [u], P v :=
    forall_mem_append.mpr ⟨old,forall_mem_singleton.mpr last⟩
  refine ⟨each union.stage (not_not.mp stage),each union.es (not_not.mp es),
    each (fun v old => Nat.le_trans (union.version_le v old) (Nat.le_max_left _ _)) (Nat.le_max_right _ _),
    ?_,by simpa using union.localSize.or agreed,?_,?_⟩
  · grind [version_mem]
  · rw [flatMap_append]
    refine foldlM_holds (H := Merged) (fun merged ok => ?_) union.globals (by simpa using addedGlobals)
    rw [placed,Except.mapError_eq_ok,addGlobal_eq] at ok
    exact merged.add makesGlobals ok
  · rw [flatMap_append]
    refine foldlM_holds (H := MergedFunctions) (fun merged ok => ?_) union.functions
      (by simpa using addedFunctions)
    rw [placed,Except.mapError_eq_ok,addFunction_eq] at ok
    exact merged.add makesFunctions ok

theorem keeps_scoped (union : Union us p) (units : ∀ u ∈ us, u.Scoped) : p.Scoped := by
  refine ⟨fun f mem => ?_,fun g mem e init => ?_⟩
  · obtain ⟨u,unit,inside⟩ := mem_flatMap.mp (union.functions.origin mem)
    exact (units u unit).bodies f inside
  · obtain ⟨d,declared,-,given⟩ := union.globals.inits mem init
    obtain ⟨u,unit,inside⟩ := mem_flatMap.mp declared
    exact (units u unit).inits d inside e given

end Union

theorem mergeUnits_union (distinct : ∀ u ∈ us, Distinct u) (merged : mergeUnits us = .ok p) :
    Union us p := by
  cases us with
  | nil => cases merged
  | cons u us =>
    have start := Union.single (distinct u mem_cons_self)
    exact foldlM_holds (H := Union) (fun union absorbed => union.absorb absorbed) start merged

theorem merge_eq_ok :
    merge us = .ok p ↔ mergeUnits us = .ok p ∧ checkEntry p = .ok () ∧ checkCalls p = .ok () := by
  grind [merge,Except.bind_eq_ok,Except.pure_eq_ok]

variable {units : List Checked}

section

variable (checked : ∀ c ∈ units, ∃ u : WrittenUnit, u.check.Gives c)
include checked

theorem checked_wellTyped : ∀ u ∈ units.map Checked.program, u.WellTyped := by
  intro u mem
  obtain ⟨c,inside,rfl⟩ := mem_map.mp mem
  obtain ⟨w,given⟩ := checked c inside
  rw [eq_checkUnit_of_check given]
  exact checkUnit_wellTyped w

theorem link_union {l : Linked} (linked : (link units).Gives l) :
    ∃ p, Union (units.map Checked.program) p ∧ checkCalls p = .ok () ∧ RelocatedProgram p l.program := by
  grind [link_merged,merge_eq_ok,mergeUnits_union,distinct_of_wellTyped,checked_wellTyped]

end

/-- A program that checking, linking and the assignment of registers have made of source texts. -/
def FromSource (p : Program) : Prop :=
  ∃ units l table,
    (∀ c ∈ units, ∃ (u : StageSource) (lib : Source.Library), (u.check lib).Gives c) ∧
      (link units).Gives l ∧ (reflect l.program).Gives (table, p)

theorem check_scoped {u : StageSource} {lib : Source.Library} {c : Checked}
    (checked : (u.check lib).Gives c) : c.program.Scoped := by
  obtain ⟨w,-,checked⟩ := Reporting.Gives.of_bind checked
  rw [eq_checkUnit_of_check checked]
  exact checkUnit_scoped w

theorem FromSource.program_scoped (origin : FromSource p) : p.Scoped := by
  obtain ⟨units,l,table,checked,linked,reflected⟩ := origin
  obtain ⟨q,union,-,moved⟩ := link_union (fun c mem => by
    obtain ⟨u,lib,given⟩ := checked c mem
    obtain ⟨w,-,given⟩ := given.of_bind
    exact ⟨w,given⟩) linked
  refine (reflect_relocated reflected).scoped (moved.scoped (union.keeps_scoped ?_))
  grind [check_scoped]

def checkText (text : String) : Option Checked :=
  (((⟨.fragment, "a", text, ""⟩ : StageSource).check ({} : Source.HeaderStore).library).run.run
    {}).1.toOption

theorem gives_of_toOption {ε : Type} {work : Reporting ε α} {a : α}
    (given : (work.run.run {}).1.toOption = some a) : work.Gives a := by
  refine Reporting.gives_of_run (j := {}) ?_
  cases ran : (work.run.run {}).1 with
  | error e => simp [ran,Except.toOption] at given
  | ok b => simpa [ran,Except.toOption] using given

/-- A text of a fragment shader that passes the check. -/
structure CheckedText where
  text : String
  unit : Checked
  passes : checkText text = some unit

theorem CheckedText.exists_unit (t : CheckedText) : ∃ u : WrittenUnit, u.check.Gives t.unit := by
  obtain ⟨u,-,checked⟩ := (gives_of_toOption t.passes).of_bind
  exact ⟨u,checked⟩

end Shading.Linked
