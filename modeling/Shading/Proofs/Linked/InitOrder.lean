import Shading.Proofs.Linked.Fitting
import Shading.Proofs.Lowering.Initials

/-! The order in which initial values are stored is that in which globals are declared first, over all units.
So a value is stored after those that it reads if the unit that declares its global first also gives the
value, and not always if a later unit gives it. -/
namespace Shading.Linked
open List Typed Lowering

section Lists

variable {α : Type} [BEq α] [LawfulBEq α] {l l' : List α} {a b : α}

theorem pair_sublist_iff_idxOf (once : l.Nodup) (mem : b ∈ l) :
    Sublist [a, b] l ↔ l.idxOf a < l.idxOf b := by
  induction l with
  | nil => cases mem
  | cons x l ih =>
    obtain ⟨new,once⟩ := nodup_cons.mp once
    have inside (pair : Sublist [a,b] l) : a ∈ l ∧ b ∈ l := by
      simpa using pair.subset
    by_cases first : a = x
    · subst first
      rw [cons_sublist_cons,singleton_sublist,idxOf_cons_self]
      grind
    · rw [idxOf_cons_ne _ (Ne.symm first)]
      have skip : Sublist [a,b] (x :: l) ↔ Sublist [a,b] l := by
        rw [sublist_cons_iff]
        simp [first]
      rw [skip]
      by_cases same : b = x
      · simp_all
      · rw [idxOf_cons_ne _ (Ne.symm same),ih once ((mem_cons.mp mem).resolve_left same)]
        omega

theorem not_pair_sublist_iff (once : l.Nodup) (first : a ∈ l) (second : b ∈ l) (apart : a ≠ b) :
    ¬Sublist [a, b] l ↔ Sublist [b, a] l := by
  grind [pair_sublist_iff_idxOf,idxOf_inj]

theorem pair_sublist_of_sublist (once : l.Nodup) (part : Sublist l' l) (first : a ∈ l')
    (second : b ∈ l') (apart : a ≠ b) : Sublist [a, b] l' ↔ Sublist [a, b] l := by
  grind [Sublist.trans,not_pair_sublist_iff]

theorem pair_sublist_eraseDups_iff (once : l.eraseDups.Nodup) (first : a ∈ l) (second : b ∈ l)
    (apart : a ≠ b) : Sublist [a, b] l.eraseDups ↔ l.idxOf a < l.idxOf b := by
  have forward {a b : α} (second : b ∈ l) (lt : l.idxOf a < l.idxOf b) :
      Sublist [a,b] l.eraseDups := by
    obtain ⟨before,after,rfl,fresh⟩ := eq_append_cons_of_mem second
    grind [pair_sublist_eraseDups]
  grind [idxOf_inj,not_pair_sublist_iff]

end Lists

def StoredBefore (p : Program) (h g : Global) : Prop :=
  Sublist [h.name, g.name] ((initialized p.globals).map Global.name)

instance (p : Program) (h g : Global) : Decidable (StoredBefore p h g) :=
  inferInstanceAs (Decidable (Sublist _ _))

def declarations (us : List Program) : List String := us.flatMap fun u => u.globals.map Global.name

/-- The unit that declares the global first gives its initial value. -/
def GivenFirst (us : List Program) (g : Global) (e : Expr) : Prop :=
  ∃ before u after, us = before ++ u :: after ∧ g.name ∉ declarations before ∧
    ∃ d ∈ u.globals, d.name = g.name ∧ d.init = some e

theorem Relocated.initialized {gs gs' : List Global} (moved : Relocated gs gs') :
    (initialized gs).map Global.name = (initialized gs').map Global.name := by
  have same := congrArg
    (fun l => (l.filter fun g => g.builtin.isNone && g.init.isSome).map Global.name) moved
  simp only [filter_map,map_map] at same
  exact same

namespace Joined

variable {us : List Program} {q : Program}

section

variable (joined : Joined us q)
include joined

theorem names : q.globals.map Global.name = (declarations us).eraseDups := by
  obtain ⟨p,merged,-,globals,moved,rfl⟩ := joined.merged
  have same := merged.globals.keys
  rw [map_flatMap] at same
  rw [← moved.map_eq (f := Global.name) fun _ => rfl]
  exact same

theorem names_nodup : (q.globals.map Global.name).Nodup := by
  obtain ⟨p,merged,-,globals,moved,rfl⟩ := joined.merged
  rw [← moved.map_eq (f := Global.name) fun _ => rfl]
  exact merged.globals.distinct

theorem builtin_eq_none {g : Global} (mem : g ∈ q.globals) (init : g.init.isSome = true) :
    g.builtin = none := by
  obtain ⟨e,init⟩ := Option.isSome_iff_exists.mp init
  obtain ⟨u,unit,d,declared,named,given⟩ := joined.init_origin mem init
  obtain ⟨p,merged,-,globals,moved,rfl⟩ := joined.merged
  obtain ⟨h,old,location,rfl⟩ := moved.mem mem
  obtain ⟨d',found,_,_,_,rfl⟩ := merged.globals.first old
  obtain ⟨u',unit',declared'⟩ := mem_flatMap.mp (mem_of_find?_eq_some found)
  rcases (joined.typed u' unit').globals.ordinary d' declared' with ⟨v,line,rfl⟩ | ⟨none,-⟩
  · exfalso
    rcases (joined.typed u unit).globals.ordinary d declared with ⟨v',line',rfl⟩ | ⟨-,ordinary⟩
    · cases given
    · exact ordinary (named ▸ builtin_startsWith v)
  · exact none

theorem mem_initialized {g : Global} (mem : g ∈ q.globals) (init : g.init.isSome = true) :
    g ∈ initialized q.globals := by
  refine mem_filter.mpr ⟨mem,?_⟩
  simp [joined.builtin_eq_none mem init,init]

theorem storedBefore_iff {g h : Global} (mem : g ∈ q.globals) (member' : h ∈ q.globals)
    (init : g.init.isSome = true) (init' : h.init.isSome = true) :
    StoredBefore q h g ↔ (declarations us).idxOf h.name < (declarations us).idxOf g.name := by
  have first := mem_map_of_mem (f := Global.name) (joined.mem_initialized member' init')
  have second := mem_map_of_mem (f := Global.name) (joined.mem_initialized mem init)
  have once := joined.names_nodup
  have part : Sublist ((initialized q.globals).map Global.name) (q.globals.map Global.name) :=
    filter_sublist.map _
  by_cases same : h.name = g.name
  · grind [StoredBefore]
  · rw [StoredBefore,pair_sublist_of_sublist once part first second same,joined.names]
    grind [mem_eraseDups,names,pair_sublist_eraseDups_iff]

theorem declared_before {g : Global} {e : Expr} (given : GivenFirst us g e) {name : String} {t : Ty}
    (reads : .var (.global name) t ∈ e.parts) :
    (declarations us).idxOf name < (declarations us).idxOf g.name := by
  obtain ⟨before,u,after,rfl,fresh,d,declared,named,init⟩ := given
  have typed := joined.typed u (by simp)
  obtain ⟨i,found⟩ := mem_iff_getElem?.mp declared
  have part := (typed.inits found e init).1.parts _ reads
  obtain ⟨x,seen,same⟩ : ∃ x ∈ u.globals.take i, x.name = name := by
    cases part with
    | var known =>
      obtain ⟨x,found,-⟩ := Option.map_eq_some_iff.mp known
      exact ⟨x,mem_of_find?_eq_some found,by simpa using find?_some found⟩
  have split : u.globals = u.globals.take i ++ d :: u.globals.drop (i + 1) := by
    grind [drop_eq_getElem_cons,take_append_drop]
  have here : name ∈ declarations before ++ (u.globals.take i).map Global.name :=
    mem_append_right _ (same ▸ mem_map_of_mem seen)
  have absent : g.name ∉ declarations before ++ (u.globals.take i).map Global.name := by
    have once := typed.globals.distinct
    grind
  have all : declarations (before ++ u :: after) =
      (declarations before ++ (u.globals.take i).map Global.name) ++
        (g.name :: ((u.globals.drop (i + 1)).map Global.name ++ declarations after)) := by
    have own : u.globals.map Global.name = (u.globals.take i).map Global.name ++
        g.name :: (u.globals.drop (i + 1)).map Global.name := by
      rw [← named,← map_cons,← map_append,← split]
    simp only [declarations,flatMap_append,flatMap_cons,own,List.append_assoc,cons_append]
  grind

end

end Joined

/-- Linked programs store initial values in the order in which globals are declared first, at the start of
the entry point. A value comes after those of the globals that it reads, if the unit that declares its
global first gives it. -/
theorem link_inits_ordered {units : List Checked} {l : Linked}
    (checked : ∀ c ∈ units, ∃ u : WrittenUnit, u.check.Gives c) (linked : (link units).Gives l) :
    (∀ g ∈ l.program.globals, ∀ h ∈ l.program.globals, g.init.isSome = true → h.init.isSome = true →
      (StoredBefore l.program h g ↔ (declarations (units.map Checked.program)).idxOf h.name <
        (declarations (units.map Checked.program)).idxOf g.name)) ∧
    (∀ g ∈ l.program.globals, ∀ e ∈ g.init, GivenFirst (units.map Checked.program) g e →
      ∀ h ∈ l.program.globals, h.init.isSome = true → ∀ t, .var (.global h.name) t ∈ e.parts →
        StoredBefore l.program h g) ∧
    ∀ table q code s, (reflect l.program).Gives (table, q) → (lowerCode q).run {} = .ok (code, s) →
      (∀ g h, StoredBefore q h g ↔ StoredBefore l.program h g) ∧ ∃ entry, q.entry? = some entry ∧
          BeginsWithInits s.globals (initialized q.globals) (s.functions.lookup entry.signature) code := by
  have joined := Joined.of_link checked linked
  refine ⟨fun g member h member' => joined.storedBefore_iff member member',
    fun g member e init given h member' init' t reads => ?_,fun table q code s reflected ran => ?_⟩
  · refine (joined.storedBefore_iff member member' ?_ init').mpr (joined.declared_before given reads)
    rw [Option.mem_def.mp init]
    rfl
  · obtain ⟨globals,moved,rfl⟩ := reflect_relocated reflected
    refine ⟨fun g h => by rw [StoredBefore,StoredBefore,moved.initialized],?_⟩
    have origin := ran
    unfold lowerCode at ran
    split at ran
    · cases ran
    · rename_i entry isEntry
      have has := find?_some isEntry
      rw [Bool.and_eq_true] at has
      obtain ⟨body,hasBody⟩ := Option.isSome_iff_exists.mp has.2
      have member := mem_of_find?_eq_some isEntry
      obtain ⟨f,listed,same⟩ := mem_map.mp (mem_signatures_calleesFirst member has.2)
      cases inj_on_of_nodup_map joined.distinct (mem_calleesFirst f listed).1 member same
      exact ⟨entry,isEntry,lowerCode_stores listed has.1 hasBody origin⟩

/-! Two units that declare the same globals, of which one has the value of the other. -/
namespace Dependent

def float : Ty := .scalar .float

def one : Expr := .const (.float ⟨1065353216⟩)

def h (init : Option Expr) : Global := { name := "h", ty := float, storage := .priv, init, line := 1 }

def g (init : Option Expr) : Global := { name := "g", ty := float, storage := .priv, init, line := 1 }

def read : Expr := .var (.global "h") float

def main : Function where
  name := "main"
  signature := "main()"
  returnTy := .void
  params := []
  locals := []
  body := some []
  line := 1

def unit (globals : List Global) (functions : List Function) : Checked :=
  ⟨{ stage := .fragment, file := "a", globals, functions }, []⟩

def ordered : List Checked := [unit [h none, g (some read)] [main], unit [h (some one)] []]

def swapped : List Checked := [unit [g none, h (some one)] [main], unit [h none, g (some read)] []]

def texts : List CheckedText := [
  ⟨"float h;float g=h;void main(){}", unit [h none, g (some read)] [main], by decide +kernel⟩,
  ⟨"float h=1.;", unit [h (some one)] [], by decide +kernel⟩,
  ⟨"float g;float h=1.;void main(){}", unit [g none, h (some one)] [main], by decide +kernel⟩,
  ⟨"float h;float g=h;", unit [h none, g (some read)] [], by decide +kernel⟩]

theorem checked {c : Checked} (given : c ∈ ordered ++ swapped) : ∃ u : WrittenUnit, u.check.Gives c := by
  obtain ⟨t,-,rfl⟩ := mem_map.mp (show c ∈ texts.map CheckedText.unit from given)
  exact t.exists_unit

def program (globals : List Global) : Linked := ⟨(unit globals [main]).program, []⟩

def inOrder : Linked := program [h (some one), g (some read)]

def outOfOrder : Linked := program [g (some read), h (some one)]

theorem ordered_linked : (link ordered).Gives inOrder := by
  have linked : ((link ordered).run.run {}).1 = .ok inOrder := by cbv
  exact Reporting.gives_of_run linked

theorem swapped_linked : (link swapped).Gives outOfOrder := by
  have linked : ((link swapped).run.run {}).1 = .ok outOfOrder := by cbv
  exact Reporting.gives_of_run linked

end Dependent

/-- A value that a unit gives with the first declaration of its global is stored after the one that it
reads, also where that one comes from another unit. -/
theorem dependent_ordered : (∀ c ∈ Dependent.ordered, ∃ u : WrittenUnit, u.check.Gives c) ∧
      (link Dependent.ordered).Gives Dependent.inOrder ∧
      GivenFirst (Dependent.ordered.map Checked.program) (Dependent.g (some Dependent.read))
        Dependent.read ∧
      StoredBefore Dependent.inOrder.program (Dependent.h (some Dependent.one))
        (Dependent.g (some Dependent.read)) := by
  have checked : ∀ c ∈ Dependent.ordered, ∃ u : WrittenUnit, u.check.Gives c :=
    fun c member => Dependent.checked (mem_append_left _ member)
  have given : GivenFirst (Dependent.ordered.map Checked.program) (Dependent.g (some Dependent.read))
      Dependent.read :=
    ⟨[],_,_,rfl,by simp [declarations],_,.tail _ (.head _),rfl,rfl⟩
  refine ⟨checked,Dependent.ordered_linked,given,?_⟩
  refine (link_inits_ordered checked Dependent.ordered_linked).2.1 _ ?_ _ rfl given _ ?_ rfl
    Dependent.float ?_
  · exact .tail _ (.head _)
  · exact .head _
  · exact .head _

/-- Where a later unit gives the value, it may be stored before the one that it reads. -/
theorem link_swaps_inits : (∀ c ∈ Dependent.swapped, ∃ u : WrittenUnit, u.check.Gives c) ∧
      (link Dependent.swapped).Gives Dependent.outOfOrder ∧
      ¬∀ g ∈ Dependent.outOfOrder.program.globals, ∀ e ∈ g.init,
        ∀ h ∈ Dependent.outOfOrder.program.globals, h.init.isSome = true →
          ∀ t, .var (.global h.name) t ∈ e.parts → StoredBefore Dependent.outOfOrder.program h g := by
  refine ⟨fun c member => Dependent.checked (mem_append_right _ member),Dependent.swapped_linked,
    fun ordered => ?_⟩
  have stored := ordered (Dependent.g (some Dependent.read)) (.head _) Dependent.read rfl
    (Dependent.h (some Dependent.one)) (.tail _ (.head _)) rfl Dependent.float (.head _)
  revert stored
  decide

end Shading.Linked
