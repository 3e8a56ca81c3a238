import Shading.Linked.Location
import Shading.Proofs.Outcome

/-! Placing the inputs and outputs of a stage: every one gets a location, those that the program gives
are kept, and the others get the lowest that are free, in the order of their declarations. Where this
fails, the program itself is the cause. -/
namespace Shading.Linked
open List Typed

variable {gs gs' vs : List Global} {storage : Storage} {t : Taken}

def placedIn (storage : Storage) (gs : List Global) : List Global := gs.filter (isPlaced storage)

def interface : List Storage := [.input, .output]

def ranges (vs : List Global) : List Taken :=
  vs.filterMap fun g => g.location.map fun n => ⟨n, n + g.ty.slots, g.name⟩

def Taken.Apart (s t : Taken) : Prop := s.stop ≤ t.start ∨ t.stop ≤ s.start

/-- The ranges can be counted, and no two of them meet. -/
structure Sound (rs : List Taken) : Prop where
  bounded : ∀ t ∈ rs, t.stop ≤ countLimit
  apart : rs.Pairwise Taken.Apart

/-- Beside the variables, so many locations are free from `start` on. -/
def Free (vs : List Global) (slots start : Nat) : Prop :=
  start + slots ≤ countLimit ∧ ∀ t ∈ ranges vs, t.stop ≤ start ∨ start + slots ≤ t.start

/-- Every variable has a location: its own, or the lowest that is free beside the variables of `all` and
beside those in front of it. Nothing else about it changes. -/
structure Filled (all vs vs' : List Global) : Prop where
  length_eq : vs'.length = vs.length
  given : ∀ (i : Nat) g, vs[i]? = some g → ∃ n, vs'[i]? = some { g with location := some n } ∧
    (g.location = some n ∨
      g.location = none ∧ IsLeast { m | Free (all ++ vs'.take i) g.ty.slots m } n)

def Moved (storage : Storage) (g g' : Global) : Prop :=
  g' = g ∨ isPlaced storage g = true ∧ g.location = none ∧ ∃ n, g' = { g with location := some n }

section Ranges

variable {vs ws : List Global} {g : Global} {t : Taken} {n : Nat}

@[simp] theorem ranges_append : ranges (vs ++ ws) = ranges vs ++ ranges ws := filterMap_append

@[simp] theorem ranges_nil : ranges [] = [] := rfl

theorem ranges_located (located : g.location = some n) :
    ranges (g :: vs) = ⟨n, n + g.ty.slots, g.name⟩ :: ranges vs := by
  simp [ranges,located]

theorem ranges_unlocated (unlocated : g.location = none) : ranges (g :: vs) = ranges vs := by
  simp [ranges,unlocated]

theorem mem_ranges : t ∈ ranges vs ↔ ∃ g ∈ vs, ∃ n, g.location = some n ∧ ⟨n, n + g.ty.slots, g.name⟩ = t := by
  simp [ranges]

theorem Taken.Apart.symm {s : Taken} (apart : s.Apart t) : t.Apart s := Or.symm apart

theorem Taken.apart_iff {start stop : Nat} (name : String) :
    t.overlaps start stop = false ↔ t.Apart ⟨start, stop, name⟩ := by
  simp only [overlaps,Apart,Bool.and_eq_false_iff,decide_eq_false_iff_not]
  omega

theorem Sound.insert {slots : Nat} (name : String) (ws : List Global) (sound : Sound (ranges (vs ++ ws)))
    (free : Free (vs ++ ws) slots n) : Sound (ranges vs ++ ⟨n, n + slots, name⟩ :: ranges ws) := by
  obtain ⟨fits,clear⟩ := free
  obtain ⟨bounded,apart⟩ := sound
  rw [ranges_append] at bounded apart clear
  refine ⟨?_,?_⟩
  · grind
  · obtain ⟨left,right,across⟩ := pairwise_append.mp apart
    refine pairwise_append.mpr ⟨left,pairwise_cons.mpr ⟨fun t m => ?_,right⟩,fun s m t m' => ?_⟩
    · exact Taken.Apart.symm (clear t (mem_append_right _ m))
    · rcases mem_cons.mp m' with rfl | m'
      · exact clear s (mem_append_left _ m)
      · exact across s m t m'

end Ranges

namespace Filled

variable {all vs vs' : List Global} {g : Global} {n : Nat}

theorem nil : Filled all [] [] := ⟨rfl,by simp⟩

theorem cons (first : g.location = some n ∨ g.location = none ∧ IsLeast { m | Free all g.ty.slots m } n)
    (rest : Filled (all ++ [{ g with location := some n }]) vs vs') :
    Filled all (g :: vs) ({ g with location := some n } :: vs') := by
  refine ⟨by simp [rest.length_eq],fun i h found => ?_⟩
  cases i with
  | zero =>
    obtain rfl : g = h := by simpa using found
    exact ⟨n,rfl,by simpa using first⟩
  | succ i => simpa using rest.given i h (by simpa using found)

theorem located (filled : Filled all vs vs') : ∀ g ∈ vs', g.location.isSome = true := by
  intro g' mem
  obtain ⟨i,bound,rfl⟩ := getElem_of_mem mem
  obtain ⟨n,found,-⟩ := filled.given i _ (getElem?_eq_getElem (filled.length_eq ▸ bound))
  rw [getElem?_eq_getElem bound,Option.some.injEq] at found
  rw [found,Option.isSome_some]

end Filled

section Search

variable {used : List Taken} {slots start : Nat}

theorem blocked_of_overlaps (inTheWay : t.overlaps start (start + slots) = true) {m : Nat}
    (from_ : start ≤ m) (before : m < t.stop) : ¬(t.stop ≤ m ∨ m + slots ≤ t.start) := by
  simp only [Taken.overlaps,Bool.and_eq_true,decide_eq_true_eq] at inTheWay
  omega

/-- The search keeps this: no start before the one that it has reached is free. -/
theorem firstFree?_eq (holds : ∀ t, t ∈ used ↔ t ∈ ranges vs)
    (blocked : ∀ m < start, ¬Free vs slots m) :
    (∃ n, firstFree? used slots start = some n ∧ IsLeast { m | Free vs slots m } n) ∨
      firstFree? used slots start = none ∧ ∀ m, ¬Free vs slots m := by
  induction start using firstFree?.induct used slots with
  | case1 start fits clear =>
    refine .inl ⟨start,?_,⟨fits,fun t m => ?_⟩,fun m free => ?_⟩
    · rw [firstFree?,dif_pos fits]
      split
      · rfl
      · simp_all
    · have apart := List.find?_eq_none.mp clear t ((holds t).mpr m)
      exact (Taken.apart_iff "").mp (by simpa using apart)
    · exact Nat.le_of_not_lt fun less => blocked m less free
  | case2 start fits t found ih =>
    have next : firstFree? used slots start = firstFree? used slots t.stop := by
      rw [firstFree?,dif_pos fits]
      split
      · simp_all
      · simp_all
    rw [next]
    refine ih fun m less free => ?_
    rcases Nat.lt_or_ge m start with before | from_
    · exact blocked m before free
    · exact blocked_of_overlaps (find?_some (p := fun (t : Taken) => t.overlaps start (start + slots)) found) from_ less
        (free.2 t ((holds t).mp (mem_of_find?_eq_some found)))
  | case3 start tooFar =>
    refine .inr ⟨by rw [firstFree?,dif_neg tooFar],fun m free => ?_⟩
    rcases Nat.lt_or_ge m start with before | from_
    · exact blocked m before free
    · have fits := free.1
      omega

end Search

/-- Why variables cannot be placed. -/
inductive Misplaced (vs : List Global) : PlaceFault → Prop where
  | outOfRange {g : Global} {n : Nat} (mem : g ∈ vs) (located : g.location = some n)
      (beyond : countLimit < n + g.ty.slots) : Misplaced vs (.outOfRange g.name n)
  | overlap {h g : Global} {m n : Nat} (inOrder : [h, g].Sublist vs) (first : h.location = some m)
      (second : g.location = some n) (left : n < m + h.ty.slots) (right : m < n + g.ty.slots) :
    Misplaced vs (.overlap g.name n h.name)
  /-- The variables in front have taken what was left. -/
  | noneFree {earlier later done : List Global} {g : Global} (inOrder : vs = earlier ++ g :: later)
      (unlocated : g.location = none) (filled : Filled vs earlier done)
      (full : ∀ n, ¬Free (vs ++ done) g.ty.slots n) : Misplaced vs (.noneFree g.name)

theorem Sound.not_misplaced (sound : Sound (ranges vs))
    (located : ∀ g ∈ vs, g.location.isSome = true) {f : PlaceFault} : ¬Misplaced vs f := by
  intro misplaced
  cases misplaced with
  | outOfRange mem located beyond =>
    have := sound.bounded _ (mem_ranges.mpr ⟨_,mem,_,located,rfl⟩)
    exact absurd this (Nat.not_le_of_lt beyond)
  | @overlap h g m n inOrder first second left right =>
    have both : (ranges [h,g]).Pairwise Taken.Apart := sound.apart.sublist (inOrder.filterMap _)
    rw [ranges_located first,ranges_located second,pairwise_cons] at both
    have apart : m + h.ty.slots ≤ n ∨ n + g.ty.slots ≤ m := both.1 _ mem_cons_self
    omega
  | noneFree inOrder unlocated =>
    have some := located _ (inOrder ▸ mem_append_right _ mem_cons_self)
    simp [unlocated] at some

section Storage

variable {storage : Storage} {all done : List Global} {used : List Taken}

/-- The ranges of the program are gathered, unless one is out of range or meets one before it. -/
theorem explicitRanges_outcome (storage : Storage) (done gs : List Global) (sound : Sound (ranges done)) :
    explicitRanges storage (ranges done) gs = .ok (ranges (done ++ placedIn storage gs)) ∧
        Sound (ranges (done ++ placedIn storage gs)) ∨
      ∃ f, explicitRanges storage (ranges done) gs = .error f ∧
        Misplaced (done ++ placedIn storage gs) f := by
  induction gs generalizing done with
  | nil => exact .inl ⟨by simp [explicitRanges,placedIn],by simpa [placedIn] using sound⟩
  | cons g gs ih =>
    cases isIn : isPlaced storage g with
    | false =>
      have skipped : placedIn storage (g :: gs) = placedIn storage gs := by simp [placedIn,isIn]
      simpa [explicitRanges,isIn,skipped] using ih done sound
    | true =>
      have split : done ++ placedIn storage (g :: gs) = (done ++ [g]) ++ placedIn storage gs := by
        simp [placedIn,isIn]
      rw [split]
      cases at_ : g.location with
      | none =>
        have same : ranges (done ++ [g]) = ranges done := by simp [ranges_unlocated at_]
        simpa [explicitRanges,isIn,at_,same] using ih (done ++ [g]) (same ▸ sound)
      | some n =>
        have more : ranges (done ++ [g]) = ranges done ++ [⟨n,n + g.ty.slots,g.name⟩] := by
          simp [ranges_located at_]
        by_cases beyond : countLimit < n + g.ty.slots
        · refine .inr ⟨.outOfRange g.name n,by simp [explicitRanges,isIn,at_,beyond],?_⟩
          exact .outOfRange (by simp) at_ beyond
        · cases found : (ranges done).find? fun t => t.overlaps n (n + g.ty.slots) with
          | some t =>
            obtain ⟨h,mem,m,first,rfl⟩ := mem_ranges.mp (mem_of_find?_eq_some found)
            have meets := find?_some (p := fun (t : Taken) => t.overlaps n (n + g.ty.slots)) found
            simp only [Taken.overlaps,Bool.and_eq_true,decide_eq_true_eq] at meets
            refine .inr ⟨.overlap g.name n h.name,by simp [explicitRanges,isIn,at_,beyond,found],?_⟩
            refine .overlap ?_ first at_ meets.1 meets.2
            exact .trans (Sublist.append (singleton_sublist.mpr mem) (.refl [g]))
              (sublist_append_left _ _)
          | none =>
            have next : Sound (ranges (done ++ [g])) := by
              refine more ▸ Sound.insert g.name [] (by simpa using sound) ⟨Nat.le_of_not_lt beyond,fun t m => ?_⟩
              have apart := List.find?_eq_none.mp found t (by simpa using m)
              exact (Taken.apart_iff "").mp (by simpa using apart)
            have step : explicitRanges storage (ranges done) (g :: gs) =
                explicitRanges storage (ranges (done ++ [g])) gs := by
              simp [explicitRanges,isIn,at_,beyond,found,more]
            rw [step]
            exact ih (done ++ [g]) next

/-- What comes of placing the other variables, beside those of `all` and those already done. -/
inductive FillOutcome (storage : Storage) (all done : List Global) (used : List Taken) (gs : List Global) : Prop where
  | filled (gs' : List Global) (ran : fillRanges storage used gs = .ok gs')
      (moved : Forall₂ (Moved storage) gs gs')
      (filled : Filled (all ++ done) (placedIn storage gs) (placedIn storage gs'))
      (sound : Sound (ranges (done ++ placedIn storage gs')))
  | full (earlier done' : List Global) {later : List Global} {g : Global}
    (inOrder : placedIn storage gs = earlier ++ g :: later)
      (unlocated : g.location = none) (filled : Filled (all ++ done) earlier done')
      (full : ∀ n, ¬Free (all ++ done ++ done') g.ty.slots n)
      (failed : fillRanges storage used gs = .error (.noneFree g.name))

section Step

variable {gs : List Global} {g : Global} {n : Nat}

theorem FillOutcome.skip (isOut : isPlaced storage g = false) (rest : FillOutcome storage all done used gs) :
    FillOutcome storage all done used (g :: gs) := by
  have skipped (hs : List Global) : placedIn storage (g :: hs) = placedIn storage hs := by simp [placedIn,isOut]
  have step : fillRanges storage used (g :: gs) = (fillRanges storage used gs).map (g :: ·) := by
    simp [fillRanges,isOut]
  cases rest with
  | filled gs' ran moved filled sound =>
    refine .filled (g :: gs') (by rw [step,ran]; rfl) (.cons (.inl rfl) moved) ?_ ?_
    · rwa [skipped,skipped]
    · rwa [skipped]
  | full earlier done' inOrder unlocated filled none failed =>
    exact .full earlier done' ((skipped gs).trans inOrder) unlocated filled none (by rw [step,failed]; rfl)

theorem FillOutcome.cons (used' : List Taken) (isIn : isPlaced storage g = true)
    (first : g.location = some n ∨
      g.location = none ∧ IsLeast { m | Free (all ++ done) g.ty.slots m } n)
    (step : fillRanges storage used (g :: gs) =
      (fillRanges storage used' gs).map ({ g with location := some n } :: ·))
    (rest : FillOutcome storage all (done ++ [{ g with location := some n }]) used' gs) :
    FillOutcome storage all done used (g :: gs) := by
  have isIn' : isPlaced storage { g with location := some n } = true := isIn
  have placed_cons : placedIn storage (g :: gs) = g :: placedIn storage gs := by simp [placedIn,isIn]
  cases rest with
  | filled gs' ran moved filled sound =>
    have placed_cons' : placedIn storage ({ g with location := some n } :: gs') =
        { g with location := some n } :: placedIn storage gs' := filter_cons_of_pos isIn'
    refine .filled ({ g with location := some n } :: gs') (by rw [step,ran]; rfl) (.cons ?_ moved) ?_ ?_
    · rcases first with own | ⟨none,-⟩
      · exact .inl (by rw [← own])
      · exact .inr ⟨isIn,none,n,rfl⟩
    · rw [placed_cons,placed_cons']
      exact .cons first (by simpa using filled)
    · simpa [placed_cons'] using sound
  | full earlier done' inOrder unlocated filled none failed =>
    refine .full (g :: earlier) ({ g with location := some n } :: done')
      (by rw [placed_cons,inOrder]; rfl) unlocated (.cons first (by simpa using filled)) ?_ (by rw [step,failed]; rfl)
    simpa using none

end Step

/-- The other variables are placed in turn, until one finds no room. -/
theorem fillRanges_outcome (gs : List Global) (holds : ∀ t, t ∈ used ↔ t ∈ ranges (all ++ done))
    (within : placedIn storage gs ⊆ all) (sound : Sound (ranges (done ++ placedIn storage gs))) :
    FillOutcome storage all done used gs := by
  induction gs generalizing used done with
  | nil => exact .filled [] rfl .nil .nil sound
  | cons g gs ih =>
    cases isIn : isPlaced storage g with
    | false =>
      have skipped : placedIn storage (g :: gs) = placedIn storage gs := by simp [placedIn,isIn]
      exact .skip isIn (ih holds (skipped ▸ within) (skipped ▸ sound))
    | true =>
      have first : placedIn storage (g :: gs) = g :: placedIn storage gs := by simp [placedIn,isIn]
      rw [first] at within sound
      obtain ⟨inAll,within⟩ := cons_subset.mp within
      cases at_ : g.location with
      | some n =>
        have same : { g with location := some n } = g := by rw [← at_]
        refine .cons used isIn (.inl at_) (by simp [fillRanges,isIn,at_,same]) ?_
        rw [same]
        have known : ⟨n,n + g.ty.slots,g.name⟩ ∈ ranges all := mem_ranges.mpr ⟨g,inAll,n,at_,rfl⟩
        grind [ranges_append,ranges_nil,ranges_located]
      | none =>
        have start (m : Nat) (less : m < 0) : ¬Free (all ++ done) g.ty.slots m := absurd less (Nat.not_lt_zero m)
        rcases firstFree?_eq holds start with
          ⟨n,found,least⟩ | ⟨found,none⟩
        · refine .cons (used ++ [⟨n,n + g.ty.slots,g.name⟩]) isIn (.inr ⟨at_,least⟩)
            (by simp [fillRanges,isIn,at_,found]) (ih (fun t => ?_) within ?_)
          · simp [holds,ranges_located,or_assoc]
          · have free : Free (done ++ placedIn storage gs) g.ty.slots n := by
              refine ⟨least.1.1,fun t mem => least.1.2 t ?_⟩
              simp only [ranges_append,mem_append] at mem ⊢
              exact mem.symm.imp_left fun here => filterMap_subset _ within here
            have room := Sound.insert g.name _ (by simpa [ranges_unlocated at_] using sound) free
            simpa [ranges_located] using room
        · refine .full [] [] (by rw [first]; rfl) at_ .nil (by simpa using none) ?_
          simp [fillRanges,isIn,at_,found]

theorem placeStorage_outcome (storage : Storage) (gs : List Global) :
    (∃ gs', placeStorage storage gs = .ok gs' ∧ Forall₂ (Moved storage) gs gs' ∧
        Filled (placedIn storage gs) (placedIn storage gs) (placedIn storage gs') ∧
        Sound (ranges (placedIn storage gs'))) ∨
      ∃ f, placeStorage storage gs = .error f ∧ Misplaced (placedIn storage gs) f := by
  rcases explicitRanges_outcome storage [] gs ⟨by simp,.nil⟩ with ⟨ran,sound⟩ | ⟨f,failed,cause⟩
  · have step : placeStorage storage gs = fillRanges storage (ranges (placedIn storage gs)) gs := by
      rw [placeStorage,← ranges_nil,ran]
      rfl
    rw [step]
    have holds (t : Taken) : t ∈ ranges (placedIn storage gs) ↔ t ∈ ranges (placedIn storage gs ++ []) := by simp
    cases fillRanges_outcome gs holds (Subset.refl _) sound with
    | filled gs' ran moved filled sound => exact .inl ⟨_,ran,moved,by simpa using filled,by simpa using sound⟩
    | full earlier done' inOrder unlocated filled none failed =>
      exact .inr ⟨_,failed,.noneFree inOrder unlocated (by simpa using filled) (by simpa using none)⟩
  · refine .inr ⟨f,?_,cause⟩
    rw [placeStorage,← ranges_nil,failed]
    rfl

theorem eq_of_moved (located : ∀ g ∈ placedIn storage gs, g.location.isSome = true)
    (moved : Forall₂ (Moved storage) gs gs') : gs' = gs := by
  induction moved with
  | nil => rfl
  | cons first _ ih =>
    rcases first with rfl | ⟨isIn,unlocated,-⟩
    · rw [ih fun g mem => located g (((sublist_cons_self _ _).filter _).subset mem)]
    · have some := located _ (mem_filter.mpr ⟨mem_cons_self,isIn⟩)
      simp [unlocated] at some

theorem placeStorage_of_sound (sound : Sound (ranges (placedIn storage gs)))
    (located : ∀ g ∈ placedIn storage gs, g.location.isSome = true) :
    placeStorage storage gs = .ok gs := by
  rcases placeStorage_outcome storage gs with ⟨gs',ran,moved,-⟩ | ⟨f,-,cause⟩
  · rw [ran,eq_of_moved located moved]
  · exact absurd cause (sound.not_misplaced located)

theorem filter_moved {P : Global → Bool} (moved : Forall₂ (Moved storage) gs gs')
    (outside : ∀ g n, isPlaced storage g = true → P g = false ∧ P { g with location := some n } = false) :
    gs'.filter P = gs.filter P := by
  induction moved with
  | nil => rfl
  | cons first rest ih =>
    rcases first with rfl | ⟨isIn,-,n,rfl⟩
    · rw [filter_cons,filter_cons,ih]
    · obtain ⟨left,right⟩ := outside _ n isIn
      rw [filter_cons_of_neg (by simp [right]),filter_cons_of_neg (by simp [left]),ih]

end Storage

section Bindings

def bindings (gs : List Global) : List (Nat × String) := gs.filterMap fun g => g.binding.map (·, g.name)

/-- Two variables with one binding are what this finds. -/
theorem checkBindings_outcome (done gs : List Global) (unique : ((bindings done).map Prod.fst).Nodup) :
    checkBindings (bindings done) gs = .ok () ∧ ((bindings (done ++ gs)).map Prod.fst).Nodup ∨
      ∃ h g b, [h, g].Sublist (done ++ gs) ∧ h.binding = some b ∧ g.binding = some b ∧
        checkBindings (bindings done) gs = .error (.bindingTaken g.name b h.name) := by
  induction gs generalizing done with
  | nil => exact .inl ⟨rfl,by simpa using unique⟩
  | cons g gs ih =>
    have split : done ++ g :: gs = (done ++ [g]) ++ gs := by simp
    rw [split]
    cases bound : g.binding with
    | none =>
      have same : bindings (done ++ [g]) = bindings done := by simp [bindings,bound]
      simpa [checkBindings,bound,same] using ih (done ++ [g]) (same ▸ unique)
    | some b =>
      have more : bindings (done ++ [g]) = bindings done ++ [(b, g.name)] := by simp [bindings,bound]
      cases found : (bindings done).lookup b with
      | some other =>
        obtain ⟨_,_,taken,-⟩ := lookup_eq_some_iff.mp found
        have mem : (b, other) ∈ bindings done := by simp [taken]
        obtain ⟨h,inDone,named⟩ := mem_filterMap.mp mem
        obtain ⟨b',own,same⟩ := Option.map_eq_some_iff.mp named
        obtain ⟨rfl,rfl⟩ := Prod.mk.inj same
        refine .inr ⟨h,g,b',?_,own,bound,by simp [checkBindings,bound,found]⟩
        exact .trans (Sublist.append (singleton_sublist.mpr inDone) (.refl [g]))
          (sublist_append_left _ _)
      | none =>
        have fresh := lookup_eq_none_iff.mp found
        have next : ((bindings (done ++ [g])).map Prod.fst).Nodup := by
          rw [more,map_append]
          refine nodup_append.mpr ⟨unique,by simp,?_⟩
          rintro n mem _ new rfl
          obtain ⟨p,inside,rfl⟩ := mem_map.mp mem
          obtain rfl : p.1 = b := by simpa using new
          simpa using fresh p inside
        have step : checkBindings (bindings done) (g :: gs) = checkBindings (bindings (done ++ [g])) gs := by
          simp [checkBindings,bound,found,more]
        rw [step]
        exact ih (done ++ [g]) next

end Bindings

/-- What a program with placed inputs and outputs has to do with the one before. -/
structure Placement (p q : Program) : Prop where
  others : q = { p with globals := q.globals }
  globals : Forall₂ (fun g g' => ∃ storage ∈ interface, Moved storage g g') p.globals q.globals
  filled : ∀ storage ∈ interface,
    Filled (placedIn storage p.globals) (placedIn storage p.globals) (placedIn storage q.globals)
  sound : ∀ storage ∈ interface, Sound (ranges (placedIn storage q.globals))
  bindings : ((bindings q.uniforms).map Prod.fst).Nodup

/-- What in the program is the cause of a fault. -/
inductive PlaceFault.Explained (p : Program) : PlaceFault → Prop where
  | misplaced {storage : Storage} {f : PlaceFault} (mem : storage ∈ interface)
      (cause : Misplaced (placedIn storage p.globals) f) : Explained p f
  | binding {h g : Global} {b : Nat} (inOrder : [h, g].Sublist p.uniforms) (first : h.binding = some b)
      (second : g.binding = some b) : Explained p (.bindingTaken g.name b h.name)

theorem isPlaced_storage {g : Global} (isIn : isPlaced storage g = true) : g.storage = storage := by
  simp only [isPlaced,Bool.and_eq_true,beq_iff_eq] at isIn
  exact isIn.1

theorem placed_moved {other : Storage} (differs : storage ≠ other)
    (moved : Forall₂ (Moved storage) gs gs') : placedIn other gs' = placedIn other gs := by
  refine filter_moved moved fun g n isIn => ?_
  have none : isPlaced other g = false := by
    simp [isPlaced,isPlaced_storage isIn,differs]
  exact ⟨none,none⟩

theorem uniforms_moved (mem : storage ∈ interface) (moved : Forall₂ (Moved storage) gs gs') :
    gs'.filter (fun g => g.storage == .uniform) = gs.filter fun g => g.storage == .uniform := by
  refine filter_moved moved fun g n isIn => ?_
  have none : (g.storage == .uniform) = false := by
    rw [isPlaced_storage isIn]
    rcases mem_pair.mp mem with rfl | rfl <;> rfl
  exact ⟨none,none⟩

theorem moved_trans {gs'' : List Global} (first : Forall₂ (Moved .input) gs gs')
    (second : Forall₂ (Moved .output) gs' gs'') :
    Forall₂ (fun g g' => ∃ storage ∈ interface, Moved storage g g') gs gs'' := by
  induction first generalizing gs'' with
  | nil =>
    cases second
    exact .nil
  | cons here rest ih =>
    cases second with
    | cons there rest' =>
      refine .cons ?_ (ih rest')
      rcases here with rfl | ⟨isIn,none,n,rfl⟩
      · exact ⟨.output,by simp [interface],there⟩
      · rcases there with rfl | ⟨isOut,-⟩
        · exact ⟨.input,by simp [interface],.inr ⟨isIn,none,n,rfl⟩⟩
        · exact absurd ((isPlaced_storage isIn).symm.trans (isPlaced_storage isOut)) (by decide)

/-- The inputs and outputs of every program are placed, and placing them again changes nothing, unless
the program has locations or bindings that no placement can have. -/
theorem placeInterface_outcome (p : Program) :
    (∃ q, placeInterface p = .ok q ∧ Placement p q ∧ placeInterface q = .ok q) ∨
      ∃ f, placeInterface p = .error f ∧ f.Explained p := by
  have inputs : Storage.input ∈ interface := by simp [interface]
  have outputs : Storage.output ∈ interface := by simp [interface]
  rcases placeStorage_outcome .input p.globals with ⟨gs,ranIn,movedIn,filledIn,soundIn⟩ | ⟨f,failed,cause⟩
  · have sameOut : placedIn .output gs = placedIn .output p.globals := placed_moved (by decide) movedIn
    rcases placeStorage_outcome .output gs with ⟨gs',ranOut,movedOut,filledOut,soundOut⟩ | ⟨f,failed,cause⟩
    · have sameIn : placedIn .input gs' = placedIn .input gs := placed_moved (by decide) movedOut
      generalize after : ({ p with globals := gs' } : Program) = q
      have globals : q.globals = gs' := by rw [← after]
      have uniforms : q.uniforms = p.uniforms := by
        rw [Program.uniforms,globals,uniforms_moved outputs movedOut,uniforms_moved inputs movedIn]
        rfl
      have step : placeInterface p = (checkBindings [] q.uniforms).bind fun _ => .ok q := by
        rw [placeInterface,ranIn,Except.ok_bind,ranOut,Except.ok_bind,after]
        rfl
      have again : placeInterface q = (checkBindings [] q.uniforms).bind fun _ => .ok q := by
        have inPlace : placeStorage .input q.globals = .ok q.globals := by
          rw [globals]
          exact placeStorage_of_sound (sameIn ▸ soundIn) (sameIn ▸ filledIn.located)
        have outPlace : placeStorage .output q.globals = .ok q.globals := by
          rw [globals]
          exact placeStorage_of_sound soundOut filledOut.located
        rw [placeInterface,inPlace,Except.ok_bind,outPlace,Except.ok_bind]
        rfl
      rcases checkBindings_outcome [] q.uniforms .nil with ⟨checked,unique⟩ |
        ⟨h,g,b,inOrder,first,second,failed⟩
      · have checked : checkBindings [] q.uniforms = .ok () := checked
        rw [checked] at step again
        refine .inl ⟨q,step,⟨by rw [← after],globals ▸ moved_trans movedIn movedOut,?_,?_,unique⟩,again⟩
        · rw [globals]
          exact forall_mem_cons.mpr ⟨sameIn ▸ filledIn,forall_mem_singleton.mpr (sameOut ▸ filledOut)⟩
        · rw [globals]
          exact forall_mem_cons.mpr ⟨sameIn ▸ soundIn,forall_mem_singleton.mpr soundOut⟩
      · rw [step,show checkBindings [] q.uniforms = _ from failed]
        exact .inr ⟨_,rfl,.binding (uniforms ▸ inOrder) first second⟩
    · refine .inr ⟨f,?_,.misplaced outputs (sameOut ▸ cause)⟩
      rw [placeInterface,ranIn,Except.ok_bind,failed]
      rfl
  · refine .inr ⟨f,?_,.misplaced inputs cause⟩
    rw [placeInterface,failed]
    rfl

end Shading.Linked
