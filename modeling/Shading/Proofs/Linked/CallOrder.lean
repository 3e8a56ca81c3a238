import Mathlib
import Shading.Linked.CallGraph

/-! The order in which functions are lowered lists functions with bodies, and no signature twice. Where calls
are sound, functions are listed as they were followed, so each comes after those that it calls. -/
namespace Shading.Linked
open List Typed Relation

variable {s : String} {f : Function} {visited done path calls finished : List String}
  {fs gs : List Function}

def Step.function : Step → Function
  | .enter f | .leave f => f

def leaves (steps : List Step) : List String :=
  steps.filterMap fun
    | .enter _ => none
    | .leave f => some f.signature

theorem leaves_enter (fs : List Function) : leaves (fs.map Step.enter) = [] := by
  induction fs with
  | nil => rfl
  | cons f fs ih => simp [leaves]

theorem leaves_append (a b : List Step) : leaves (a ++ b) = leaves a ++ leaves b :=
  filterMap_append

variable {p : Program}

theorem body?_eq_some :
    body? p s = some f ↔ p.function? s = some f ∧ f.body.isSome = true := Option.filter_eq_some_iff

theorem signature_of_body? (h : body? p s = some f) : f.signature = s := by
  simpa using find?_some (body?_eq_some.mp h).1

theorem mem_body? (h : body? p s = some f) : f ∈ p.functions ∧ f.body.isSome = true :=
  (body?_eq_some.mp h).imp_left mem_of_find?_eq_some

variable {steps : List Step}

theorem mem_walk (known : ∀ s ∈ steps, s.function ∈ p.functions ∧ s.function.body.isSome = true) :
    ∀ f ∈ walk p visited steps, f ∈ p.functions ∧ f.body.isSome = true := by
  fun_induction walk p visited steps with
  | case1 => simp
  | case2 visited f rest ih =>
    rw [forall_mem_cons] at known
    exact forall_mem_cons.mpr ⟨known.1,ih known.2⟩
  | case3 visited f rest _ ih => exact ih fun s m => known s (.tail _ m)
  | case4 visited f rest _ _ ih =>
    rw [forall_mem_cons] at known
    refine ih (forall_mem_append.mpr ⟨fun s mem => ?_,forall_mem_cons.mpr known⟩)
    obtain ⟨g,found,rfl⟩ := mem_map.mp mem
    obtain ⟨signature,-,found⟩ := mem_filterMap.mp found
    exact mem_body? found
  | case5 visited f rest _ _ ih => exact ih fun s m => known s (.tail _ m)

theorem leaves_opened (f : Function) (rest : List Step) :
    leaves ((f.callees.filterMap (body? p)).map Step.enter ++ .leave f :: rest) = f.signature :: leaves rest := by
  rw [leaves_append,leaves_enter]
  rfl

theorem nodup_walk (once : (leaves steps).Nodup) (opened : leaves steps ⊆ visited) :
    ((walk p visited steps).map Function.signature).Nodup ∧
      ∀ f ∈ walk p visited steps, f.signature ∈ leaves steps ∨ f.signature ∉ visited := by
  fun_induction walk p visited steps with
  | case1 => simp
  | case2 visited f rest ih =>
    have cons : leaves (.leave f :: rest) = f.signature :: leaves rest := rfl
    grind
  | case3 visited f rest _ ih => exact ih once opened
  | case4 visited f rest fresh _ ih =>
    have same : leaves (.enter f :: rest) = leaves rest := rfl
    rw [leaves_opened] at ih
    grind
  | case5 visited f rest _ _ ih => exact ih once opened

theorem mem_signatures_walk
    (listed : s ∈ leaves steps ∨ s ∉ visited ∧ ∃ f ∈ p.functions, Step.enter f ∈ steps ∧ f.signature = s) :
    s ∈ (walk p visited steps).map Function.signature := by
  fun_induction walk p visited steps with
  | case1 => simp [leaves] at listed
  | case2 visited f rest ih =>
    have cons : leaves (.leave f :: rest) = f.signature :: leaves rest := rfl
    grind
  | case3 visited f rest seen ih =>
    have same : leaves (.enter f :: rest) = leaves rest := rfl
    grind
  | case4 visited f rest fresh known ih =>
    have same : leaves (.enter f :: rest) = leaves rest := rfl
    rw [leaves_opened] at ih
    grind
  | case5 visited f rest fresh unknown ih =>
    have same : leaves (.enter f :: rest) = leaves rest := rfl
    grind

theorem mem_roots (mem : f ∈ roots p) : f ∈ p.functions ∧ f.body.isSome = true := by
  rcases mem_append.mp mem with entry | body
  · have found := Option.mem_toList.mp entry
    have isEntry := find?_some found
    exact ⟨mem_of_find?_eq_some found,by simp at isEntry; exact isEntry.2⟩
  · exact mem_filter.mp body

theorem mem_calleesFirst : ∀ f ∈ calleesFirst p, f ∈ p.functions ∧ f.body.isSome = true := by
  refine mem_walk fun s mem => ?_
  obtain ⟨f,root,rfl⟩ := mem_map.mp mem
  exact mem_roots root

theorem nodup_calleesFirst : ((calleesFirst p).map Function.signature).Nodup := by
  refine (nodup_walk ?_ ?_).1
  all_goals simp [leaves_enter]

theorem mem_signatures_calleesFirst (mem : f ∈ p.functions) (hasBody : f.body.isSome = true) :
    f.signature ∈ (calleesFirst p).map Function.signature := by
  refine mem_signatures_walk (.inr ⟨by simp,f,mem,?_,rfl⟩)
  exact mem_map_of_mem (mem_append_right _ (mem_filter.mpr ⟨mem,hasBody⟩))

/-- Each function comes after those that it calls. -/
def CalleesBefore : List String → List Function → Prop
  | _, [] => True
  | done, f :: rest => f.callees ⊆ done ∧ CalleesBefore (f.signature :: done) rest

theorem CalleesBefore.append (first : CalleesBefore done fs)
    (second : CalleesBefore ((fs.map Function.signature).reverse ++ done) gs) :
    CalleesBefore done (fs ++ gs) := by
  induction fs generalizing done with
  | nil => exact second
  | cons f fs ih => exact ⟨first.1,ih first.2 (by simpa using second)⟩

theorem CalleesBefore.split (before : CalleesBefore done (fs ++ f :: gs)) :
    f.callees ⊆ (fs.map Function.signature).reverse ++ done := by
  induction fs generalizing done with
  | nil => exact before.1
  | cons g fs ih => simpa using ih before.2

def Calls (p : Program) (s c : String) : Prop := ∃ f, body? p s = some f ∧ c ∈ f.callees

/-- What was followed: the functions that were left, in their order, which is also that of a walk. -/
structure Followed (p : Program) (path calls finished done : List String) (new : List Function) : Prop where
  eq : done = (new.map Function.signature).reverse ++ finished
  within : calls ⊆ done
  order : CalleesBefore finished new
  reached : ∀ g ∈ new, body? p g.signature = some g ∧ ∃ c ∈ calls, ReflTransGen (Calls p) c g.signature
  listed : ∀ visited rest, (∀ s, s ∈ visited ↔ s ∈ path ∨ s ∈ finished) →
    ∃ visited', (∀ s, s ∈ visited' ↔ s ∈ path ∨ s ∈ done) ∧
      walk p visited ((calls.filterMap (body? p)).map Step.enter ++ rest) = new ++ walk p visited' rest

theorem follow_followed (followed : follow p path calls finished = .ok done) :
    ∃ new, Followed p path calls finished done new := by
  fun_induction follow p path calls finished generalizing done with
  | case1 finished =>
    cases followed
    exact ⟨[],rfl,nil_subset _,trivial,by simp,fun visited rest same => ⟨visited,same,rfl⟩⟩
  | case2 | case4 | case5 | case6 => cases followed
  | case3 path callee rest finished fresh known ih =>
    obtain ⟨new,h⟩ := ih followed
    refine ⟨new,h.eq,cons_subset.mpr ⟨?_,h.within⟩,h.order,fun g mem => ?_,fun visited steps same => ?_⟩
    · rw [h.eq]
      exact mem_append_right _ known
    · obtain ⟨found,c,called,reached⟩ := h.reached g mem
      exact ⟨found,c,.tail _ called,reached⟩
    · obtain ⟨visited',same',eq⟩ := h.listed visited steps same
      refine ⟨visited',same',?_⟩
      cases found : body? p callee with
      | none => simpa [filterMap_cons,found] using eq
      | some f =>
        have seen : f.signature ∈ visited := (same _).mpr (.inr (signature_of_body? found ▸ known))
        simpa [filterMap_cons,found,walk,seen] using eq
  | case7 path callee rest finished fresh new f known hasBody finished' inner ih₁ ih₂ =>
    obtain ⟨new₁,h₁⟩ := ih₁ inner
    obtain ⟨new₂,h₂⟩ := ih₂ followed
    have found : body? p callee = some f := body?_eq_some.mpr ⟨known,by simpa [Option.isSome_iff_ne_none] using hasBody⟩
    have named := signature_of_body? found
    subst named
    have split : finished' = (new₁.map Function.signature).reverse ++ finished := h₁.eq
    refine ⟨new₁ ++ f :: new₂,by simp [h₂.eq,split],cons_subset.mpr ⟨by simp [h₂.eq],h₂.within⟩,
      h₁.order.append ⟨split ▸ h₁.within,split ▸ h₂.order⟩,fun g mem => ?_,fun visited steps same => ?_⟩
    · rcases mem_append.mp mem with before | here
      · obtain ⟨found',c,called,reached⟩ := h₁.reached g before
        exact ⟨found',_,.head _,.head ⟨f,found,called⟩ reached⟩
      · rcases mem_cons.mp here with rfl | after
        · exact ⟨found,_,.head _,.refl⟩
        · obtain ⟨found',c,called,reached⟩ := h₂.reached g after
          exact ⟨found',c,.tail _ called,reached⟩
    · have unseen : f.signature ∉ visited := by simp [same,fresh,new]
      have inside : f.signature ∈ p.functions.map Function.signature := mem_map_of_mem (mem_body? found).1
      obtain ⟨visited₁,same₁,eq₁⟩ := h₁.listed (f.signature :: visited)
        (.leave f :: ((rest.filterMap (body? p)).map Step.enter ++ steps)) (by simp [same,or_assoc])
      obtain ⟨visited₂,same₂,eq₂⟩ := h₂.listed visited₁ steps (by simp [same₁]; grind)
      refine ⟨visited₂,same₂,?_⟩
      rw [filterMap_cons,found,map_cons,cons_append,walk,dif_neg unseen,dif_pos inside,eq₁,walk,
        eq₂,List.append_assoc,cons_append]

theorem walk_of_follow (mem : f ∈ p.functions) (fresh : f.signature ∉ finished)
    (same : ∀ s, s ∈ visited ↔ s ∈ finished)
    (followed : follow p [f.signature] f.callees finished = .ok done) (rest : List Step) :
    ∃ new visited', Followed p [f.signature] f.callees finished done new ∧
      (∀ s, s ∈ visited' ↔ s ∈ f.signature :: done) ∧
      walk p visited (.enter f :: rest) = new ++ f :: walk p visited' rest := by
  obtain ⟨new,h⟩ := follow_followed followed
  have unseen : f.signature ∉ visited := by rwa [same]
  obtain ⟨visited',same',eq⟩ := h.listed (f.signature :: visited) (.leave f :: rest) (by simp [same])
  refine ⟨new,visited',h,by simpa using same',?_⟩
  rw [walk,dif_neg unseen,dif_pos (mem_map_of_mem mem),eq,walk]

theorem followAll_followed (followed : followAll p fs finished = .ok done)
    (members : ∀ f ∈ fs, f ∈ p.functions) (same : ∀ s, s ∈ visited ↔ s ∈ finished) :
    CalleesBefore finished (walk p visited (fs.map Step.enter)) := by
  induction fs generalizing finished visited with
  | nil =>
    rw [map_nil,walk]
    trivial
  | cons f fs ih =>
    rw [forall_mem_cons] at members
    rw [map_cons]
    unfold followAll at followed
    by_cases old : f.signature ∈ finished
    · rw [if_pos old] at followed
      rw [walk,dif_pos ((same _).mpr old)]
      exact ih followed members.2 same
    · rw [if_neg old] at followed
      split at followed
      · cases followed
      · rename_i done' inner
        obtain ⟨new,visited',h,same',eq⟩ := walk_of_follow members.1 old same inner (fs.map Step.enter)
        rw [eq]
        refine h.order.append ⟨h.eq ▸ h.within,?_⟩
        rw [← h.eq]
        exact ih followed members.2 same'

section

variable (distinct : (p.functions.map Function.signature).Nodup) (mem : f ∈ p.functions)
include distinct mem

theorem function?_of_mem : p.function? f.signature = some f := by
  grind [Program.function?,find?_isSome,Option.isSome_iff_exists,inj_on_of_nodup_map]

theorem body?_of_mem (hasBody : f.body.isSome = true) : body? p f.signature = some f :=
  body?_eq_some.mpr ⟨function?_of_mem distinct mem,hasBody⟩

end

theorem followAll_of_checkCalls (checked : checkCalls p = .ok ()) :
    ∃ done, followAll p (roots p) [] = .ok done := by
  unfold checkCalls at checked
  split at checked
  · exact ⟨_,by assumption⟩
  · cases checked

theorem calleesFirst_calleesBefore (checked : checkCalls p = .ok ()) : CalleesBefore [] (calleesFirst p) := by
  obtain ⟨done,followed⟩ := followAll_of_checkCalls checked
  exact followAll_followed followed (fun f root => (mem_roots root).1) fun _ => .rfl

/-- What a function needs: itself, and what it calls through others. -/
def Needs (p : Program) (f : Function) (s : String) : Prop :=
  s = f.signature ∨ ∃ c ∈ f.callees, ReflTransGen (Calls p) c s

theorem Followed.closed {new : List Function} (h : Followed p path calls [] done new) {c : String}
    (called : c ∈ calls) (reached : ReflTransGen (Calls p) c s) :
    s ∈ new.map Function.signature := by
  have within : ∀ s, s ∈ done ↔ s ∈ new.map Function.signature := by simp [h.eq]
  induction reached with
  | refl => exact (within _).mp (h.within called)
  | tail _ call ih =>
    obtain ⟨f,found,called⟩ := call
    obtain ⟨g,mem,named⟩ := mem_map.mp ih
    obtain ⟨found',-⟩ := h.reached g mem
    cases found.symm.trans (named ▸ found')
    obtain ⟨before,after,split⟩ := append_of_mem mem
    have inside := (split ▸ h.order).split called
    rw [append_nil,mem_reverse] at inside
    rw [split,map_append]
    exact mem_append_left _ inside

/-- The order of the functions of a program with sound calls: each signature with a body is listed once,
after all that its function calls, and what the entry point needs comes before everything else. -/
theorem calleesFirst_sorted (checked : checkCalls p = .ok ()) :
    ((calleesFirst p).map Function.signature).Nodup ∧
    (∀ s, s ∈ (calleesFirst p).map Function.signature ↔
      ∃ f ∈ p.functions, f.body.isSome = true ∧ f.signature = s) ∧
    ((p.functions.map Function.signature).Nodup →
      (calleesFirst p).Perm (p.functions.filter fun f => f.body.isSome)) ∧
    (∀ before f after, calleesFirst p = before ++ f :: after → f.callees ⊆ before.map Function.signature) ∧
    ∀ main, p.entry? = some main → ∃ needed others, calleesFirst p = needed ++ others ∧
      (∀ f ∈ needed, Needs p main f.signature) ∧ ∀ f ∈ others, ¬Needs p main f.signature := by
  refine ⟨nodup_calleesFirst,fun s => ?_,fun distinct => ?_,fun before f after eq => ?_,fun main entry => ?_⟩
  · constructor
    · intro listed
      obtain ⟨f,member,rfl⟩ := mem_map.mp listed
      exact ⟨f,(mem_calleesFirst f member).1,(mem_calleesFirst f member).2,rfl⟩
    · rintro ⟨f,member,hasBody,rfl⟩
      exact mem_signatures_calleesFirst member hasBody
  · refine (perm_ext_iff_of_nodup nodup_calleesFirst.of_map (distinct.of_map.filter _)).mpr fun f => ?_
    rw [mem_filter]
    refine ⟨mem_calleesFirst f,fun ⟨member,hasBody⟩ => ?_⟩
    obtain ⟨g,listed,same⟩ := mem_map.mp (mem_signatures_calleesFirst member hasBody)
    rwa [← inj_on_of_nodup_map distinct (mem_calleesFirst g listed).1 member same]
  · have called := (eq ▸ calleesFirst_calleesBefore checked).split
    simpa using called
  · obtain ⟨done,followed⟩ := followAll_of_checkCalls checked
    have first : roots p = main :: p.functions.filter fun f => f.body.isSome := by rw [roots,entry]; rfl
    have member : main ∈ p.functions := mem_of_find?_eq_some entry
    rw [first,followAll,if_neg (by simp)] at followed
    split at followed
    · cases followed
    · rename_i inner
      obtain ⟨new,visited,h,-,eq⟩ := walk_of_follow member (by simp) (fun s => Iff.refl (s ∈ [])) inner
        ((p.functions.filter fun f => f.body.isSome).map Step.enter)
      have order : calleesFirst p = (new ++ [main]) ++
          walk p visited ((p.functions.filter fun f => f.body.isSome).map Step.enter) := by
        rw [calleesFirst,first,map_cons,eq,List.append_assoc]
        rfl
      refine ⟨_,_,order,fun f listed => ?_,fun f later needs => ?_⟩
      · rcases mem_append.mp listed with callee | here
        · exact .inr (h.reached f callee).2
        · cases mem_singleton.mp here
          exact .inl rfl
      · have once := nodup_calleesFirst (p := p)
        rw [order,map_append,nodup_append] at once
        refine once.2.2 f.signature ?_ f.signature (mem_map_of_mem later) rfl
        rw [map_append,mem_append]
        rcases needs with own | ⟨c,called,reached⟩
        · exact .inr (by simp [own])
        · exact .inl (h.closed called reached)

/-- A function that does nothing but calls. -/
def calling (name : String) (callees : List String) : Function where
  name := name
  signature := signature name []
  returnTy := .void
  params := []
  locals := []
  body := some (callees.map fun c => .expr (.call c [] .void))
  line := 1

/-- The entry point needs functions that stand behind it, and not the one before it. -/
def layered : Program where
  stage := .fragment
  file := "a"
  functions := [calling "extra" ["low()"], calling "main" ["high()", "low()"], calling "high" ["low()"], calling "low" []]

theorem layered_sorted : checkCalls layered = .ok () ∧ layered.entry? = some (calling "main" ["high()", "low()"]) ∧
    ∃ needed others, calleesFirst layered = needed ++ others ∧
      (∀ f ∈ needed, Needs layered (calling "main" ["high()", "low()"]) f.signature) ∧
      ∀ f ∈ others, ¬Needs layered (calling "main" ["high()", "low()"]) f.signature := by
  have checked : checkCalls layered = .ok () := by cbv
  exact ⟨checked,rfl,(calleesFirst_sorted checked).2.2.2.2 _ rfl⟩

section Congruence

variable {q : Program} (same : p.functions = q.functions)

include same

theorem body?_congr : body? p = body? q := by
  funext signature
  rw [body?,body?,Program.function?,Program.function?,same]

theorem walk_congr (visited : List String) (steps : List Step) :
    walk p visited steps = walk q visited steps := by
  have bodies := body?_congr same
  fun_induction walk p visited steps with
  | case1 => rw [walk]
  | case2 visited f rest ih => rw [walk,ih]
  | case3 visited f rest seen ih => rw [walk,dif_pos seen,ih]
  | case4 visited f rest fresh known ih =>
    rw [walk,dif_neg fresh,dif_pos (same ▸ known),ih,bodies]
  | case5 visited f rest fresh unknown ih =>
    rw [walk,dif_neg fresh,dif_neg (same ▸ unknown),ih]

theorem calleesFirst_congr : calleesFirst p = calleesFirst q := by
  grind [roots,Program.entry?,calleesFirst,walk_congr]

end Congruence

end Shading.Linked
