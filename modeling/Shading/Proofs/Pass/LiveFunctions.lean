import Shading.Proofs.Pass.DeadFunctions

/-! What is left of any code in which ids are defined once and annotations stand outside of functions: the
functions that calls lead to from the entry point, as they were, and all else but annotations of what is gone. -/
namespace Shading.Bytecode.Pass
open List Relation Instruction

/-- A function calls another. -/
def Calls (functions : List FunctionCode) (a b : Id) : Prop := ∃ f ∈ functions, f.id = a ∧ b ∈ f.callees

section Reachability

variable {functions : List FunctionCode} {live work : List Id}

theorem calls_of_calleesOf {a b : Id} (called : b ∈ calleesOf functions a) : Calls functions a b := by
  unfold calleesOf at called
  split at called
  · rename_i f found
    obtain ⟨mem,same⟩ := mem_filter.mp (mem_of_getLast? found)
    exact ⟨f,mem,by simpa using same,called⟩
  · cases called

/-- The search visits nothing but what calls lead to. -/
theorem reachable_sound {P : Id → Prop} (closed : ∀ a b, P a → Calls functions a b → P b)
    (visited : ∀ id ∈ live, P id) (waiting : ∀ id ∈ work, P id) :
    ∀ id ∈ reachable functions live work, P id := by
  fun_induction reachable functions live work with
  | case1 => exact visited
  | case2 live id work _ ih => exact ih visited (forall_mem_cons.mp waiting).2
  | case3 live id work _ _ ih =>
    obtain ⟨here,later⟩ := forall_mem_cons.mp waiting
    refine ih (forall_mem_cons.mpr ⟨here,visited⟩) (forall_mem_append.mpr ⟨fun c called => ?_,later⟩)
    exact closed id c here (calls_of_calleesOf called)
  | case4 live id work _ _ ih => exact ih visited (forall_mem_cons.mp waiting).2

theorem mem_reachable_iff (unique : (functions.map FunctionCode.id).Nodup) {entry id : Id}
    (known : id ∈ functions.map FunctionCode.id) :
    id ∈ reachable functions [] [entry] ↔ ReflTransGen (Calls functions) entry id := by
  refine ⟨reachable_sound (fun a b => .tail) (by simp) (by simp [ReflTransGen.refl]) id,fun path => ?_⟩
  induction path with
  | refl => exact mem_reachable_of_work _ (by simp) known
  | tail _ call ih =>
    obtain ⟨f,mem,rfl,called⟩ := call
    refine reachable_closed (by simp) f.id (ih (mem_map_of_mem mem)) _ ?_ known
    rwa [calleesOf_eq unique mem]

end Reachability

/-- Functions stay if they are reached, and annotations if their targets are defined. -/
def Part.stays (live defined : List Id) : Part → Bool
  | .outside i => i.IsFresh defined
  | .function f => live.contains f.id

variable {code out : List Instruction} {ps : List Part}

def AnnotatedOutside (ps : List Part) : Prop :=
  ∀ f, .function f ∈ ps → ∀ i ∈ f.code, i.op.isNote = false

theorem flatMap_filter_stays (live defined : List Id) (outside : AnnotatedOutside ps) :
    ((ps.filter fun p => p.function?.all fun f => live.contains f.id).flatMap Part.code).filter
      (IsFresh defined) = (ps.filter (Part.stays live defined)).flatMap Part.code := by
  induction ps with
  | nil => rfl
  | cons part ps ih =>
    have rest := ih fun f mem => outside f (mem_cons_of_mem _ mem)
    rw [filter_cons,filter_cons]
    cases part with
    | outside i =>
      rw [if_pos (by rfl),flatMap_cons,filter_append,rest,Part.stays]
      cases kept : i.IsFresh defined <;> simp [Part.code,kept]
    | function f =>
      have whole : f.code.filter (IsFresh defined) = f.code := filter_eq_self.mpr fun i mem =>
        isFresh_of_isNote_false (outside f mem_cons_self i mem)
      rw [Part.stays,Part.function?,Option.all_some]
      cases live.contains f.id with
      | false => exact rest
      | true => rw [if_pos rfl,if_pos rfl,flatMap_cons,flatMap_cons,filter_append,rest,Part.code,whole]

theorem mem_functions {f : FunctionCode} : f ∈ ps.filterMap Part.function? ↔ .function f ∈ ps := by
  refine ⟨fun mem => ?_,fun mem => mem_filterMap.mpr ⟨_,mem,rfl⟩⟩
  obtain ⟨p,here,is⟩ := mem_filterMap.mp mem
  cases p with
  | outside i => cases is
  | function g =>
    cases is
    exact here

/-- Deleting functions leaves the entry point, which stands outside of them. -/
theorem entry?_filter {q : Part → Bool} (outside : AnnotatedOutside ps)
    (kept : ∀ i, .outside i ∈ ps → i.op = .entryPoint → q (.outside i) = true) :
    entry? ((ps.filter q).flatMap Part.code) = entry? (ps.flatMap Part.code) := by
  have same : ((ps.filter q).flatMap Part.code).filter (fun i => i.op == .entryPoint) =
      (ps.flatMap Part.code).filter fun i => i.op == .entryPoint := by
    induction ps with
    | nil => rfl
    | cons p ps ih =>
      have rest := ih (fun f mem => outside f (mem_cons_of_mem _ mem))
        fun i mem => kept i (mem_cons_of_mem _ mem)
      rw [flatMap_cons,filter_append,← rest,filter_cons]
      split
      · rw [flatMap_cons,filter_append]
      · rename_i gone
        have none : p.code.filter (fun i => i.op == .entryPoint) = [] := by
          refine filter_eq_nil_iff.mpr fun i mem entry => ?_
          have op : i.op = .entryPoint := by simpa using entry
          cases p with
          | outside j =>
            cases mem_singleton.mp mem
            exact gone (kept i mem_cons_self op)
          | function f =>
            have := outside f mem_cons_self i mem
            simp [op,Opcode.isNote] at this
        rw [none,nil_append]
  simp only [← head?_filter, entry?,same]

theorem reached_among {functions : List FunctionCode} (kept : List FunctionCode) {entry id : Id}
    (all : ∀ f ∈ functions, ReflTransGen (Calls functions) entry f.id → f ∈ kept)
    (path : ReflTransGen (Calls functions) entry id) : ReflTransGen (Calls kept) entry id := by
  induction path with
  | refl => exact .refl
  | tail path call ih =>
    obtain ⟨f,mem,rfl,called⟩ := call
    exact .tail ih ⟨f,all f mem path,rfl,called⟩

/-- Where all functions are reached that are left, nothing more is found. -/
theorem dropDeadFunctions_filter {entry : Id} {keep : Part → Bool} (whole : ∀ p ∈ ps, p.Whole)
    (unique : (results (ps.flatMap Part.code)).Nodup)
    (starts : entry? ((ps.filter keep).flatMap Part.code) = some entry)
    (reached : ∀ f, .function f ∈ ps →
      (keep (.function f) = true ↔ ReflTransGen (Calls (ps.filterMap Part.function?)) entry f.id)) :
    (dropDeadFunctions ((ps.filter keep).flatMap Part.code)).map Outcome.code =
      .ok ((ps.filter keep).flatMap Part.code) := by
  have whole' : ∀ p ∈ ps.filter keep, p.Whole := fun p mem => whole p (mem_filter.mp mem).1
  have distinct := nodup_functions whole' ((Sublist.filterMap _ (filter_sublist.flatMap _)).nodup unique)
  have none : (ps.filter keep).filter (not ∘ fun p => p.function?.all fun f =>
      (reachable ((ps.filter keep).filterMap Part.function?) [] [entry]).contains f.id) = [] := by
    refine filter_eq_nil_iff.mpr fun p mem => ?_
    cases p with
    | outside i => simp [Part.function?]
    | function f =>
      obtain ⟨here,kept⟩ := mem_filter.mp mem
      have path := reached_among ((ps.filter keep).filterMap Part.function?) (fun g known path => ?_)
        ((reached f here).mp kept)
      · simpa [Part.function?] using
          (mem_reachable_iff distinct (mem_map_of_mem (mem_functions.mpr mem))).mpr path
      · have known := mem_functions.mp known
        exact mem_functions.mpr (mem_filter.mpr ⟨known,(reached g known).mpr path⟩)
  rw [dropDeadFunctions,starts]
  simp only [parts_eq_ok.mpr ⟨whole',rfl⟩,Except.ok_bind,partition_eq_filter_filter,none]
  rfl

/-- The code after the pass. -/
theorem dropDeadFunctions_outcome (unique : (results code).Nodup)
    (outside : ∀ ps, parts code = .ok ps → AnnotatedOutside ps)
    (ran : (dropDeadFunctions code).map Outcome.code = .ok out) :
    ∃ entry ps keep, entry? code = some entry ∧ parts code = .ok ps ∧ ps.flatMap Part.code = code ∧
      parts out = .ok (ps.filter keep) ∧ (ps.filter keep).flatMap Part.code = out ∧
      (∀ f, .function f ∈ ps → (keep (.function f) = true ↔
        ReflTransGen (Calls (ps.filterMap Part.function?)) entry f.id)) ∧
      (∀ i, .outside i ∈ ps → (keep (.outside i) = false ↔
        (i.op = .debugName ∨ i.op = .decorate) ∧ (∀ x ∈ i.operands.head?, x ∉ results out) ∧
          ∃ f, .function f ∈ ps ∧ keep (.function f) = false)) ∧
      (∀ f, .function f ∈ ps.filter keep → ∀ g, .function g ∈ ps → g.id ∈ f.callees →
        .function g ∈ ps.filter keep) ∧
      (dropDeadFunctions out).map Outcome.code = .ok out := by
  obtain ⟨r,worked,made⟩ := Except.map_eq_ok.mp ran
  unfold dropDeadFunctions at worked
  split at worked
  · cases worked
  rename_i entry starts
  obtain ⟨ps,read,worked⟩ := Except.bind_eq_ok.mp worked
  obtain ⟨whole,whole_code⟩ := parts_eq_ok.mp read
  have outside := outside ps read
  rw [← whole_code] at unique
  have distinct := nodup_functions whole unique
  simp only [partition_eq_filter_filter] at worked
  let live := reachable (ps.filterMap Part.function?) [] [entry]
  have reached (f : FunctionCode) (member : .function f ∈ ps) :
      f.id ∈ live ↔ ReflTransGen (Calls (ps.filterMap Part.function?)) entry f.id :=
    mem_reachable_iff distinct (mem_map_of_mem (mem_functions.mpr member))
  split at worked
  · rename_i none
    cases worked
    cases made
    have all (f : FunctionCode) (member : .function f ∈ ps) : f.id ∈ live := by
      have kept := filter_eq_nil_iff.mp (isEmpty_iff.mp none) _ member
      simpa [Part.function?] using kept
    refine ⟨entry,ps,fun _ => true,starts,read,whole_code,?_,?_,fun f member => ?_,fun i _ => ?_,
      fun f _ g member _ => by simpa using member,ran⟩
    · simpa using read
    · simpa using whole_code
    · simpa using (reached f member).mp (all f member)
    · simp
  · rename_i some
    cases worked
    cases made
    obtain ⟨gone,missing⟩ : ∃ f, .function f ∈ ps ∧ f.id ∉ live := by
      obtain ⟨p,member⟩ := exists_mem_of_ne_nil _ (mt isEmpty_iff.mpr some)
      obtain ⟨here,dropped⟩ := mem_filter.mp member
      cases p with
      | outside i => simp [Part.function?] at dropped
      | function f => exact ⟨f,here,by simpa [Part.function?] using dropped⟩
    let kept := ps.filter fun p => p.function?.all fun f => live.contains f.id
    let keep := Part.stays live (results (kept.flatMap Part.code))
    have made : (ps.filter keep).flatMap Part.code = dropStaleAnnotations (kept.flatMap Part.code) :=
      (flatMap_filter_stays live _ outside).symm
    have defined : results (dropStaleAnnotations (kept.flatMap Part.code)) = results (kept.flatMap Part.code) :=
      Outline.results_filter_isFresh _ _
    have read' : parts (dropStaleAnnotations (kept.flatMap Part.code)) = .ok (ps.filter keep) :=
      parts_eq_ok.mpr ⟨fun p member => whole p (mem_filter.mp member).1,made⟩
    have stays (f : FunctionCode) (member : .function f ∈ ps) : keep (.function f) = true ↔
        ReflTransGen (Calls (ps.filterMap Part.function?)) entry f.id := by
      rw [← reached f member]
      exact contains_iff_mem
    have called (f : FunctionCode) (member : .function f ∈ ps.filter keep) (g : FunctionCode)
        (known : .function g ∈ ps) (calls : g.id ∈ f.callees) : .function g ∈ ps.filter keep := by
      obtain ⟨here,kept⟩ := mem_filter.mp member
      have path := ((stays f here).mp kept).tail ⟨f,mem_functions.mpr here,rfl,calls⟩
      exact mem_filter.mpr ⟨known,(stays g known).mpr path⟩
    refine ⟨entry,ps,keep,starts,read,whole_code,read',made,stays,fun i _ => ?_,called,?_⟩
    · rw [defined,← and_assoc,← Instruction.isFresh_eq_false]
      exact ⟨fun stale => ⟨stale,gone,missing.1,by simpa [keep,Part.stays] using missing.2⟩,And.left⟩
    · have starts' := entry?_filter (q := keep) outside fun i _ op => by simp [keep,Part.stays,Instruction.IsFresh,op]
      rw [whole_code,starts] at starts'
      rw [← made]
      exact dropDeadFunctions_filter whole unique starts' stays

/-- A function that nothing calls, with its name, before the one that is entered. -/
def uncalled : List Instruction :=
  [⟨.entryPoint, [4]⟩, ⟨.debugName, [5, 102]⟩, ⟨.typeVoid, [1]⟩, ⟨.typeFunction, [2, 1]⟩, ⟨.function, [1, 5, 2]⟩,
    ⟨.ret, []⟩, ⟨.functionEnd, []⟩, ⟨.function, [1, 4, 2]⟩, ⟨.ret, []⟩, ⟨.functionEnd, []⟩]

theorem uncalled_outcome : (results uncalled).Nodup ∧ (∀ ps, parts uncalled = .ok ps → AnnotatedOutside ps) ∧
    ∃ out, (dropDeadFunctions uncalled).map Outcome.code = .ok out ∧ out.length = 6 ∧
      (dropDeadFunctions out).map Outcome.code = .ok out := by
  have outside : ∀ ps, parts uncalled = .ok ps → AnnotatedOutside ps := by
    rintro _ ⟨⟩
    simp [AnnotatedOutside,Opcode.isNote]
  have ran : (dropDeadFunctions uncalled).map Outcome.code =
      .ok (uncalled.take 1 ++ (uncalled.drop 2).take 2 ++ uncalled.drop 7) := by
    cbv
  obtain ⟨_,_,_,-,-,-,-,-,-,-,-,again⟩ := dropDeadFunctions_outcome (by decide) outside ran
  exact ⟨by decide,outside,_,ran,rfl,again⟩

end Shading.Bytecode.Pass
