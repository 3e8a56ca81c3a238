import Shading.Proofs.Typed.ExprTyping

/-! The statements that the checker makes are well typed: conditions are boolean, initial and returned
values have the types of what they are given to, and jumps stand inside of loops. They are scoped as well:
a scope that is closed leaves those around it as they were, and indices are given out in increasing order.
A fault leaves out the statement that shows it, and nothing else. -/
namespace Shading.Typed
open List State

variable {S : Scopes} {m : Meaning} {name : String} {span : Span} {st : Stmt}

/-- The same as `Runs` for work that goes on after faults. -/
def Completes {α : Type} (E : State → State → Prop) (s : State) (work : Checks α)
    (W : State → α → Prop) : Prop :=
  s.Sound → (work.run s).2.Sound ∧ E s (work.run s).2 ∧ W (work.run s).2 (work.run s).1

/-- Work on a statement. If a fault ends it, no name is left of it. -/
abbrev Works {α : Type} (s : State) (work : Checking α) (W : State → α → Prop) : Prop :=
  Runs Extends Restores s work W

theorem Scoped.unwrap {visible visible' : List Nat} {next next' : Nat} {body : List Stmt}
    (valid : Scoped visible next body visible' next') :
    ∃ visible'', Scoped visible next (unwrap body) visible'' next' := by
  unfold Typed.unwrap
  split
  · cases valid with
    | jump jumps _ => simp at jumps
    | block inside rest =>
      cases rest with
      | nil le => exact ⟨_,by simpa using inside.append (.nil le)⟩
  · exact ⟨visible',valid⟩

namespace State

variable {e : Expr}

def Admits (s : State) (ss : List Stmt) : Prop := ∀ st ∈ ss, st.WellTyped s.whole s.result s.inLoop

def Within (s : State) (visible : List Nat) : Prop := ∀ i, s.scopes.Sees i → i ∈ visible

/-- Statements from between two points of a check mention what is in sight at the first one. -/
def Covers (s s' : State) (ss : List Stmt) : Prop :=
  ∀ {visible}, s.Within visible →
    ∃ visible', Scoped visible s.locals.length ss visible' s'.locals.length

/-- Statements of a scope of their own. -/
structure Encloses (s s' : State) (ss : List Stmt) : Prop where
  typed : s'.Admits ss
  valid : s.Covers s' ss

/-- Statements of the newest scope: what is in sight after them, they declare. -/
structure Follows (s s' : State) (ss : List Stmt) : Prop where
  typed : s'.Admits ss
  valid : ∀ {visible}, s.Within visible →
    ∃ visible', s'.Within visible' ∧ Scoped visible s.locals.length ss visible' s'.locals.length

variable {s s' s'' : State} {ss ts : List Stmt} {visible : List Nat}

theorem Admits.mono (more : s.Extends s') (admitted : s.Admits ss) : s'.Admits ss := by
  intro st mem
  rw [more.result,more.inLoop]
  exact (admitted st mem).mono more.whole_le id

theorem admits_nil : s.Admits [] := by simp [Admits]

theorem admits_append : s.Admits (ss ++ ts) ↔ s.Admits ss ∧ s.Admits ts := by
  simp [Admits,or_imp,forall_and]

theorem admits_singleton : s.Admits [st] ↔ st.WellTyped s.whole s.result s.inLoop := by
  simp [Admits]

theorem Admits.unwrap (admitted : s.Admits ss) : s.Admits (unwrap ss) := by
  unfold Typed.unwrap
  split
  · have whole := admits_singleton.mp admitted
    unfold Admits
    generalize s.inLoop = inLoop at whole ⊢
    cases whole with
    | block inside => exact inside
  · exact admitted

theorem Within.restored (within : s.Within visible) (more : s.Restores s') : s'.Within visible :=
  fun i seen => within i (more.scopes ▸ seen)

theorem Within.locals (within : s.Within visible) (typed : e.WellTyped s.env) :
    e.locals ⊆ visible := fun i mentioned => within i (typed.sees mentioned)

theorem Extends.length_le (more : s.Extends s') : s.locals.length ≤ s'.locals.length :=
  more.locals.length_le

theorem Extends.typed (more : s.Extends s') (typed : e.WellTyped s.env) :
    e.WellTyped s'.whole := typed.mono (s.env_le_whole.trans more.whole_le)

theorem Encloses.follows (inside : s.Encloses s' ss) (more : s.Restores s') : s.Follows s' ss := by
  refine ⟨inside.typed,fun within => ?_⟩
  obtain ⟨visible',valid⟩ := inside.valid within
  exact ⟨visible',fun i seen => valid.visible_subset (within.restored more i seen),valid⟩

theorem Follows.encloses (follows : s.Follows s' ss) : s.Encloses s' ss := by
  refine ⟨follows.typed,fun within => ?_⟩
  obtain ⟨visible',-,valid⟩ := follows.valid within
  exact ⟨visible',valid⟩

theorem encloses_nil (more : s.Extends s') : s.Encloses s' [] :=
  ⟨admits_nil,fun _ => ⟨_,.nil more.length_le⟩⟩

theorem follows_nil (more : s.Restores s') : s.Follows s' [] := (encloses_nil more.toExtends).follows more

theorem Follows.append (first : s.Follows s' ss) (more : s'.Extends s'') (second : s'.Follows s'' ts) :
    s.Follows s'' (ss ++ ts) := by
  refine ⟨admits_append.mpr ⟨first.typed.mono more,second.typed⟩,fun within => ?_⟩
  grind [Follows.valid,Scoped.append]

theorem Restores.follows (more : s.Restores s') (follows : s'.Follows s'' ss) : s.Follows s'' ss := by
  refine ⟨follows.typed,fun within => ?_⟩
  obtain ⟨visible',within',valid⟩ := follows.valid (within.restored more)
  exact ⟨visible',within',valid.weaken more.length_le⟩

theorem Encloses.unwrap (inside : s.Encloses s' ss) : s.Encloses s' (unwrap ss) := by
  refine ⟨inside.typed.unwrap,fun within => ?_⟩
  obtain ⟨visible',valid⟩ := inside.valid within
  exact valid.unwrap

theorem Sound.told (sound : s.Sound) (log : Log) : Sound { s with log } := { sound with }

end State


namespace Completes

variable {α β : Type} {D E F : State → State → Prop} {s : State} {work : Checks α}
  {W : State → α → Prop} {R : State → β → Prop}

theorem of_pure [Std.Refl E] {a : α} (h : W s a) : Completes E s (pure a) W :=
  fun sound => ⟨sound,Std.Refl.refl s,h⟩

theorem bind [Trans D E E] {next : α → Checks β} (first : Completes D s work W)
    (second : ∀ a s', D s s' → W s' a → Completes E s' (next a) R) :
    Completes E s (work >>= next) R := by
  intro sound
  obtain ⟨sound',more,given⟩ := first sound
  obtain ⟨sound'',more',given'⟩ := second _ _ more given sound'
  exact ⟨sound'',Trans.trans more more',given'⟩

theorem lift (h : Completes E s work W) : Runs E F s (ExceptT.lift work) W := h

theorem lift_pure {f : α → β} (first : Completes E s work W)
    (h : ∀ a s', E s s' → W s' a → R s' (f a)) :
    Runs E F s (ExceptT.lift work >>= fun a => pure (f a)) R := by
  intro sound
  obtain ⟨sound',more,given⟩ := first sound
  exact ⟨sound',more,h _ _ more given⟩

theorem of_recover {u : WrittenUnit} {default : α} {work : Checking α} (h : Runs E Restores s work W)
    (weaker : ∀ s', s.Restores s' → E s s') (told : ∀ s', s.Restores s' → W s' default) :
    Completes E s (recover u default work) W := by
  intro sound
  have left := h sound
  cases ran : work.run.run s with
  | mk outcome t =>
    simp only [ran] at left
    have split : (recover u default work).run s = (match outcome with
          | .ok a => (a, t)
          | .error f => (default, ((report u f).run t).2)) := by
      simp only [recover,StateT.run_bind,ran]
      cases outcome <;> rfl
    rw [split]
    cases outcome with
    | error f =>
      have more : s.Restores ((report u f).run t).2 := left.2.told (prefix_append _ _)
      exact ⟨left.1.told _,weaker _ more,told _ more⟩
    | ok a => exact left

end Completes

section Statements

variable {s s' : State} {u : WrittenUnit} {E : State → State → Prop} {work : Checking (List Stmt)}
  {α : Type} {W : State → α → Prop}

theorem Runs.completes {work : Checking α} (h : Runs E E s work W) :
    Completes E s work.run fun s' outcome => ∀ a, outcome = .ok a → W s' a := by
  intro sound
  have left := h sound
  grind

theorem Completes.runs {work : Checking α}
    (h : Completes E s work.run fun s' outcome => ∀ a, outcome = .ok a → W s' a) :
    Runs E E s work W := by
  intro sound
  have left := h sound
  grind

theorem Runs.works (h : Runs Restores Restores s work s.Encloses) : Works s work s.Follows :=
  h.mono (fun more inside => ⟨more.toExtends,inside.follows more⟩) fun more => more

theorem State.Extends.inner_ne (more : s.Extends s') (opened : s.scopes.inner ≠ []) :
    s'.scopes.inner ≠ [] := mt more.opened.mp opened

theorem Scopes.push_opened (S : Scopes) : S.push.inner ≠ [] := by simp [push]

theorem Scopes.has_push : S.push.Has m ↔ S.Has m := by simp [Has,push]

theorem Scopes.has_bind {m' : Meaning} (has : (S.bind name m).Has m') : m' = m ∨ S.Has m' := by
  obtain ⟨scope,mem,name',entry⟩ := has
  unfold bind at mem
  split at mem
  · simp only [mem_append,mem_singleton] at mem
    rcases mem with inner | rfl
    · exact .inr ⟨scope,by simp [inner],name',entry⟩
    · rcases mem_cons.mp entry with new | old
      · exact .inl (Prod.mk.inj new).2
      · exact .inr ⟨S.outermost,by simp,name',old⟩
  · rename_i top rest inner
    simp only [cons_append,mem_cons] at mem
    rcases mem with rfl | mem
    · rcases mem_cons.mp entry with new | old
      · exact .inl (Prod.mk.inj new).2
      · exact .inr ⟨top,by simp [inner],name',old⟩
    · exact .inr ⟨scope,by simpa [inner] using .inr (by simpa using mem),name',entry⟩

theorem run_declare (name : String) (m : Meaning) (s : State) :
    (declare name m).run s = match s.scopes.declare? name m with
      | some scopes => (true, { s with scopes })
      | none => (false, s) := by
  rw [declare,StateT.run_bind]
  change ((match s.scopes.declare? name m with
    | some scopes => do
      modify fun s => { s with scopes }
      return true
    | none => return false : Checks Bool).run s) = _
  cases s.scopes.declare? name m <;> rfl

theorem lookup_bind {name' : String} (found : (S.outermost.lookup name').isSome) :
    ((S.bind name m).outermost.lookup name').isSome := by
  unfold Scopes.bind
  split
  · rw [lookup_cons]
    split
    · rfl
    · exact found
  · exact found

theorem State.Sound.bind (sound : s.Sound)
    (meant : ∀ {v t}, m = .variable v t → ∃ access, s.whole.var? v = some (t, access)) :
    Sound { s with scopes := s.scopes.bind name m } := by
  refine { sound with scopes := fun has => ?_, named := fun g mem => ?_ }
  · rcases Scopes.has_bind has with new | old
    · exact meant new.symm
    · exact sound.scopes old
  · rcases sound.named g mem with builtin | declared
    · exact .inl builtin
    · exact .inr (lookup_bind declared)

theorem State.extends_bind (opened : s.scopes.inner ≠ []) (name : String) (m : Meaning) :
    s.Extends { s with scopes := s.scopes.bind name m } := by
  obtain ⟨scope,rest,inner⟩ := exists_cons_of_ne_nil opened
  exact ⟨by simp [Scopes.bind,inner],by simp [Scopes.bind,inner],by simp [Scopes.bind,inner],
    ⟨[],by simp⟩,rfl,rfl,⟨[],by simp,by simp⟩,rfl,prefix_rfl⟩

theorem declare_completes (opened : s.scopes.inner ≠ [])
    (meant : ∀ {v t}, m = .variable v t → ∃ access, s.whole.var? v = some (t, access)) :
    Completes Extends s (declare name m) fun s' _ =>
      s'.frame = s.frame ∧ ∀ {m'}, s'.scopes.Has m' → m' = m ∨ s.scopes.Has m' := by
  intro sound
  grind [run_declare,Scopes.declare?,Sound.bind,extends_bind,Scopes.has_bind,Extends.refl]

theorem State.sound_frame {f : Frame → Frame} (params : ∀ g, (f g).params = g.params)
    (locals : ∀ g, (f g).locals = g.locals) (result : ∀ g, (f g).returnTy = g.returnTy)
    (sound : s.Sound) : Sound { s with frame := s.frame.map f } ∧
      whole { s with frame := s.frame.map f } = s.whole ∧
      State.result { s with frame := s.frame.map f } = s.result ∧
      State.locals { s with frame := s.frame.map f } = s.locals := by
  have sameParams : State.params { s with frame := s.frame.map f } = s.params := by
    simp [State.params,Option.map_map,Function.comp_def,params]
  have sameLocals : State.locals { s with frame := s.frame.map f } = s.locals := by
    simp [State.locals,Option.map_map,Function.comp_def,locals]
  have sameResult : State.result { s with frame := s.frame.map f } = s.result := by
    simp [State.result,Option.map_map,Function.comp_def,result]
  have sameEnv : whole { s with frame := s.frame.map f } = s.whole := by
    rw [whole,sameParams,sameLocals]
    rfl
  refine ⟨{ sound with scopes := fun has => ?_, params := ?_, locals := ?_, result := ?_ },
    sameEnv,sameResult,sameLocals⟩
  · rw [sameEnv]
    exact sound.scopes has
  · rw [sameParams]
    exact sound.params
  · rw [sameLocals]
    exact sound.locals
  · rw [sameResult]
    exact sound.result

section

variable (opened : s.scopes.inner ≠ [])
include opened

theorem addLocal_works {l : Local} {init : Option Expr} (denoted : l.ty.Denoted)
    (typed : ∀ e ∈ init, e.WellTyped s.env ∧ e.ty = l.ty) :
    Works s (addLocal span l init) fun s' d => s.Follows s' d.toList := by
  refine .get_bind ?_
  dsimp only
  split
  · exact .of_fail
  · rename_i f frame
    have own : s.locals = f.locals := by simp [State.locals,frame]
    have grown : Completes Restores s (modifyFrame fun f => { f with locals := f.locals ++ [l] })
        fun s' _ => s'.locals = s.locals ++ [l] := by
      intro sound
      let t : State := { s with frame := s.frame.map fun f => { f with locals := f.locals ++ [l] } }
      have more : s.Restores t := ⟨⟨.rfl,rfl,rfl,⟨[l],rfl⟩,rfl,rfl,⟨[],by simp [t],by simp⟩,
        rfl,prefix_rfl⟩,rfl⟩
      have locals : t.locals = s.locals ++ [l] := by simp [t,State.locals,frame]
      refine (⟨{ sound with
        scopes := fun has => ?_, params := more.params ▸ sound.params, locals := ?_
        result := more.result ▸ sound.result },more,locals⟩ :
        t.Sound ∧ s.Restores t ∧ t.locals = s.locals ++ [l])
      · exact sound.known_of_le more.whole_le has
      · rw [locals]
        simpa [or_imp,forall_and] using ⟨sound.locals,denoted⟩
    refine .bind grown.lift fun _ s₁ more₁ locals => ?_
    have known : s₁.whole.var? (.local_ f.locals.length) = some (l.ty, l.access) := by
      simp [whole,Env.of,locals,own]
    refine (declare_completes (more₁.inner_ne opened) fun h => ?_).lift_pure
      fun _ s₂ more₂ kept => ?_
    · cases h
      exact ⟨_,known⟩
    obtain ⟨frame₂,entries⟩ := kept
    refine ⟨?_,fun {visible} within => ?_⟩
    · refine admits_singleton.mpr (.declare (more₂.whole_le.var? known) fun e given => ?_)
      exact ⟨(more₁.toExtends.trans more₂).typed (typed e given).1,(typed e given).2⟩
    · have length : s₂.locals.length = s.locals.length + 1 := by
        rw [State.locals,frame₂]
        exact (congrArg List.length locals).trans (by simp)
      refine ⟨f.locals.length :: visible,?_,?_⟩
      · rintro i ⟨ty,has⟩
        rcases entries has with new | old
        · cases new
          exact mem_cons_self
        · exact mem_cons_of_mem _ (within.restored more₁ i ⟨ty,old⟩)
      · rw [length,own]
        exact .declare (fun e given => within.locals (typed e given).1) (Nat.le_refl _)
          (.nil (Nat.le_refl _))

theorem checkLocal_works (type : Surface.TypeName) (isConst : Bool) (d : Surface.Declarator) :
    Works s (checkLocal u type isConst d) fun s' st => s.Follows s' st.toList := by
  refine .bind (checkTy_types u type d.sizes) fun ty s₁ more₁ both => .guard fun _ => .guard fun _ =>
    .bind (requireFreshName_types d.name d.span) fun _ s₂ more₂ _ => ?_
  have denoted := both.1
  have more₂ := more₁.toRestores.trans more₂.toRestores
  refine .of_ite (fun _ => ?_) fun _ => ?_
  · refine .bind (checkConstInit_types u denoted d) fun value s₃ more₃ typed => ?_
    have more₃ := more₂.trans more₃.toRestores
    split
    · refine (declare_completes (more₃.inner_ne opened) fun h => by cases h).lift_pure
        fun _ s₄ more₄ kept => ⟨admits_nil,fun within => ?_⟩
      refine ⟨_,?_,.nil (more₃.toExtends.trans more₄).length_le⟩
      rintro i ⟨ty,has⟩
      exact within.restored more₃ i ⟨ty,(kept.2 has).resolve_left (by simp)⟩
    · exact (addLocal_works (more₃.inner_ne opened) denoted (by simpa using typed)).mono
        (fun more follows => ⟨more,more₃.follows follows⟩) fun more => more
  · refine .bind (checkInit_types u denoted d.init) fun init s₃ more₃ typed => ?_
    have more₃ := more₂.trans more₃.toRestores
    exact (addLocal_works (more₃.inner_ne opened) denoted typed).mono
      (fun more follows => ⟨more,more₃.follows follows⟩) fun more => more

theorem completes_cons {work : Checks α} {f : α → List Stmt} {rest : Checks (List Stmt)}
    (first : Completes Extends s work fun s' a => s.Follows s' (f a))
    (others : ∀ {s : State}, s.scopes.inner ≠ [] → Completes Extends s rest s.Follows) :
    Completes Extends s (do return f (← work) ++ (← rest)) s.Follows :=
  .bind first fun _ _ more₁ before => .bind (others (more₁.inner_ne opened))
    fun _ _ more₂ after => .of_pure (before.append more₂ after)

end

theorem checkLocals_completes (type : Surface.TypeName) (isConst : Bool)
    (ds : List Surface.Declarator) (opened : s.scopes.inner ≠ []) :
    Completes Extends s (checkLocals u type isConst ds) s.Follows := by
  induction ds generalizing s with
  | nil => exact .of_pure (follows_nil (Grows.refl s).toRestores)
  | cons d ds ih =>
    exact completes_cons opened (.of_recover (checkLocal_works opened type isConst d)
      (fun _ more => more.toExtends) fun _ more => follows_nil more) ih

theorem checkLocalDeclaration_works (opened : s.scopes.inner ≠ []) (d : Surface.Declaration) :
    Works s (checkLocalDeclaration u d) s.Follows := by
  have locals : ∀ isConst s', s' = s → Works s'
      (if !d.qualifiers.layout.isEmpty || d.qualifiers.interpolation.isSome || d.qualifiers.invariant
        then do
          fail d.span .localLayout
          checkLocals u d.type isConst d.declarators
        else checkLocals u d.type isConst d.declarators : Checking (List Stmt)) s.Follows := by
    rintro isConst _ rfl
    exact .guard fun _ => (checkLocals_completes d.type isConst d.declarators opened).lift
  unfold checkLocalDeclaration
  dsimp only
  split
  · exact .bind (D := Grows) (W := fun s' _ => s' = s) (.of_pure rfl) fun isConst s' _ => locals isConst s'
  · exact .bind (D := Grows) (W := fun s' _ => s' = s) (.of_pure rfl) fun isConst s' _ => locals isConst s'
  · exact .bind (D := Grows) (W := fun s' _ => s' = s) .of_fail fun isConst s' _ => locals isConst s'

theorem isVoid_iff {t : Ty} : t.isVoid = true ↔ t = .void := by cases t <;> simp [Ty.isVoid]

theorem checkReturn_encloses (value : Option Surface.Expr) (span : Span) :
    Types s (checkReturn u value span) fun s' st => s.Encloses s' [st] := by
  refine .of_sound fun sound => .get_bind ?_
  dsimp only
  split
  · exact .of_fail
  · rename_i f frame
    have result : s.result = f.returnTy := by simp [State.result,frame]
    split
    · refine .of_ite (fun void => .of_pure ⟨?_,fun _ => ⟨_,.return_ (by simp) (.nil (Nat.le_refl _))⟩⟩)
        fun _ => .of_fail
      exact admits_singleton.mpr (.leave (result.trans (isVoid_iff.mp void)))
    · refine .guard fun values => .bind (checkExpr_types u _) fun e s₁ more₁ typed =>
        .bind (coerce_types typed (result ▸ sound.result)) fun e s₂ more₂ coerced =>
          .of_pure ⟨?_,fun within => ⟨_,.return_ ?_ (.nil ?_)⟩⟩
      · have result₂ : s₂.result = f.returnTy := (more₂.result.trans more₁.result).trans result
        refine admits_singleton.mpr (.return_ ?_ (coerced.1.mono s₂.env_le_whole)
          (coerced.2.trans result₂.symm))
        rw [result₂]
        exact mt isVoid_iff.mpr values
      · rintro _ ⟨⟩
        exact (within.restored (more₁.toRestores.trans more₂.toRestores)).locals coerced.1
      · exact (more₁.toExtends.trans more₂.toExtends).length_le

theorem inScope_completes {α : Type} {work : Checks α} {W R : State → α → Prop}
    (h : Completes Extends { s with scopes := s.scopes.push } work W)
    (closed : ∀ s' a, W s' a → R { s' with scopes := s'.scopes.pop } a) :
    Completes Restores s (inScope work) R := by
  intro sound
  let pushed : State := { s with scopes := s.scopes.push }
  have soundPushed : pushed.Sound :=
    { sound with scopes := fun has => sound.scopes (Scopes.has_push.mp has) }
  obtain ⟨sound',more,given⟩ := h soundPushed
  have ran : (inScope work).run s = ((work.run pushed).1,
      { (work.run pushed).2 with scopes := (work.run pushed).2.scopes.pop }) := rfl
  generalize work.run pushed = outcome at sound' more given ran
  obtain ⟨a,s'⟩ := outcome
  have popped : s'.scopes.pop = s.scopes := by
    rw [Scopes.pop,more.around,more.outermost]
    rfl
  rw [ran]
  refine ⟨{ sound' with scopes := fun has => ?_ },⟨{ more with
    opened := by simp [popped], around := by simp [popped], outermost := by simp [popped] },popped⟩,
    closed s' a given⟩
  dsimp only at has
  rw [popped] at has
  exact sound.known_of_le more.whole_le has

theorem State.Encloses.close {ss : List Stmt}
    (inside : Encloses { s with scopes := s.scopes.push } s' ss) :
    s.Encloses { s' with scopes := s'.scopes.pop } ss :=
  ⟨inside.typed,fun within => inside.valid fun i ⟨ty,has⟩ => within i ⟨ty,Scopes.has_push.mp has⟩⟩

theorem Checking.inScope_runs {work : Checking (List Stmt)}
    (h : Runs Extends Extends { s with scopes := s.scopes.push } work
      (Encloses { s with scopes := s.scopes.push })) :
    Runs Restores Restores s (Checking.inScope work) s.Encloses :=
  Completes.runs (inScope_completes h.completes fun _ _ given a ok => (given a ok).close)

section

variable (h : ∀ {s : State}, s.scopes.inner ≠ [] → Works s work s.Follows)
include h

theorem checkBranch_completes : Completes Restores s (checkBranch u work) s.Encloses := by
  refine .of_recover (Checking.inScope_runs ?_) (fun _ more => more)
    fun _ more => encloses_nil more.toExtends
  rw [map_eq_pure_bind]
  exact .bind ((h (Scopes.push_opened _)).mono (fun more follows => ⟨more,follows.encloses⟩)
    fun more => more.toExtends) fun _ _ _ inside => .of_pure inside.unwrap

theorem checkLoopBody_completes :
    Completes Restores s (checkLoopBody u work) fun s' ss =>
      (∀ st ∈ ss, st.WellTyped s'.whole s'.result true) ∧ s.Covers s' ss := by
  intro sound
  let inside : State := { s with frame := s.frame.map fun f => { f with loops := f.loops + 1 } }
  obtain ⟨soundInside,-,-,locals⟩ := sound_frame (s := s)
    (f := fun f => { f with loops := f.loops + 1 }) (fun _ => rfl) (fun _ => rfl) (fun _ => rfl) sound
  obtain ⟨sound',more,body'⟩ := checkBranch_completes (u := u) (s := inside) h soundInside
  have ran : (checkLoopBody u work).run s = (((checkBranch u work).run inside).1,
      { ((checkBranch u work).run inside).2 with frame :=
        ((checkBranch u work).run inside).2.frame.map fun f => { f with loops := f.loops - 1 } }) := rfl
  generalize (checkBranch u work).run inside = outcome at sound' more body' ran
  obtain ⟨body,s'⟩ := outcome
  rw [ran]
  obtain ⟨soundLast,whole,result,locals'⟩ := sound_frame (s := s')
    (f := fun f => { f with loops := f.loops - 1 }) (fun _ => rfl) (fun _ => rfl) (fun _ => rfl) sound'
  refine ⟨soundLast,{ more with frame := ?_ },fun st mem => ?_,fun {visible} within => ?_⟩
  · obtain ⟨locals,frame⟩ := more.frame
    refine ⟨locals,(congrArg (Option.map _) frame).trans ?_⟩
    simp [inside,Option.map_map,Function.comp_def]
  · rw [whole,result]
    exact (body'.typed st mem).mono (.refl _) fun _ => rfl
  · have valid := @body'.valid visible within
    rw [locals] at valid
    rw [locals']
    exact valid

end

/-- A loop, checked after the statements that begin it. -/
theorem checkLoop_runs {s₀ : State} {init : List Stmt} (before : s₀.Follows s init)
    {c st : Option Surface.Expr} {body : Checking (List Stmt)}
    (h : ∀ {s : State}, s.scopes.inner ≠ [] → Works s body s.Follows) : Runs Extends Extends s (do
      let cond ← c.mapM (checkCondition u "for")
      let step ← st.mapM (checkExpr u)
      let body ← ExceptT.lift (checkLoopBody u body)
      return loopAfter init (.loop true cond step body)) s₀.Encloses := by
  refine .bind (mapM_types c fun e _ => checkCondition_types u "for" e) fun cond s₁ more₁ typedCond =>
    .bind (mapM_types st fun e _ => checkExpr_types u e) fun step s₂ more₂ typedStep =>
      .bind (checkLoopBody_completes h).lift fun body s₃ more₃ ⟨typedBody,covered⟩ => .of_pure ?_
  have more := more₁.toRestores.trans more₂.toRestores
  have loop : (Stmt.loop true cond step body).WellTyped s₃.whole s₃.result s₃.inLoop :=
    .loop (fun e given => ⟨(more₂.toExtends.trans more₃.toExtends).typed (typedCond e given).1,
      (typedCond e given).2⟩) (fun e given => more₃.toExtends.typed (typedStep e given)) (.inl rfl) typedBody
  have looped {visible : List Nat} (within : s.Within visible) :
      Scoped visible s.locals.length [.loop true cond step body] visible s₃.locals.length := by
    obtain ⟨_,inside⟩ := covered (within.restored more)
    exact .loop (fun e given => (within.restored more₁.toRestores).locals (typedCond e given).1)
      (fun e given => (within.restored more).locals (typedStep e given))
      (inside.weaken more.length_le) (.nil (Nat.le_refl _))
  have began := before.typed.mono (more.trans more₃).toExtends
  unfold loopAfter
  split
  · rename_i empty
    refine ⟨admits_singleton.mpr loop,fun within => ?_⟩
    obtain ⟨visible',within',valid⟩ := before.valid within
    rw [isEmpty_iff.mp empty] at valid
    cases valid with
    | nil le => exact ⟨_,(looped within').weaken le⟩
  · refine ⟨admits_singleton.mpr (.block (admits_append.mpr ⟨began,admits_singleton.mpr loop⟩)),
      fun within => ?_⟩
    obtain ⟨visible',within',valid⟩ := before.valid within
    exact ⟨_,.block (valid.append (looped within')) (.nil (Nat.le_refl _))⟩

theorem insideLoop_runs {cause : Cause} (jump : st ∈ [Stmt.break_, .continue_, .discard])
    (jumps : ∀ {Γ result}, st.WellTyped Γ result true) : Runs Restores Restores s (do
      if !(← insideLoop) then fail span cause
      return [st]) s.Encloses := by
  refine .bind (D := Grows) (W := fun s' inside => inside = s'.inLoop) (.get_bind (.of_pure rfl))
    fun inside s' more same => .guard fun yes => .of_pure ⟨admits_singleton.mpr ?_,
      fun _ => ⟨_,.jump jump (.nil more.length_le)⟩⟩
  have looping : s'.inLoop = true := by
    rw [← same]
    simpa using yes
  rw [looping]
  exact jumps

mutual

/-- A checked statement is well typed; what it mentions was declared before it in an open scope, and what
it declares is new. -/
theorem checkStmt_works : ∀ (st : Surface.Stmt) {s : State}, s.scopes.inner ≠ [] →
    Works s (checkStmt u st) s.Follows
  | .empty _, s, _ => by
    rw [checkStmt]
    exact Runs.works (.of_pure (encloses_nil (.refl s)))
  | .declare d _, s, opened => by
    rw [checkStmt]
    exact checkLocalDeclaration_works opened d
  | .expr e _, s, _ => by
    rw [checkStmt]
    refine Runs.works (.bind (checkExpr_types u e) fun e s' more typed => .of_pure ⟨?_,fun within =>
      ⟨_,.expr ((within.restored more.toRestores).locals typed) (.nil more.length_le)⟩⟩)
    exact admits_singleton.mpr (.expr (typed.mono s'.env_le_whole))
  | .block body _, s, _ => by
    rw [checkStmt]
    refine Runs.works (.bind (Completes.lift (inScope_completes
      (checkStmts_completes body (Scopes.push_opened _)) fun _ _ follows => follows.encloses.close))
        fun body s' more inside => .of_pure ⟨admits_singleton.mpr (.block inside.typed),fun within => ?_⟩)
    obtain ⟨_,valid⟩ := inside.valid within
    exact ⟨_,.block valid (.nil (Nat.le_refl _))⟩
  | .if_ c yes none _, s, _ => by
    rw [checkStmt]
    refine Runs.works (.bind (checkCondition_types u "if" c) fun cond s₁ more₁ typed =>
      .bind (checkBranch_completes (checkStmt_works yes)).lift fun body s₂ more₂ inYes =>
        .of_pure ⟨?_,fun within => ?_⟩)
    · exact admits_singleton.mpr (.if_ (more₂.toExtends.typed typed.1) typed.2 inYes.typed (by simp))
    · have within₁ := within.restored more₁.toRestores
      obtain ⟨_,valid⟩ := inYes.valid within₁
      exact ⟨_,.if_ (within₁.locals typed.1) (valid.weaken more₁.length_le) (.nil (Nat.le_refl _))
        (.nil (Nat.le_refl _))⟩
  | .if_ c yes (some no) _, s, _ => by
    rw [checkStmt]
    refine Runs.works (.bind (checkCondition_types u "if" c) fun cond s₁ more₁ typed =>
      .bind (checkBranch_completes (checkStmt_works yes)).lift fun body s₂ more₂ inYes =>
        .bind (checkBranch_completes (checkStmt_works no)).lift fun body' s₃ more₃ inNo =>
          .of_pure ⟨?_,fun within => ?_⟩)
    · exact admits_singleton.mpr (.if_ ((more₂.trans more₃).toExtends.typed typed.1) typed.2
        (inYes.typed.mono more₃.toExtends) inNo.typed)
    · have within₁ := within.restored more₁.toRestores
      obtain ⟨_,valid⟩ := inYes.valid within₁
      obtain ⟨_,valid'⟩ := inNo.valid (within₁.restored more₂)
      exact ⟨_,.if_ (within₁.locals typed.1) (valid.weaken more₁.length_le) valid'
        (.nil (Nat.le_refl _))⟩
  | .for_ none c st body _, s, _ => by
    rw [checkStmt]
    exact Runs.works (Checking.inScope_runs (checkLoop_runs (follows_nil (Grows.refl _).toRestores)
      (checkStmt_works body)))
  | .for_ (some init) c st body _, s, _ => by
    rw [checkStmt]
    exact Runs.works (Checking.inScope_runs (.bind ((checkStmt_works init (Scopes.push_opened _)).mono .intro
      Restores.toExtends) fun init s' _ before => checkLoop_runs before (checkStmt_works body)))
  | .while_ c body _, s, _ => by
    rw [checkStmt]
    refine Runs.works (.bind (checkCondition_types u "while" c) fun cond s₁ more₁ typed =>
      .bind (checkLoopBody_completes (checkStmt_works body)).lift fun body s₂ more₂ ⟨inside,covered⟩ =>
        .of_pure ⟨?_,fun within => ?_⟩)
    · refine admits_singleton.mpr (.loop ?_ (by simp) (.inl rfl) inside)
      simpa using ⟨more₂.toExtends.typed typed.1,typed.2⟩
    · have within₁ := within.restored more₁.toRestores
      obtain ⟨_,valid⟩ := covered within₁
      exact ⟨_,.loop (by simpa using within₁.locals typed.1) nofun (valid.weaken more₁.length_le)
        (.nil (Nat.le_refl _))⟩
  | .do_ body c _, s, _ => by
    rw [checkStmt]
    refine Runs.works (.bind (checkLoopBody_completes (checkStmt_works body)).lift
      fun body s₁ more₁ ⟨inside,covered⟩ => .bind (checkCondition_types u "do-while" c)
        fun cond s₂ more₂ typed => .of_pure ⟨?_,fun within => ?_⟩)
    · refine admits_singleton.mpr (.loop ?_ (by simp) (.inr rfl) fun st mem => ?_)
      · simpa using ⟨typed.1.mono s₂.env_le_whole,typed.2⟩
      · rw [more₂.result]
        exact (inside st mem).mono more₂.whole_le id
    · obtain ⟨_,valid⟩ := covered within
      have within₂ := (within.restored more₁).restored more₂.toRestores
      exact ⟨_,.loop (by simpa using within₂.locals typed.1) nofun valid (.nil more₂.length_le)⟩
  | .return_ value span, s, _ => by
    rw [checkStmt]
    exact Runs.works (.bind (checkReturn_encloses value span) fun _ _ _ inside => .of_pure inside)
  | .break_ span, s, _ => by
    rw [checkStmt]
    exact Runs.works (insideLoop_runs (by simp) .break_)
  | .continue_ span, s, _ => by
    rw [checkStmt]
    exact Runs.works (insideLoop_runs (by simp) .continue_)
  | .discard span, s, _ => by
    rw [checkStmt]
    refine Runs.works (.guard fun _ => .of_pure ⟨admits_singleton.mpr .discard,fun _ => ?_⟩)
    exact ⟨_,.jump (by simp) (.nil (Nat.le_refl _))⟩

theorem checkStmts_completes : ∀ (ss : List Surface.Stmt) {s : State}, s.scopes.inner ≠ [] →
    Completes Extends s (checkStmts u ss) s.Follows
  | [], s, _ => by
    rw [checkStmts]
    exact .of_pure (follows_nil (Grows.refl s).toRestores)
  | st :: ss, s, opened => by
    rw [checkStmts]
    exact completes_cons (f := id) opened (.of_recover (checkStmt_works st opened)
      (fun _ more => more.toExtends) fun _ more => follows_nil more)
        (checkStmts_completes ss)

end

end Statements

end Shading.Typed
