import Shading.Proofs.Typed.StmtTyping

/-! The programs that the checker makes of units are well typed and scoped. Between two declarations every
overload stands for a function of the program, and what was checked before stays well typed as more is
declared. No local is seen there, so bodies and initial values mention none but their own. -/
namespace Shading.Typed
open List Surface

variable {span : Span} {cause : Cause} {o : Overload} {p : Prototype} {f : Function} {c : Checked}
  {D : State → State → Prop} {c : Prop} {s : State} {α β : Type} {R : State → β → Prop}
  {W : State → α → Prop}

/-- The type of a global has values and a text of its own, and only a private global has an initial value. -/
structure Global.Admitted (g : Global) : Prop where
  fits : g.ty.Fits
  valued : g.ty ≠ .void
  initialized : g.init.isSome = true → g.storage = .priv

namespace State

/-- The program so far: its functions and initial values are well typed with what is declared. -/
structure Holds (s : State) : Prop where
  declared : ∀ f ∈ s.program.functions, ∃ o ∈ s.overloads, o.signature = f.signature
  functions : ∀ f ∈ s.program.functions, f.Proper
  bodies : ∀ f ∈ s.program.functions, ∀ body ∈ f.body, ∀ st ∈ body,
    st.WellTyped (.of s.program.globals (overloadTy? s.overloads) f.params f.locals) f.returnTy false
  valid : ∀ f ∈ s.program.functions, ∀ body ∈ f.body, ∃ visible next, Scoped [] 0 body visible next
  inits : ∀ {i : Nat} {g : Global}, s.program.globals[i]? = some g → ∀ e ∈ g.init,
    e.WellTyped (.of (s.program.globals.take i) (overloadTy? s.overloads) [] []) ∧ e.ty = g.ty
  distinct : (s.program.functions.map Function.signature).Nodup

def Backs (s : State) (o : Overload) : Prop :=
  ∃ f, s.program.function? o.signature = some f ∧ f.ty = (o.params, o.returnTy)

/-- The state between two declarations. Some overloads may wait for their functions. -/
structure Closed (waiting : List String) (s : State) : Prop where
  sound : s.Sound
  inner : s.scopes.inner = []
  frame : s.frame = none
  holds : s.Holds
  backed : ∀ o ∈ s.overloads, o.signature ∉ waiting → s.Backs o
  admitted : ∀ g ∈ s.program.globals, g.Admitted

variable {s s' : State} {waiting : List String}

section

variable (closed : s.Closed waiting)
include closed

/-- Work that declares nothing keeps what was established. -/
theorem Closed.extends_ (more : s.Extends s') (sound : s'.Sound) : s'.Closed waiting := by
  obtain ⟨globals,eq,ofStage⟩ := more.globals
  obtain ⟨locals,frame⟩ := more.frame
  refine ⟨sound,more.opened.mpr closed.inner,by rw [frame,closed.frame]; rfl,
    ⟨?_,?_,?_,?_,?_,?_⟩,?_,?_⟩
  · rw [more.functions,more.overloads]
    exact closed.holds.declared
  · rw [more.functions]
    exact closed.holds.functions
  · rw [more.functions,more.overloads]
    intro f mem body present st inside
    exact (closed.holds.bodies f mem body present st inside).mono
      (Env.of_le ⟨globals,eq.symm⟩ id prefix_rfl prefix_rfl) id
  · rw [more.functions]
    exact closed.holds.valid
  · rw [eq,more.overloads]
    intro i g found e init
    rcases Nat.lt_or_ge i s.program.globals.length with old | new
    · rw [getElem?_append_left old] at found
      rw [take_append_of_le_length (Nat.le_of_lt old)]
      exact closed.holds.inits found e init
    · rw [getElem?_append_right new] at found
      obtain ⟨v,line,rfl⟩ := ofStage g (mem_of_getElem? found)
      cases init
  · rw [more.functions]
    exact closed.holds.distinct
  · rw [more.overloads]
    intro o mem settled
    obtain ⟨f,found,ty⟩ := closed.backed o mem settled
    exact ⟨f,by rw [Program.function?,more.functions]; exact found,ty⟩
  · rw [eq]
    refine forall_mem_append.mpr ⟨closed.admitted,fun g mem => ?_⟩
    obtain ⟨v,line,rfl⟩ := ofStage g mem
    exact ⟨v.fits_ty,v.ty_ne_void,nofun⟩

theorem Closed.whole_eq : s.whole = .of s.program.globals (overloadTy? s.overloads) [] [] := by
  simp [whole,params,locals,closed.frame]

theorem Closed.unseen (i : Nat) : ¬s.scopes.Sees i := by
  rintro ⟨ty,has⟩
  obtain ⟨access,found⟩ := closed.sound.scopes has
  rw [closed.whole_eq] at found
  cases found

end

theorem Closed.weaken (closed : s.Closed []) (waiting : List String) : s.Closed waiting :=
  { closed with backed := fun o mem _ => closed.backed o mem (by simp) }

theorem Closed.told (closed : s.Closed waiting) {log : Log} (said : s.log <+: log) :
    Closed waiting { s with log } :=
  closed.extends_ ((Extends.refl s).told said) (closed.sound.told log)

/-- The size of a work group stays, and more may have been said. -/
structure Onward (s s' : State) : Prop where
  localSize : s'.program.localSize = s.program.localSize
  log : s.log <+: s'.log

def Tells (s s' : State) : Prop := s.log <+: s'.log

theorem Onward.refl (s : State) : s.Onward s := ⟨rfl,prefix_rfl⟩

theorem Onward.trans {s' s'' : State} (first : s.Onward s') (second : s'.Onward s'') :
    s.Onward s'' :=
  ⟨second.localSize.trans first.localSize,first.log.trans second.log⟩

theorem Extends.onward (more : s.Extends s') : s.Onward s' := ⟨more.localSize,more.log⟩

instance : Trans Onward Onward Onward := ⟨.trans⟩

instance : Trans Onward Tells Tells := ⟨fun first => first.log.trans⟩

end State

open State

/-- The work gives what is wanted, in a state to which the first one is related by `D`, or a fault ends it
in a state in which all is settled. -/
def Reaches {α : Type} (D : State → State → Prop) (s : State) (work : Checking α)
    (W : State → α → Prop) : Prop :=
  match work.run.run s with
    | (.ok a, s') => D s s' ∧ W s' a
    | (.error _, s') => s.Onward s' ∧ s'.Closed []

/-- The same between declarations. -/
def Settles {α : Type} (D : State → State → Prop) (s : State) (work : Checking α)
    (W : State → α → Prop) : Prop :=
  s.Closed [] → Reaches D s work W

theorem Reaches.get_bind {next : State → Checking β} (h : Reaches D s (next s) R) :
    Reaches D s (get >>= next) R := h

theorem Reaches.of_ite [Decidable c] {yes no : Checking α} (first : c → Reaches D s yes W)
    (second : ¬c → Reaches D s no W) : Reaches D s (if c then yes else no) W := by
  split
  · exact first ‹_›
  · exact second ‹_›

theorem Reaches.bind [Trans Onward D D] {work : Checking α} {next : α → Checking β}
    (first : Reaches Onward s work W)
    (second : ∀ a s', s.Onward s' → W s' a → Reaches D s' (next a) R) :
    Reaches D s (work >>= next) R := by
  simp only [Reaches,ExceptT.run_bind,StateT.run_bind] at first ⊢
  cases ran : work.run.run s with
  | mk outcome t =>
    simp only [ran] at first
    cases outcome with
    | error f => exact first
    | ok a =>
      have last := second a t first.1 first.2
      simp only [Reaches] at last
      change match (next a).run.run t with
        | (.ok a, s') => D s s' ∧ R s' a
        | (.error _, s') => s.Onward s' ∧ s'.Closed []
      generalize (next a).run.run t = ran' at last ⊢
      obtain ⟨_ | b,t'⟩ := ran'
      · exact ⟨first.1.trans last.1,last.2⟩
      · exact ⟨Trans.trans first.1 last.1,last.2⟩

namespace Settles

variable {α β : Type} {D : State → State → Prop} {s : State} {W : State → α → Prop}
  {R : State → β → Prop}

theorem of_pure {a : α} (h : s.Closed [] → W s a) : Settles Onward s (pure a) W :=
  fun closed => ⟨.refl s,h closed⟩

theorem of_fail : Settles D s (fail span cause) W :=
  fun closed => ⟨.refl s,closed⟩

theorem after [Trans Onward D D] {work : Checking α} {next : α → Checking β} (first : Types s work W)
    (second : ∀ a s', s.Grows s' → W s' a → Settles D s' (next a) R) :
    Settles D s (work >>= next) R := by
  intro closed
  refine Reaches.bind (W := fun s' a => s.Grows s' ∧ s'.Closed [] ∧ W s' a) ?_
    fun a s' _ ⟨more,closed,given⟩ => second a s' more given closed
  have left := first closed.sound
  unfold Reaches
  generalize work.run.run s = ran at left ⊢
  obtain ⟨_ | a,t⟩ := ran
  · exact ⟨left.2.onward,closed.extends_ left.2.toExtends left.1⟩
  · exact ⟨left.2.1.onward,left.2.1,closed.extends_ left.2.1.toExtends left.1,left.2.2⟩

theorem get_bind {next : State → Checking β} (h : Settles D s (next s) R) :
    Settles D s (get >>= next) R := h

theorem of_ite [Decidable c] {yes no : Checking α} (first : c → Settles D s yes W)
    (second : ¬c → Settles D s no W) : Settles D s (if c then yes else no) W :=
  fun closed => .of_ite (fun h => first h closed) fun h => second h closed

theorem guard [Trans Onward D D] [Decidable c] {rest : PUnit → Checking β}
    (h : ¬c → Settles D s (rest ⟨⟩) R) :
    Settles D s (if c then fail span cause >>= rest else rest ⟨⟩) R :=
  .of_ite (fun _ closed => .bind (W := fun _ _ => False) (of_fail closed) fun _ _ _ absurd => absurd.elim) h

end Settles

section Globals

variable {s : State} {u : WrittenUnit} {name : String}

theorem State.Closed.newest {waiting : List String} (closed : s.Closed waiting) :
    s.scopes.newest = s.scopes.outermost := by
  simp [Scopes.newest,closed.inner]

theorem declareConstant_settles {c : Const} :
    Settles Onward s (do let _ ← declare name (.constant c) : Checking Unit) fun s' _ => s'.Closed [] := by
  intro closed
  have settled : s.Onward ((declare name (.constant c)).run s).2 ∧
      Closed [] ((declare name (.constant c)).run s).2 := by
    rw [run_declare]
    unfold Scopes.declare?
    by_cases taken : s.scopes.inInnermost name
    · rw [if_pos taken]
      exact ⟨.refl s,closed⟩
    · rw [if_neg taken]
      have inner : (s.scopes.bind name (.constant c)).inner = [] := by
        simp [Scopes.bind,closed.inner]
      exact ⟨⟨rfl,prefix_rfl⟩,{ closed with
        sound := closed.sound.bind (by simp), inner, holds := { closed.holds with } }⟩
  exact settled

theorem builtin_startsWith (v : Builtin.Var) : v.name.startsWith "gl_" := by
  cases v <;> cbv

theorem State.Sound.find?_eq_none (sound : s.Sound) (ordinary : ¬name.startsWith "gl_")
    (fresh : s.scopes.outermost.lookup name = none) :
    s.program.globals.find? (fun g => g.name == name) = none := by
  rw [List.find?_eq_none]
  intro g mem same
  have named : g.name = name := by simpa using same
  rcases sound.named g mem with ⟨v,line,rfl⟩ | declared
  · exact ordinary (named ▸ builtin_startsWith v)
  · rw [named,fresh] at declared
    cases declared

/-- A new name becomes a global, which sees those before it. -/
theorem declareGlobal_settles {g : Global} (ordinary : ¬g.name.startsWith "gl_")
    (fresh : s.scopes.newest.lookup g.name = none) (user : g.builtin = none) (denoted : g.ty.Denoted)
    (admitted : g.Admitted) (typed : ∀ e ∈ g.init, e.WellTyped s.env ∧ e.ty = g.ty) :
    Settles Onward s (declareGlobal g : Checking Unit) fun s' _ => s'.Closed [] := by
  intro closed
  have free : s.scopes.outermost.lookup g.name = none := by rw [← closed.newest]; exact fresh
  have absent := closed.sound.find?_eq_none ordinary free
  let t : State := { s with
    scopes := s.scopes.bind g.name (.variable (.global g.name) g.ty)
    program := { s.program with globals := s.program.globals ++ [g] } }
  have ran : (declareGlobal g : Checking Unit).run.run s = (.ok (), t) := by
    have declared : s.scopes.declare? g.name (.variable (.global g.name) g.ty) =
        some (s.scopes.bind g.name (.variable (.global g.name) g.ty)) := by
      simp [Scopes.declare?,Scopes.inInnermost,fresh]
    have split : (declareGlobal g : Checking Unit).run.run s = (.ok (), ((addGlobal g).run
        ((declare g.name (.variable (.global g.name) g.ty)).run s).2).2) := rfl
    rw [split,run_declare,declared]
    rfl
  have outermost : t.scopes.outermost = (g.name, .variable (.global g.name) g.ty) ::
      s.scopes.outermost := by simp [t,Scopes.bind,closed.inner]
  have inner : t.scopes.inner = [] := by simp [t,Scopes.bind,closed.inner]
  have le : s.whole.Le t.whole := Env.of_le ⟨[g],rfl⟩ id prefix_rfl prefix_rfl
  have known : t.whole.var? (.global g.name) = some (g.ty, g.access) := by
    simp [t,whole,Env.of,find?_append,absent]
  rw [Reaches,ran]
  refine ⟨⟨rfl,prefix_rfl⟩,{ closed with
    sound := { closed.sound with
      scopes := fun has => ?_, named := fun g' mem => ?_
      globals := closed.sound.globals.append absent denoted (.inr ⟨user,ordinary⟩) }
    inner
    holds := { closed.holds with
      bodies := fun f mem body present st inside => ?_, inits := fun {i g'} found e init => ?_ }
    admitted := forall_mem_append.mpr ⟨closed.admitted,forall_mem_singleton.mpr admitted⟩ }⟩
  · rcases Scopes.has_bind has with new | old
    · cases new
      exact ⟨g.access,known⟩
    · exact closed.sound.known_of_le le old
  · grind [Closed.sound,Sound.named]
  · exact (closed.holds.bodies f mem body present st inside).mono
      (Env.of_le ⟨[g],rfl⟩ id prefix_rfl prefix_rfl) id
  · change (s.program.globals ++ [g])[i]? = some g' at found
    change e.WellTyped (.of ((s.program.globals ++ [g]).take i) _ [] []) ∧ _
    rcases Nat.lt_or_ge i s.program.globals.length with old | new
    · rw [getElem?_append_left old] at found
      rw [take_append_of_le_length (Nat.le_of_lt old)]
      exact closed.holds.inits found e init
    · grind [Closed.whole_eq,Expr.WellTyped.mono,env_le_whole]

theorem checkGlobalConst_settles {ty : Ty} (denoted : ty.Denoted) (fits : ty.Fits) (valued : ty ≠ .void)
    {d : Declarator}
    (ordinary : ¬d.name.startsWith "gl_") (fresh : s.scopes.newest.lookup d.name = none) :
    Settles Onward s (checkGlobalConst u ty d) fun s' _ => s'.Closed [] := by
  refine .after (checkConstInit_types u denoted d) fun value s' more typed => ?_
  split
  · exact declareConstant_settles
  · exact declareGlobal_settles ordinary (more.scopes ▸ fresh) rfl denoted ⟨fits,valued,fun _ => rfl⟩
      (by simpa using typed)

theorem warn_types {d : Deprecation} : Types s (warn u span d) fun _ _ => True :=
  fun sound => ⟨sound.told _,⟨(Grows.refl s).toRestores.told (prefix_append _ _),rfl⟩,trivial⟩

theorem checkStorage_types (d : Declarator) (q : Option StorageQualifier) :
    Types s (checkStorage u d q) fun _ _ => True := by
  have warned : ∀ {c : Prop} [Decidable c] {deprecation : Deprecation} {rest : Unit → Checking Storage},
      (∀ s, Types s (rest ()) fun _ _ => True) →
      Types s (if c then warn u d.span deprecation >>= rest else rest ()) fun _ _ => True :=
    fun h => .of_ite (fun _ => .bind warn_types fun _ s' _ _ => h s') fun _ => h s
  unfold checkStorage
  split
  · exact .of_pure trivial
  · exact .of_pure trivial
  · exact .of_pure trivial
  · exact .of_ite (fun _ => .of_fail) fun _ => .of_pure trivial
  · exact .of_ite (fun _ => .of_fail) fun _ => .of_pure trivial
  · exact .guard fun _ => warned fun _ => .of_pure trivial
  · refine warned fun _ => ?_
    split
    · exact .of_pure trivial
    · exact .of_pure trivial
    · exact .of_fail
  · exact .of_fail

theorem checkLayoutInteger_types (e : LayoutEntry) :
    Types s (checkLayoutInteger u e) fun _ _ => True := by
  unfold checkLayoutInteger
  split
  · exact .of_fail
  · refine .bind (checkExpr_types u _) fun e s' _ _ => ?_
    split
    · exact .of_ite (fun _ => .of_pure trivial) fun _ => .of_fail
    · exact .of_fail

theorem checkLayout_types (es : List LayoutEntry) (g : Global) :
    Types s (checkLayout u es g) fun _ g' =>
      g'.name = g.name ∧ g'.ty = g.ty ∧ g'.builtin = g.builtin ∧ g'.storage = g.storage := by
  induction es generalizing g s with
  | nil => exact .of_pure ⟨rfl,rfl,rfl,rfl⟩
  | cons e es ih =>
    refine .of_ite (fun _ => .guard fun _ => ?_) fun _ => .of_ite (fun _ => .guard fun _ => ?_)
      fun _ => .of_ite (fun _ => .of_fail) fun _ => .of_fail
    all_goals exact .bind (checkLayoutInteger_types e) fun n s' _ _ => ih _

theorem checkGlobal_settles (decl : Declaration) (d : Declarator) :
    Settles Onward s (checkGlobal u decl d) fun s' _ => s'.Closed [] := by
  refine .after (checkTy_types u decl.type d.sizes) fun ty s₁ _ ⟨denoted,fits⟩ => .guard fun noVoid =>
    .after (requireFreshName_types d.name d.span) fun _ s₂ _ fresh => ?_
  obtain ⟨ordinary,fresh⟩ := fresh
  have valued : ty ≠ .void := fun void => noVoid (by rw [void]; rfl)
  dsimp only
  refine .of_ite (fun _ => checkGlobalConst_settles denoted fits valued ordinary fresh) fun _ => ?_
  refine .after (checkStorage_types d _) fun storage s₃ more₃ _ =>
    .after (W := fun _ _ => True) (.of_placed fun _ _ => trivial) fun _ s₄ more₄ _ =>
      .after (checkLayout_types _ _) fun g s₅ more₅ same => ?_
  obtain ⟨name,type,user,place⟩ := same
  have declared {init : Option Expr} {s₆ : State} (more₆ : s₅.Grows s₆)
      (typed : ∀ e ∈ init, e.WellTyped s₆.env ∧ e.ty = ty)
      (initialized : init.isSome = true → storage = .priv) :
      Settles Onward s₆ (declareGlobal { g with init } : Checking Unit) fun s' _ => s'.Closed [] := by
    have free : s₆.scopes.newest.lookup d.name = none := by
      rw [more₆.scopes,more₅.scopes,more₄.scopes,more₃.scopes]
      exact fresh
    refine declareGlobal_settles ?_ ?_ ?_ ?_ ⟨?_,?_,?_⟩ ?_
    · rw [name]
      exact ordinary
    · rw [name]
      exact free
    · rw [user]
    · rw [type]
      exact denoted
    · rw [type]
      exact fits
    · rw [type]
      exact valued
    · rw [place]
      exact initialized
    · rw [type]
      exact typed
  split
  · refine .guard fun private_ => .after (checkInit_types u denoted _) fun init s₆ more₆ typed =>
      declared more₆ typed fun _ => by simpa using private_
  · rename_i absent
    rw [Option.eq_none_iff_forall_ne_some.mpr absent]
    exact declared (.refl _) (by simp) nofun

theorem checkAxes_types (es : List LayoutEntry) (size : WorkGroup) :
    Types s (checkAxes u es size) fun _ _ => True := by
  induction es generalizing size s with
  | nil => exact .of_pure trivial
  | cons e es ih =>
    unfold checkAxes
    dsimp only
    split
    · exact .of_fail
    · exact .bind (checkLayoutInteger_types e) fun n s' _ _ => .guard fun _ => ih _

/-- A declaration of the size is the first one, or it says what was said before. -/
def Sizes (u : WrittenUnit) (entries : List LayoutEntry) (s s' : State) : Prop :=
  ∃ size, ((checkAxes u entries (s.program.localSize.getD {})).run.run s).1 = .ok size ∧
    (∀ old ∈ s.program.localSize, old = size) ∧ s'.program.localSize = some size

theorem checkLocalSize_settles (entries : List LayoutEntry) (span : Span) :
    Settles Tells s (checkLocalSize u entries span) fun s' _ => s'.Closed [] ∧ Sizes u entries s s' := by
  unfold checkLocalSize
  refine .guard fun _ => .get_bind ?_
  have axes : Types s (checkAxes u entries (s.program.localSize.getD {})) fun _ size =>
      ((checkAxes u entries (s.program.localSize.getD {})).run.run s).1 = .ok size := by
    intro sound
    have left := checkAxes_types (u := u) entries (s.program.localSize.getD {}) sound
    grind
  refine .after axes fun size s' _ read => .guard fun same => ?_
  have kept : ∀ old ∈ s.program.localSize, old = size := by
    intro old given
    rw [Option.mem_def] at given
    simpa [given] using same
  have sized : Settles Tells s'
      (modify fun s => { s with program := { s.program with localSize := some size } } : Checking Unit)
      fun s' _ => s'.Closed [] ∧ Sizes u entries s s' :=
    fun closed => ⟨prefix_rfl,{ closed with sound := { closed.sound with }, holds := { closed.holds with } },
      size,read,kept,rfl⟩
  dsimp only
  split
  · exact .guard fun _ => sized
  · exact sized

end Globals

section Functions

variable {s : State} {u : WrittenUnit} {waiting : List String}

theorem checkParams_types (ps : List Surface.Param) : Types s (checkParams u ps) fun _ params =>
      params.length = ps.length ∧ ∀ p ∈ params, p.1.Denoted := by
  induction ps generalizing s with
  | nil => exact .of_pure (by simp)
  | cons p ps ih =>
    refine .bind (checkTy_types u p.type p.sizes) fun ty s' _ ⟨denoted,_⟩ => .guard fun _ => .guard fun _ =>
      .bind ih fun params s'' _ rest => .of_pure ?_
    exact ⟨by simp [rest.1],forall_mem_cons.mpr ⟨denoted,rest.2⟩⟩

/-- An overload that was declared: its function is there, or has yet to be added. -/
def Prototyped (p : Prototype) (s : State) (o : Overload) : Prop :=
  o ∈ s.overloads ∧ p.params.length = o.params.length ∧
    (s.Closed [] ∨ o.defined = false ∧ s.program.function? o.signature = none ∧
      s.Closed [o.signature])

theorem State.Closed.declare (closed : s.Closed [])
    (new : s.overloads.find? (fun p => p.signature == o.signature) = none)
    (denoted : o.returnTy.Denoted ∧ ∀ p ∈ o.params, p.1.Denoted) :
    s.program.function? o.signature = none ∧
      Closed [o.signature] { s with overloads := s.overloads ++ [o] } := by
  have unknown : ∀ p ∈ s.overloads, p.signature ≠ o.signature := by
    simpa using List.find?_eq_none.mp new
  have known : ∀ {f r}, overloadTy? s.overloads f = some r →
      overloadTy? (s.overloads ++ [o]) f = some r := by
    grind [overloadTy?]
  constructor
  · refine List.find?_eq_none.mpr fun f mem same => ?_
    obtain ⟨p,declared,eq⟩ := closed.holds.declared f mem
    exact unknown p declared (eq.trans (by simpa using same))
  · refine { closed with
      sound := { closed.sound with scopes := fun has => ?_, distinct := ?_, overloads := ?_ }
      holds := { closed.holds with
        declared := fun f mem => ?_, bodies := fun f mem body present st inside => ?_
        inits := fun {i g} found e init => ?_ }
      backed := fun p mem settled => ?_ }
    · exact closed.sound.known_of_le (.of_functions known) has
    · rw [map_append,nodup_append]
      refine ⟨closed.sound.distinct,by simp,?_⟩
      simpa using unknown
    · exact forall_mem_append.mpr ⟨closed.sound.overloads,forall_mem_singleton.mpr denoted⟩
    · obtain ⟨p,declared,eq⟩ := closed.holds.declared f mem
      exact ⟨p,mem_append_left _ declared,eq⟩
    · exact (closed.holds.bodies f mem body present st inside).mono (.of_functions known) id
    · obtain ⟨typed,ty⟩ := closed.holds.inits found e init
      exact ⟨typed.mono (.of_functions known),ty⟩
    · rcases mem_append.mp mem with old | added
      · exact closed.backed p old (by simp)
      · cases mem_singleton.mp added
        simp at settled

theorem checkPrototype_settles (p : Prototype) :
    Settles Onward s (checkPrototype u p) (Prototyped p) := by
  unfold checkPrototype
  refine .after (checkTy_types u p.returnType []) fun returnTy s₁ _ ⟨returns,_⟩ => .guard fun _ =>
    .after (checkParams_types p.params) fun params s₂ _ given =>
      .after (W := fun _ _ => True) (.of_placed fun _ _ => trivial) fun _ s₃ _ _ =>
        .get_bind ?_
  dsimp only
  split
  · rename_i old found
    refine .guard fun _ => .guard fun same => .of_pure fun closed =>
      ⟨mem_of_find?_eq_some found,?_,.inl closed⟩
    grind [length_map]
  · rename_i new
    refine .get_bind (.guard fun _ => ?_)
    intro closed
    obtain ⟨absent,waits⟩ := closed.declare new ⟨returns,given.2⟩
    exact ⟨⟨rfl,prefix_rfl⟩,mem_append_right _ (by simp),given.1.symm,.inr ⟨rfl,absent,waits⟩⟩

section

variable (length : p.params.length = o.params.length)
include length

theorem namedParams_ty : (namedParams p o).map (fun q => (q.ty, q.passing)) = o.params := by
  unfold namedParams
  generalize p.params = qs at length
  generalize o.params = ps at length
  induction qs generalizing ps with
  | nil =>
    cases ps with
    | nil => rfl
    | cons _ _ => simp at length
  | cons q qs ih =>
    cases ps with
    | nil => simp at length
    | cons r ps => simp [ih ps (by simpa using length)]

theorem namedParams_denoted (denoted : ∀ r ∈ o.params, r.1.Denoted) :
    ∀ q ∈ namedParams p o, q.ty.Denoted := by
  grind [namedParams_ty,mem_map_of_mem]

theorem namedParams_signature :
    o.signature = signature o.name ((namedParams p o).map Param.ty) := by
  rw [Overload.signature,← namedParams_ty length,map_map]
  rfl

end

theorem State.Closed.back {functions : List Function} (closed : s.Closed [o.signature])
    (mem : o ∈ s.overloads) (signature_ : f.signature = o.signature)
    (ty : f.ty = (o.params, o.returnTy)) (proper : f.Proper)
    (body : ∀ body ∈ f.body, (∀ st ∈ body,
      st.WellTyped (.of s.program.globals (overloadTy? s.overloads) f.params f.locals) f.returnTy false) ∧
      ∃ visible next, Scoped [] 0 body visible next)
    (among : ∀ g ∈ functions, g = f ∨ g ∈ s.program.functions)
    (found : functions.find? (fun g => g.signature == o.signature) = some f)
    (others : ∀ sig, sig ≠ o.signature →
      functions.find? (fun g => g.signature == sig) = s.program.functions.find? fun g => g.signature == sig)
    (distinct : (functions.map Function.signature).Nodup) :
    Closed [] { s with program := { s.program with functions } } := by
  refine { closed with
    sound := { closed.sound with }
    holds := ⟨fun g inside => ?_,fun g inside => ?_,fun g inside body' present => ?_,
      fun g inside body' present => ?_,closed.holds.inits,distinct⟩
    backed := fun p declared _ => ?_ }
  · rcases among g inside with rfl | old
    · exact ⟨o,mem,signature_.symm⟩
    · exact closed.holds.declared g old
  · rcases among g inside with rfl | old
    · exact proper
    · exact closed.holds.functions g old
  · rcases among g inside with rfl | old
    · exact (body body' present).1
    · exact closed.holds.bodies g old body' present
  · rcases among g inside with rfl | old
    · exact (body body' present).2
    · exact closed.holds.valid g old body' present
  · by_cases same : p.signature = o.signature
    · have eq : p = o := inj_on_of_nodup_map closed.sound.distinct declared mem same
      subst eq
      exact ⟨f,found,ty⟩
    · obtain ⟨g,old,backs⟩ := closed.backed p declared (by simpa using same)
      exact ⟨g,(others _ same).trans old,backs⟩

theorem addPrototype_settles (p : Prototype) :
    Settles Onward s (addPrototype u p) fun s' _ => s'.Closed [] := by
  refine fun closed => .bind (checkPrototype_settles p closed) fun o s' _ h => .get_bind ?_
  obtain ⟨mem,length,settled | ⟨-,absent,waits⟩⟩ := h
  · obtain ⟨f,found,-⟩ := settled.backed o mem (by simp)
    exact .of_ite (fun missing => by simp [found] at missing) fun _ => ⟨.refl s',settled⟩
  · refine .of_ite (fun _ => ?_) fun known => absurd (by simp [absent]) known
    have denoted := waits.sound.overloads o mem
    let f : Function :=
      { name := o.name, signature := o.signature, returnTy := o.returnTy, params := namedParams p o,
        locals := [], body := none, line := (u.locate p.span).2 }
    refine ⟨⟨rfl,prefix_rfl⟩,waits.back (f := f) mem rfl ?_ ⟨namedParams_signature length,denoted.1,
      namedParams_denoted length denoted.2,by simp [f]⟩ (by simp [f]) (by simp [f,or_comm]) ?_
      (fun sig different => ?_) ?_⟩
    · simp [f,Function.ty,namedParams_ty length]
    · rw [find?_append,show s'.program.functions.find? _ = none from absent]
      simp [f]
    · rw [find?_append]
      simp [different.symm]
    · rw [map_append,nodup_append]
      refine ⟨waits.holds.distinct,by simp,?_⟩
      simpa [f] using List.find?_eq_none.mp absent

theorem State.Closed.mark (closed : s.Closed waiting) {mark : Overload → Overload}
    (kept : ∀ o, (mark o).signature = o.signature ∧ (mark o).params = o.params ∧ (mark o).returnTy = o.returnTy) :
    Closed waiting { s with overloads := s.overloads.map mark } := by
  have same : overloadTy? (s.overloads.map mark) = overloadTy? s.overloads := by
    funext f
    simp [overloadTy?,find?_map,Function.comp_def,kept]
  have whole : whole { s with overloads := s.overloads.map mark } = s.whole := by
    simp only [whole,same]
    rfl
  refine { closed with
    sound := { closed.sound with scopes := ?_, distinct := ?_, overloads := ?_ }
    holds := { closed.holds with declared := fun f mem => ?_, bodies := ?_, inits := ?_ }
    backed := ?_ }
  · rw [whole]
    exact closed.sound.scopes
  · simpa [Function.comp_def,kept] using closed.sound.distinct
  · simpa [kept] using closed.sound.overloads
  · obtain ⟨o,declared,eq⟩ := closed.holds.declared f mem
    exact ⟨mark o,mem_map_of_mem declared,(kept o).1.trans eq⟩
  · simp only [same]
    exact closed.holds.bodies
  · simp only [same]
    exact closed.holds.inits
  · simpa [kept,Backs] using closed.backed

/-- Parameters from the `n`-th on became names of the newest scope, and nothing else changed. -/
def ParamsDeclared (n : Nat) (ps : List Param) (s s' : State) : Prop :=
  ∃ S log, s' = { s with scopes := S, log } ∧ s.Extends s' ∧
    ∀ {v t}, S.Has (.variable v t) → s.scopes.Has (.variable v t) ∨
      ∃ i q, v = .param (n + i) ∧ ps[i]? = some q ∧ q.ty = t

theorem declareParams_declared (n : Nat) (qs : List Surface.Param) (ps : List Param)
    (opened : s.scopes.inner ≠ []) : ParamsDeclared n ps s ((declareParams u n qs ps).run s).2 := by
  have nothing {n : Nat} {ps : List Param} : ParamsDeclared n ps s s :=
    ⟨s.scopes,s.log,rfl,.refl s,.inl⟩
  induction qs generalizing n ps s with
  | nil => exact nothing
  | cons q qs ih =>
    cases ps with
    | nil => exact nothing
    | cons p ps =>
      have others : ∀ S log, s.log <+: log →
          (S = s.scopes ∨ S = s.scopes.bind p.name (.variable (.param n) p.ty)) →
          ParamsDeclared n (p :: ps) s
            ((declareParams u (n + 1) qs ps).run { s with scopes := S, log }).2 := by
        intro S log said origin
        have more : s.Extends { s with scopes := S, log } := by
          rcases origin with rfl | rfl
          · exact (Extends.refl s).told said
          · exact (s.extends_bind opened _ _).told said
        obtain ⟨S',log',eq,more',entries⟩ := ih (s := { s with scopes := S, log }) (n + 1) ps
          (more.inner_ne opened) ⟨_,_,rfl,.refl _,.inl⟩
        refine ⟨S',log',eq,more.trans more',fun has => ?_⟩
        rcases entries has with old | ⟨i,r,rfl,found,ty⟩
        · rcases origin with rfl | rfl
          · exact .inl old
          · rcases Scopes.has_bind old with new | old
            · cases new
              exact .inr ⟨0,p,rfl,rfl,rfl⟩
            · exact .inl old
        · exact .inr ⟨i + 1,r,by rw [Nat.add_assoc,Nat.add_comm 1 i],found,ty⟩
      unfold declareParams
      by_cases named : p.name != ""
      · rw [if_pos named,StateT.run_bind,run_declare]
        cases declared : s.scopes.declare? p.name (.variable (.param n) p.ty) with
        | none => exact others s.scopes _ (prefix_append _ _) (.inl rfl)
        | some S =>
          refine others S s.log prefix_rfl (.inr ?_)
          grind [Scopes.declare?]
      · rw [if_neg named]
        exact others s.scopes s.log prefix_rfl (.inl rfl)

/-- A body is checked with the parameters in the newest scope and every local still to come. -/
theorem checkBody_typed (closed : s.Closed waiting) (d : FunctionDef) {params : List Param}
    (returns : o.returnTy.Denoted) (given : ∀ q ∈ params, q.ty.Denoted) :
    let r := (checkBody u d o params).run s
    r.2.Closed waiting ∧ s.Extends r.2 ∧ (∀ l ∈ r.1.1, l.ty.Denoted) ∧ (∀ st ∈ r.1.2, st.WellTyped
        (.of r.2.program.globals (overloadTy? r.2.overloads) params r.1.1) o.returnTy false) ∧
      ∃ visible next, Scoped [] 0 r.1.2 visible next := by
  intro r
  obtain ⟨S,log,declared,entered,entries⟩ := declareParams_declared (u := u)
    (s := { s with scopes := s.scopes.push }) 0 d.proto.params params s.scopes.push_opened
  let inside : State := { s with scopes := S, log, frame := some { returnTy := o.returnTy, params } }
  have le : s.whole.Le inside.whole := by
    rw [closed.whole_eq]
    exact Env.of_le prefix_rfl id nil_prefix nil_prefix
  rw [declared] at entered
  have outermost : inside.scopes.outermost = s.scopes.outermost := entered.outermost
  have around : inside.scopes.inner.tail = s.scopes.inner := entered.around
  have opened : inside.scopes.inner ≠ [] := entered.inner_ne s.scopes.push_opened
  have sound : inside.Sound := by
    refine { closed.sound with
      scopes := fun has => ?_, named := ?_, params := given
      locals := by simp [inside,State.locals], result := returns }
    · rcases entries has with old | ⟨i,q,rfl,found,rfl⟩
      · exact closed.sound.known_of_le le (Scopes.has_push.mp old)
      · exact ⟨q.access,by simp [inside,whole,Env.of,State.params,found]⟩
    · rw [outermost]
      exact closed.sound.named
  have unseen : inside.Within [] := by
    rintro i ⟨ty,has⟩
    rcases entries has with old | ⟨_,_,new,-⟩
    · exact absurd ⟨ty,Scopes.has_push.mp old⟩ (closed.unseen i)
    · cases new
  obtain ⟨sound',more,body'⟩ := checkStmts_completes (u := u) d.body opened sound
  let checked (t : State) : List Stmt × State :=
    (checkStmts u d.body).run { t with frame := some { returnTy := o.returnTy, params } }
  have ran : r = (fun t => (((checked t).2.locals, (checked t).1),
      { (checked t).2 with frame := none, scopes := (checked t).2.scopes.pop }))
      ((declareParams u 0 d.proto.params params).run { s with scopes := s.scopes.push }).2 := rfl
  rw [declared] at ran
  change r = (fun t : List Stmt × State => ((t.2.locals, t.1),
    { t.2 with frame := none, scopes := t.2.scopes.pop })) ((checkStmts u d.body).run inside) at ran
  generalize (checkStmts u d.body).run inside = outcome at sound' more body' ran
  obtain ⟨body,s'⟩ := outcome
  have popped : s'.scopes.pop = s.scopes := by
    rw [Scopes.pop,more.around,around,more.outermost,outermost]
  rw [ran]
  have last : s.Extends { s' with frame := none, scopes := s'.scopes.pop } :=
    ⟨by simp [popped],by simp [popped],by simp [popped],⟨[],by simp [closed.frame]⟩,more.overloads,
      more.functions,more.globals,more.localSize,entered.log.trans more.log⟩
  refine ⟨closed.extends_ last { sound' with
      scopes := fun has => ?_, params := by simp [State.params], locals := by simp [State.locals]
      result := Ty.denoted_void },last,sound'.locals,fun st mem => ?_,?_⟩
  · dsimp only at has
    rw [popped] at has
    exact closed.sound.known_of_le last.whole_le has
  · have typed := body'.typed st mem
    rw [more.result,more.inLoop,whole,more.params] at typed
    exact typed
  · obtain ⟨visible,-,valid⟩ := body'.valid unseen
    exact ⟨visible,_,valid⟩

variable {fs : List Function}

theorem mem_putFunction {g : Function} (mem : g ∈ putFunction f fs) : g = f ∨ g ∈ fs := by
  induction fs with
  | nil => simpa [putFunction] using mem
  | cons h hs ih =>
    grind [putFunction]

theorem find?_putFunction (f : Function) (fs : List Function) (sig : String) :
    (putFunction f fs).find? (fun g => g.signature == sig) =
      if f.signature = sig then some f else fs.find? fun g => g.signature == sig := by
  induction fs with
  | nil => by_cases same : f.signature = sig <;> simp [putFunction,same]
  | cons g gs ih =>
    grind [putFunction]

theorem nodup_putFunction (f : Function) (distinct : (fs.map Function.signature).Nodup) :
    ((putFunction f fs).map Function.signature).Nodup := by
  induction fs with
  | nil => simp [putFunction]
  | cons g gs ih =>
    grind [putFunction,mem_putFunction]

theorem checkFunction_settles (d : FunctionDef) :
    Settles Onward s (checkFunction u d) fun s' _ => s'.Closed [] := by
  refine fun closed => .bind (checkPrototype_settles d.proto closed) fun o s₁ _ h => ?_
  obtain ⟨mem,length,settled⟩ := h
  by_cases defined : o.defined
  · rcases settled with closed | ⟨undefined,-⟩
    · exact Settles.guard (fun h => absurd defined h) closed
    · exact absurd defined (by simp [undefined])
  have waits : s₁.Closed [o.signature] := by
    rcases settled with closed | ⟨-,-,waits⟩
    · exact closed.weaken _
    · exact waits
  let mark (p : Overload) : Overload :=
    if p.signature = o.signature then { p with defined := true } else p
  have same : ∀ p, (mark p).signature = p.signature ∧ (mark p).params = p.params ∧
      (mark p).returnTy = p.returnTy := by
    intro p
    simp only [mark]
    split <;> exact ⟨rfl,rfl,rfl⟩
  let s₂ : State := { s₁ with overloads := s₁.overloads.map mark }
  have marked : s₂.Closed [o.signature] := waits.mark same
  have denoted := waits.sound.overloads o mem
  obtain ⟨closed,more,locals,body,valid⟩ := checkBody_typed (u := u) marked d denoted.1
    (namedParams_denoted length denoted.2)
  refine .of_ite (fun h => absurd h defined) fun _ => ?_
  let r := (checkBody u d o (namedParams d.proto o)).run s₂
  let f : Function :=
    { name := o.name, signature := o.signature, returnTy := o.returnTy,
      params := namedParams d.proto o, locals := r.1.1, body := some r.1.2,
      line := (u.locate d.span).2 }
  change s₁.Onward { r.2 with program := { r.2.program with
    functions := putFunction f r.2.program.functions } } ∧ Closed [] { r.2 with
      program := { r.2.program with functions := putFunction f r.2.program.functions } }
  have declared : mark o ∈ r.2.overloads := by
    rw [more.overloads]
    exact mem_map_of_mem mem
  rw [← (same o).1] at closed
  refine ⟨⟨more.localSize,more.log⟩,closed.back (f := f) declared (same o).1.symm ?_
    ⟨namedParams_signature length,denoted.1,namedParams_denoted length denoted.2,locals⟩ ?_
    (fun g => mem_putFunction) ?_ (fun sig different => ?_) (nodup_putFunction f closed.holds.distinct)⟩
  · rw [(same o).2.1,(same o).2.2]
    simp [f,Function.ty,namedParams_ty length]
  · intro body' present
    cases present
    exact ⟨body,valid⟩
  · rw [find?_putFunction,if_pos (same o).1.symm]
  · rw [find?_putFunction,if_neg fun eq => different (eq.symm.trans (same o).1.symm)]

theorem recover_run (u : WrittenUnit) (default : α) (work : Checking α) (s : State) :
    (recover u default work).run s = match work.run.run s with
      | (.ok a, t) => (a, t)
      | (.error f, t) => (default, ((report u f).run t).2) := by
  simp only [recover,StateT.run_bind]
  cases work.run.run s with
  | mk outcome t => cases outcome <;> rfl

theorem Settles.recover {work : Checking Unit}
    (h : Settles Onward s work fun s' _ => s'.Closed []) (closed : s.Closed []) :
    s.Onward ((recover u () work).run s).2 ∧ ((recover u () work).run s).2.Closed [] := by
  have left := h closed
  rw [recover_run]
  unfold Reaches at left
  generalize work.run.run s = ran at left ⊢
  obtain ⟨f | a,t⟩ := ran
  · have said : t.log <+: ((report u f).run t).2.log := prefix_append _ _
    exact ⟨left.1.trans ⟨rfl,said⟩,left.2.told said⟩
  · exact left

theorem forM_settles {work : α → Checks Unit} (xs : List α)
    (h : ∀ x s, Closed [] s → s.Onward ((work x).run s).2 ∧ ((work x).run s).2.Closed [])
    (closed : s.Closed []) :
    s.Onward ((xs.forM work).run s).2 ∧ ((xs.forM work).run s).2.Closed [] := by
  induction xs generalizing s with
  | nil => exact ⟨.refl s,closed⟩
  | cons x xs ih =>
    obtain ⟨onward,closed⟩ := h x s closed
    obtain ⟨onward',closed⟩ := ih closed
    exact ⟨onward.trans onward',closed⟩

theorem checkItem_settles {i : Surface.Item} (other : ∀ entries span, i ≠ .localSize entries span)
    (closed : s.Closed []) :
    s.Onward ((checkItem u i).run s).2 ∧ ((checkItem u i).run s).2.Closed [] := by
  match i with
  | .variables d => exact forM_settles _ (fun e s => (checkGlobal_settles d e).recover) closed
  | .prototype p => exact (addPrototype_settles p).recover closed
  | .function d => exact (checkFunction_settles d).recover closed
  | .localSize entries span => exact absurd rfl (other entries span)

theorem checkItem_localSize (entries : List LayoutEntry) (span : Span) (closed : s.Closed []) :
    let s' := ((checkItem u (.localSize entries span)).run s).2
    s'.Closed [] ∧ s.log <+: s'.log ∧ (s'.log.firstError? = none → Sizes u entries s s') := by
  have left := checkLocalSize_settles (u := u) entries span closed
  dsimp only
  rw [checkItem,recover_run]
  unfold Reaches at left
  generalize (checkLocalSize u entries span).run.run s = ran at left ⊢
  obtain ⟨f | a,t⟩ := ran
  · have said : t.log <+: ((report u f).run t).2.log := prefix_append _ _
    refine ⟨left.2.told said,left.1.log.trans said,fun faultless => ?_⟩
    change Log.firstError? (t.log ++ [⟨.error,(u.locate f.span).1,(u.locate f.span).2,
      f.cause.message⟩]) = none at faultless
    simp [Log.firstError?,Severity.isError] at faultless
  · exact ⟨left.2.1,left.1,fun _ => left.2.2⟩

theorem checkItem_closed (i : Surface.Item) (closed : s.Closed []) :
    ((checkItem u i).run s).2.Closed [] ∧ s.log <+: ((checkItem u i).run s).2.log := by
  grind [checkItem_localSize,checkItem_settles,Onward.log]

theorem checkItems_closed (items : List Surface.Item) (closed : s.Closed []) :
    ((items.forM (checkItem u)).run s).2.Closed [] ∧
      s.log <+: ((items.forM (checkItem u)).run s).2.log := by
  induction items generalizing s with
  | nil => exact ⟨closed,prefix_rfl⟩
  | cons i items ih =>
    obtain ⟨closed',said⟩ := checkItem_closed (u := u) i closed
    exact ⟨(ih closed').1,said.trans (ih closed').2⟩

end Functions

theorem State.Closed.wellTyped (closed : s.Closed []) : s.program.WellTyped := by
  have known : ∀ {f r}, overloadTy? s.overloads f = some r → s.program.functionTy? f = some r := by
    intro sig r found
    obtain ⟨o,entry,rfl⟩ := Option.map_eq_some_iff.mp found
    have same : o.signature = sig := by simpa using find?_some entry
    obtain ⟨f,backs,ty⟩ := closed.backed o (mem_of_find?_eq_some entry) (by simp)
    rw [Program.functionTy?,← same,backs,Option.map_some,ty]
  refine ⟨fun f mem body present st inside => ?_,fun found e init => ?_,closed.sound.globals,
    closed.holds.functions,closed.holds.distinct⟩
  · exact (closed.holds.bodies f mem body present st inside).mono (.of_functions known) id
  · obtain ⟨typed,ty⟩ := closed.holds.inits found e init
    exact ⟨typed.mono (.of_functions known),ty⟩

end Shading.Typed

namespace Shading.WrittenUnit
open Typed

def start (u : WrittenUnit) : State :=
  { program := { stage := u.stage, file := u.file, version := u.version, es := u.es } }

def after (u : WrittenUnit) (items : List Surface.Item) : State :=
  ((items.forM (checkItem u)).run u.start).2

theorem after_closed (u : WrittenUnit) (items : List Surface.Item) : (u.after items).Closed [] := by
  refine (checkItems_closed items ?_).1
  refine ⟨⟨?_,?_,?_,⟨?_,?_,?_⟩,?_,?_,?_,Ty.denoted_void⟩,rfl,rfl,⟨?_,?_,?_,?_,?_,?_⟩,?_,?_⟩ <;>
    simp [start,State.params,State.locals,Scopes.Has]

end Shading.WrittenUnit

namespace Shading.Typed

variable {u : WrittenUnit}

theorem checkUnit_wellTyped (u : WrittenUnit) : (checkUnit u).program.WellTyped := by
  have typed := (u.after_closed u.items).wellTyped
  exact { typed with }

theorem checkUnit_admitted (u : WrittenUnit) : ∀ g ∈ (checkUnit u).program.globals, g.Admitted :=
  (u.after_closed u.items).admitted

theorem checkUnit_scoped (u : WrittenUnit) : (checkUnit u).program.Scoped := by
  have holds := (u.after_closed u.items).holds
  refine ⟨holds.valid,fun g mem e init => List.eq_nil_iff_forall_not_mem.mpr fun i mentioned => ?_⟩
  obtain ⟨n,found⟩ := List.getElem?_of_mem mem
  obtain ⟨r,known⟩ := (holds.inits found e init).1.local? mentioned
  cases known

theorem faultless_of_check (checked : u.check.Gives c) :
    c = checkUnit u ∧ c.log.firstError? = none := by
  obtain ⟨-,-,checked⟩ := Reporting.Gives.of_bind checked
  split at checked
  · obtain ⟨-,-,failed⟩ := checked.of_bind
    exact absurd failed Reporting.not_gives_throw
  · rename_i faultless
    obtain ⟨-,-,given⟩ := checked.of_bind
    obtain rfl := Reporting.gives_pure.mp given
    exact ⟨rfl,faultless⟩

theorem eq_checkUnit_of_check (checked : u.check.Gives c) : c = checkUnit u :=
  (faultless_of_check checked).1

/-- The program of a unit without errors is well typed, and its locals are mentioned only where they
are declared. -/
theorem check_wellTyped {u : WrittenUnit} {c : Checked} (checked : u.check.Gives c) :
    c.program.WellTyped ∧ c.program.Scoped := by
  rw [eq_checkUnit_of_check checked]
  exact ⟨checkUnit_wellTyped u,checkUnit_scoped u⟩

/-- A shader with conversions, an array whose size is a constant, a written argument and a jump. -/
def filling : StageSource where
  stage := .fragment
  file := "a"
  text := "const int n=2;float a[n];void set(out float x){x=1;}" ++
    "void main(){for(int i=0;i<n;i++){set(a[i]);if(i>0)continue;a[1]+=2;}}"
  preamble := ""

/-- It is read, checked and well typed. -/
theorem filling_wellTyped :
    ∃ u c, (filling.read ({} : Source.HeaderStore).library).Gives u ∧ u.check.Gives c ∧
      c.program.functions.map Function.signature = ["set(float)", "main()"] ∧
      c.program.WellTyped ∧ c.program.Scoped := by
  have signatures : (((filling.check ({} : Source.HeaderStore).library).run.run {}).1.map
      fun c => c.program.functions.map Function.signature) = .ok ["set(float)","main()"] := by
    decide +kernel
  obtain ⟨c,checked,signatures⟩ := Except.map_eq_ok.mp signatures
  obtain ⟨u,read,checked⟩ := (Reporting.gives_of_run checked).of_bind
  exact ⟨u,c,read,checked,signatures,check_wellTyped checked⟩

end Shading.Typed
