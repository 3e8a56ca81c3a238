import Shading.Proofs.Lowering.Globals

/-! The code of a well-typed program writes only memory that may be written: each routine is that of a
function, with its parameters, and in its body variables are known by the ids of their declarations. -/
namespace Shading.Lowering
open List Bytecode Typed

variable {F : Id → List Param → Prop} {d : Directory} {full : List Instruction}
  {functions : List (String × Id)} {globals : List (String × Id × StorageClass)} {p : Program}

def GlobalOf (code : List Instruction) (table : List (String × Id × StorageClass)) (g : Global) : Prop :=
  ∃ ptr id, table.lookup g.name = some (id, storageClass g.storage) ∧
    ⟨.var, [ptr, id, .ofNat (storageClass g.storage).code]⟩ ∈ code

def ParamOf (code : List Instruction) (q : Param) (i : Instruction) : Prop :=
  ∃ ptr x, i = ⟨.functionParameter, [ptr, x, .ofNat (paramMode q).code]⟩ ∧ i ∈ code

/-- The routine is that of the function, and writes only what may be written. -/
structure RoutineOf (code : List Instruction) (table : List (String × Id)) (F : Id → List Param → Prop)
    (f : Typed.Function) (r : Routine) : Prop where
  id : table.lookup f.signature = some r.id
  params : Forall₂ (ParamOf code) f.params r.params
  body : ∀ i ∈ r.body.code, i.Respects code F

/-- The ids that are known in the body of a function. -/
structure InFunction (full : List Instruction) (globals : List (String × Id × StorageClass))
    (functions : List (String × Id)) (params : List Instruction) (d : Directory) : Prop where
  globals : d.globals = globals
  functions : d.functions = functions
  params : d.frame.params = Pass.results params
  locals : ∀ {i id}, d.frame.locals.lookup i = some id → Writable full id

theorem InFunction.declare {params : List Instruction} {i : Nat} {id : Id}
    (inside : InFunction full globals functions params d) (writable : Writable full id) :
    InFunction full globals functions params (d.declare i id) where
  globals := inside.globals
  functions := inside.functions
  params := inside.params
  locals {j x} found := by
    change ((i, id) :: d.frame.locals).lookup j = some x at found
    rw [lookup_cons] at found
    split at found
    · cases found
      exact writable
    · exact inside.locals found

section Variables

variable {full : List Instruction} {globals : List (String × Id × StorageClass)}
  {functions : List (String × Id)} {f : Typed.Function} {params : List Instruction}

theorem GlobalOf.writable {g : Global} {r : Id × StorageClass} (declared : GlobalOf full globals g)
    (found : globals.lookup g.name = some r) (uniform : g.storage ≠ .uniform) (input : g.storage ≠ .input) :
    Writable full r.1 := by
  obtain ⟨ptr,id,known,here⟩ := declared
  cases known.symm.trans found
  apply Writable.var here (ofCode?_storageClass g)
  · intro same
    cases storage : g.storage <;> simp_all [storageClass]
  · intro same
    cases storage : g.storage <;> simp_all [storageClass]

theorem params_getElem? {qs : List Param} (given : Forall₂ (ParamOf full) qs params) :
    ∀ {i : Nat} {id : Id}, (Pass.results params)[i]? = some id → ∃ q ptr, qs[i]? = some q ∧
      ⟨.functionParameter, [ptr, id, .ofNat (paramMode q).code]⟩ ∈ full := by
  induction given with
  | nil => nofun
  | @cons q i qs params first others ih =>
    obtain ⟨ptr,x,rfl,here⟩ := first
    intro n id found
    cases n with
    | zero =>
      cases found
      exact ⟨q,ptr,rfl,here⟩
    | succ n => exact ih found

theorem Param.ofCode?_mode (q : Param) :
    ParamMode.ofCode? (UInt32.ofNat (paramMode q).code).toNat = some (paramMode q) := by
  cases paramMode q <;> rfl

theorem InFunction.writable (inside : InFunction full globals functions params d)
    (declared : ∀ g ∈ p.globals, GlobalOf full globals g)
    (given : Forall₂ (ParamOf full) f.params params) {v : VarRef} {ptr : Id}
    {storage : StorageClass} {t : Ty} (found : d.var? v = some (ptr, storage))
    (known : (p.env f).var? v = some (t, .plain)) : Writable full ptr := by
  cases v with
  | global name =>
    obtain ⟨g,entry,same⟩ := Option.map_eq_some_iff.mp known
    have plain : g.access = .plain := (Prod.mk.inj same).2
    have named : g.name = name := by simpa using find?_some entry
    change d.globals.lookup name = some (ptr, storage) at found
    rw [inside.globals,← named] at found
    apply (declared g (mem_of_find?_eq_some entry)).writable found
    · intro uniform
      simp [Global.access,uniform] at plain
    · intro input
      simp [Global.access,input] at plain
  | local_ i =>
    obtain ⟨id,here,same⟩ := Option.map_eq_some_iff.mp found
    cases same
    exact inside.locals here
  | param i =>
    obtain ⟨q,entry,same⟩ := Option.map_eq_some_iff.mp known
    have plain : q.access = .plain := (Prod.mk.inj same).2
    obtain ⟨id,here,same⟩ := Option.map_eq_some_iff.mp found
    cases same
    rw [inside.params] at here
    obtain ⟨q',p,entry',line⟩ := params_getElem? given here
    cases entry.symm.trans entry'
    refine .param line (Param.ofCode?_mode q) ?_
    grind [Param.access,paramMode]

end Variables

def Calls (p : Program) (table : List (String × Id)) (f : Id) (params : List Param) : Prop :=
  ∃ signature callee, table.lookup signature = some f ∧ p.function? signature = some callee ∧
    params = callee.params

theorem Calls.routine {code : List Instruction} {table : List (String × Id)} {rs : List Routine}
    (distinct : (p.functions.map Typed.Function.signature).Nodup)
    (keys : table.map Prod.fst = ((Linked.calleesFirst p).map Typed.Function.signature).reverse)
    (routines : Forall₂ (RoutineOf code table F) (Linked.calleesFirst p) rs) {f : Id}
    {params : List Param} (calls : Calls p table f params) :
    ∃ r ∈ rs, r.id = f ∧ Forall₂ (ParamOf code) params r.params := by
  obtain ⟨signature,callee,found,known,rfl⟩ := calls
  have listed : signature ∈ (Linked.calleesFirst p).map Typed.Function.signature := by
    rw [← mem_reverse,← keys]
    obtain ⟨before,after,same,-⟩ := lookup_eq_some_iff.mp found
    rw [same]
    simp
  obtain ⟨g,mem,signed⟩ := mem_map.mp listed
  obtain ⟨r,routine,ofFunction⟩ := exists_of_forall₂ routines mem
  grind [Linked.function?_of_mem,Linked.mem_calleesFirst,RoutineOf.params,RoutineOf.id]

section Functions

variable {full : List Instruction} {I : Directory → Prop} {F : Id → List Param → Prop} {s : State}

theorem lowerParams_produces : ∀ (qs : List Param) (ptrs : List Id), Produces full I (lowerParams qs ptrs)
    fun b _ => ptrs.length = qs.length → Forall₂ (ParamOf full) qs b.code := by
  intro qs ptrs
  induction qs generalizing ptrs with
  | nil =>
    rw [lowerParams]
    · exact .of_pure fun _ => .nil
    · simp
  | cons q qs ih =>
    cases ptrs with
    | nil =>
      rw [lowerParams]
      · exact .of_pure fun same => by simp at same
      · simp
    | cons ptr ptrs =>
      rw [lowerParams]
      refine .bind fresh_produces fun id => .bind (emit_produces _ _) fun _ =>
        .bind (addName_produces _ _) fun _ => .bind (ih ptrs) fun rest => .of_pure ?_
      rintro b others _ rfl _ ⟨rfl,here⟩ _ rfl same
      have rest := others (Nat.succ.inj same)
      simpa [Block.one,Block.code] using Forall₂.cons ⟨ptr,id,rfl,here⟩ rest

theorem RunsRoutine.keeps {f : Typed.Function} {body : List Stmt} {s' : State} {r : Routine}
    (ran : RunsRoutine p f body s r s') (documented : s.Documented) (inside : s'.written ⊆ full)
    (keeps : Forall₂ (ParamOf full) f.params r.params →
      Keeps full (InFunction full s.globals s.functions r.params) F True (lowerBody p f body)) :
    RoutineOf full s.functions F f r ∧ s'.Documented := by
  obtain ⟨returnTy,id,ty,ptrs,s₁,s₂,s₃,head,found,ranHead,ranParams,paramCode,ranBody,bodyCode,rfl⟩ := ran
  have headed : s₁.Continues (s₁.wrote r.head) := Adds.emit r.head.op r.head.operands s₁ () _ rfl
  have given := Adds.lowerParams f.params ptrs _ _ s₂ ranParams
  let start : State := { s₂ with frame := { declared := f.locals, params := Pass.results r.params } }
  have framed : s₂.Continues start :=
    .of_same prefix_rfl prefix_rfl ⟨rfl,rfl,rfl,rfl,rfl,rfl⟩
  have wrote := Adds.lowerBody p f body start _ s₃ ranBody
  have ended : s₃.Continues { s₃.wrote ⟨.functionEnd,[]⟩ with frame := {} } :=
    .of_same (by simp) prefix_rfl ⟨rfl,rfl,rfl,rfl,rfl,rfl⟩
  -- all that was written on the way is part of the whole
  have in₃ := Subset.trans ended.written inside
  have in₂ := Subset.trans (framed.trans wrote).written in₃
  have in₁ := Subset.trans (headed.trans given).written in₂
  let I : Directory → Prop := fun d => d.globals = s.globals ∧ d.functions = s.functions
  have heading : Produces full I (headTys f) fun _ r => r.2.1.length = f.params.length :=
    .of_finds (fun _ => headTys_finds f) fun _ _ found => found.params.length_eq.symm
  obtain ⟨documented₁,known₁,-,-,pointers⟩ := heading.made ranHead documented ⟨rfl,rfl⟩ in₁
  obtain ⟨documented₂,known₂,b,code,params⟩ := (lowerParams_produces (I := I) f.params ptrs).made
    ranParams (headed.documented rfl documented₁) known₁ in₂
  have same : r.params = b.code := append_cancel_left (paramCode.symm.trans code)
  have params : Forall₂ (ParamOf full) f.params r.params := same ▸ params pointers
  obtain ⟨documented₃,-,b',code',holds⟩ := (keeps params).made ranBody
    (framed.documented rfl documented₂) ⟨known₂.1,known₂.2,rfl,nofun⟩ in₃
  have same' : r.body.code = b'.code := append_cancel_left (bodyCode.symm.trans code')
  refine ⟨⟨?_,params,same' ▸ (holds trivial).1⟩,ended.documented rfl documented₃⟩
  rw [found,Routine.id,head]
  rfl

variable {fs : List Typed.Function} {s' : State} {rs : List Routine}

theorem RunsRoutines.continues (ran : RunsRoutines p fs s rs s') : s.Continues s' := by
  induction ran with
  | nil => exact .refl _
  | cons _ ran _ _ ih => exact (Adds.lowerFunction p _ _ _ _ ran).trans ih

theorem RunsRoutines.keep (ran : RunsRoutines p fs s rs s') (documented : s.Documented)
    (sameGlobals : s.globals = globals) (sameFunctions : s.functions = functions)
    (inside : s'.written ⊆ full)
    (keeps : ∀ f ∈ fs, ∀ body ∈ f.body, ∀ params, Forall₂ (ParamOf full) f.params params →
      Keeps full (InFunction full globals functions params) F True (lowerBody p f body)) :
    Forall₂ (RoutineOf full functions F) fs rs := by
  induction ran with
  | nil => exact .nil
  | @cons f fs body s t u r rs hasBody ran runs rest ih =>
    rw [forall_mem_cons] at keeps
    have more := Adds.lowerFunction p f s _ t ran
    obtain ⟨routine,documented'⟩ := runs.keeps documented (Subset.trans rest.continues.written inside)
      fun params => sameGlobals ▸ sameFunctions ▸ keeps.1 body hasBody r.params params
    exact .cons (sameFunctions ▸ routine) (ih documented' (more.globals.trans sameGlobals)
      (more.functions.trans sameFunctions) inside keeps.2)

end Functions

section Programs

variable {p : Program} {code : List Instruction} {s : State}

theorem lowerCode_globals (scoping : p.Scoped) (distinct : (p.globals.map Global.name).Nodup)
    (ran : (lowerCode p).run {} = .ok (code, s)) : ∀ g ∈ p.globals, GlobalOf s.written s.globals g := by
  obtain ⟨places,named,declared⟩ := lowerCode_places scoping ran
  intro g mem
  rw [← named] at mem distinct
  obtain ⟨place,placed,rfl⟩ := mem_map.mp mem
  refine ⟨place.ptr,place.id,?_,mem_append_left _ ?_⟩
  · rw [declared.globals]
    apply lookup_of_mem
    · grind [Placed.entry]
    · simpa [Placed.entry] using ⟨place,placed,rfl,rfl,rfl⟩
  · have line : place.line ∈ s.decls.toList.filter fun i => i.op == .var := by
      rw [declared.vars]
      exact mem_map_of_mem placed
    exact (mem_filter.mp line).1

theorem lowerCode_keeps (scoping : p.Scoped) (ran : (lowerCode p).run {} = .ok (code, s))
    (inside : s.written ⊆ full)
    (keeps : ∀ f ∈ p.functions, ∀ body ∈ f.body, ∀ params, Forall₂ (ParamOf full) f.params params →
      Keeps full (InFunction full s.globals s.functions params) F True (lowerBody p f body)) :
    ∃ (id : Id) (rs : List Routine), code = (s.outline p id rs).code ∧
      (s.outline p id rs).Shaped ∧
      s.functions.map Prod.fst = ((Linked.calleesFirst p).map Typed.Function.signature).reverse ∧
      Forall₂ (RoutineOf full s.functions F) (Linked.calleesFirst p) rs := by
  obtain ⟨s₁,s₂,entry,id,-,ranNames,ranGlobals,ranFunctions,-,rfl⟩ := lowerCode_eq_ok ran
  obtain ⟨tidy₁,next,names,new,rfl,keys⟩ := nameFunctions_run initial_tidy ranNames
  have tidy₂ := forM_declares lowerGlobal_declares p.globals _ _ s₂ tidy₁ ranGlobals
  obtain ⟨places,-,declared⟩ := lowerGlobals_declare ⟨⟨by simp,by simp⟩,by simp⟩ ranGlobals
  obtain ⟨rs,emitted,runs,-⟩ := lowerFunctions_emit scoping Linked.mem_calleesFirst tidy₂.tidy ranFunctions
  have more := runs.continues
  have outside : ∀ i ∈ s.outside (aboutProgram p id), i.op.isOutside = true :=
    emitted.tidy.isOutside fun i m => by
      rcases aboutProgram_ops p id i m with op | op | op <;> rw [op] <;> rfl
  refine ⟨id,rs,?_,⟨outside,emitted.shaped⟩,?_,runs.keep declared.documented more.globals.symm
    more.functions.symm inside fun f mem => keeps f (Linked.mem_calleesFirst f mem).1⟩
  · have start : s₂.code.toList = [] := by rw [tidy₂.code]
    simp [Outline.code,emitted.code,start]
  · rw [more.functions,declared.functions,append_nil,keys]

/-- The routines of a lowered module are those of the functions of the program, and write only what may be
written. -/
theorem lower_keeps (scoping : p.Scoped) (distinct : (p.globals.map Global.name).Nodup)
    (typed : ∀ f ∈ p.functions, ∀ x ∈ f.parts ++ p.initParts, x.WellTyped (p.env f))
    (initials : ∀ g ∈ p.globals, g.init.isSome = true → g.storage ≠ .uniform ∧ g.storage ≠ .input)
    {m : Module} (lowered : (lower p).Gives m) {t : Outline} {h : Header}
    (decoded : decode m = .ok (h, t.code)) (shaped : t.Shaped) : ∃ functions : List (String × Id),
      functions.map Prod.fst = ((Linked.calleesFirst p).map Typed.Function.signature).reverse ∧
      Forall₂ (RoutineOf t.code functions (Calls p functions)) (Linked.calleesFirst p) t.routines := by
  obtain ⟨code,s,ranCode,assembled,-⟩ := lower_ran lowered
  have current : (Header.new p.stage s.nextId).Current := rfl
  obtain ⟨-,rfl,-⟩ := (decode_assemble current assembled).mp decoded
  have inside : s.written ⊆ t.code := by
    grind [lowerCode_eq_ok,State.written,State.outside]
  have declared : ∀ g ∈ p.globals, GlobalOf t.code s.globals g := fun g mem => by
    obtain ⟨ptr,id,found,here⟩ := lowerCode_globals scoping distinct ranCode g mem
    exact ⟨ptr,id,found,inside here⟩
  obtain ⟨id,rs,same,shaped',keys,routines⟩ := lowerCode_keeps (F := Calls p s.functions) scoping ranCode
    inside fun f mem body hasBody params given => by
      have parts := forall_mem_append.mp (typed f mem)
      have setting : BodySetting t.code (InFunction t.code s.globals s.functions params) (p.env f) p
          (Calls p s.functions) := by
        refine ⟨⟨fun inside found known => inside.writable declared given found known,
          fun {d signature g callee} inside found known => ⟨signature,callee,inside.functions ▸ found,known,rfl⟩,
          fun {signature params t callee args} known found passes => ?_⟩,fun inside => inside.declare,
          fun {d g r} inside mem init found => ?_⟩
        · change p.functionTy? signature = _ at known
          rw [Program.functionTy?,found] at known
          obtain ⟨rfl,rfl⟩ := Prod.mk.inj (Option.some.inj known)
          exact (forall₂_map_left_iff.mp passes).imp fun q e fits => fits.2
        · obtain ⟨uniform,input⟩ := initials g mem init
          exact (declared g mem).writable (inside.globals ▸ found) uniform input
      grind [lowerBody_keeps,Option.mem_def,Function.parts]
  grind [Outline.Shaped.ofCode?_code]

end Programs

end Shading.Lowering
