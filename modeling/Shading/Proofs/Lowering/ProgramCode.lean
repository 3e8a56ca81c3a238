import Shading.Proofs.Bytecode.Encoding
import Shading.Proofs.Bytecode.Outline
import Shading.Proofs.Linked.CallOrder
import Shading.Proofs.Lowering.StmtCode

/-! The code of a program is the code of a module with structured functions, in which ids are mentioned
where they are visible. -/
namespace Shading.Lowering
open List Bytecode Typed Instruction Opcode Lower State

variable {p : Program} {f : Typed.Function} {body : List Stmt} {a : Unit} {i : Instruction}
  {target : Id} {code about : List Instruction} {m : Module}

/-- Parameters are written as instructions of their own. -/
structure EmitsParams (s : State) (params : List Instruction) (ids : List Id) (s' : State) : Prop where
  code : s'.code.toList = s.code.toList ++ params
  functions : s'.functions = s.functions
  known : s.known ⊆ s'.known
  tidy : s'.Tidy
  ops : ∀ i ∈ params, i.op = .functionParameter
  inside : ∀ i ∈ params, i.references ⊆ s'.known
  results : Pass.results params = ids

theorem lowerParams_emits : ∀ {qs : List Param} {ptrs : List Id} {s s' : State} {ids : List Id},
    s.Tidy → ptrs ⊆ s.known → (lowerParams qs ptrs).run s = .ok (ids, s') →
      ∃ params, EmitsParams s params ids s'
  | [], _, s, s', ids, tidy, _, ran => by
    rw [lowerParams] at ran
    cases ran
    exact ⟨[],by simp,rfl,Subset.refl _,tidy,by simp,by simp,rfl⟩
    all_goals simp
  | q :: qs, [], s, s', ids, tidy, _, ran => by
    rw [lowerParams] at ran
    cases ran
    exact ⟨[],by simp,rfl,Subset.refl _,tidy,by simp,by simp,rfl⟩
    all_goals simp
  | q :: qs, ptr :: ptrs, s, s', ids, tidy, known, ran => by
    rw [lowerParams] at ran
    obtain ⟨id,s₁,ranFresh,ran⟩ := run_bind_eq_ok.mp ran
    obtain ⟨_,s₂,wrote,ran⟩ := run_bind_eq_ok.mp ran
    obtain ⟨_,s₃,ranName,ran⟩ := run_bind_eq_ok.mp ran
    obtain ⟨rest,s₄,ranRest,given⟩ := run_bind_eq_ok.mp ran
    have fresh := Declares.fresh s id s₁ tidy ranFresh
    cases emit_eq_ok wrote
    have nameable : id ∈ (s₁.wrote ⟨.functionParameter,[ptr,id,.ofNat (paramMode q).code]⟩).nameable := by
      simp [nameable,Pass.results,result?,resultPosition?,hasResultType]
    have named := addName_declared (fresh.tidy.wrote _) nameable ranName
    have upTo := Subset.trans fresh.known named.known
    obtain ⟨params,emitted⟩ := lowerParams_emits named.tidy
      (Subset.trans (subset_cons_self _ _) (Subset.trans known upTo)) ranRest
    cases given
    refine ⟨⟨.functionParameter,[ptr,id,.ofNat (paramMode q).code]⟩ :: params,?_,
      emitted.functions.trans (named.functions.trans fresh.functions),Subset.trans upTo emitted.known,
      emitted.tidy,forall_mem_cons.mpr ⟨rfl,emitted.ops⟩,forall_mem_cons.mpr ⟨?_,emitted.inside⟩,?_⟩
    · rw [emitted.code,named.code,wrote_code,fresh.code]
      simp
    · have seen : ptr ∈ s'.known := emitted.known (upTo (known mem_cons_self))
      simpa [references,refersAt] using seen
    · rw [← emitted.results]
      simp [Pass.results,result?,resultPosition?,hasResultType]

theorem lowerInits_writes (p : Program) : ∀ {gs : List Global} (uses : List Id),
    (∀ g ∈ gs, ∀ e ∈ g.init, e.locals = []) → Writes false [] uses 0 (lowerInits p gs) [] 0
  | [], uses, _ => by
    rw [lowerInits]
    exact .of_pure
  | g :: gs, uses, closed => by
    rw [forall_mem_cons] at closed
    have rest := lowerInits_writes p uses closed.2
    rw [lowerInits]
    split
    · split
      · rename_i e init
        have inside : e.locals ⊆ [] := by simp [closed.1 e init]
        have found : Yields [] uses (variableId (.global g.name)) fun r => [r.1] :=
          (variableId_shows (by simp)).imp (fun _ => id) fun _ _ _ seen => cons_subset.mpr ⟨seen,nil_subset _⟩
        refine .after found fun r => .after (lowerExpr_yields p e inside _)
          fun v => .bind (.of_emit rfl (by simp) rfl ?_) ?_ (Nat.le_refl _)
        · simp [mentions,refersAt]
        · exact lowerInits_writes p _ closed.2
      · exact rest
    · exact rest

/-- Work on a function has written a function with a structured body. -/
structure EmitsRoutine (s : State) (r : Routine) (s' : State) : Prop where
  code : s'.code.toList = s.code.toList ++ r.code
  functions : s'.functions = s.functions
  known : s.known ⊆ s'.known
  tidy : s'.Tidy
  shaped : r.Shaped
  heads : ∀ i ∈ r.head :: r.params, i.references ⊆ s'.known
  inside : r.body.Scoped (Pass.results r.params ++ s'.known)

theorem lowerBody_writes (scoping : p.Scoped) {visible : List Nat} {next : Nat}
    (valid : Typed.Scoped [] 0 body visible next) (uses : List Id) :
    Writes false [] uses 0 (lowerBody p f body) visible next := by
  have last : Writes false visible uses next (do
      let ended := (← get).code.back?.any fun i => i.op.isTerminator
      if !ended && f.returnTy.isVoid then emit .ret []) visible next := by
    intro v s a s' tidy inBody used ran
    obtain ⟨_,t,got,ran⟩ := run_bind_eq_ok.mp ran
    cases got
    dsimp only at ran
    split at ran
    · exact Writes.of_emit rfl (by simp) rfl (by simp [mentions]) v s a s' tidy inBody used ran
    · exact Writes.of_pure v s a s' tidy inBody used ran
  have main := Writes.bind (lowerStmts_writes p valid uses) last valid.next_le
  unfold lowerBody
  split
  · exact .bind (lowerInits_writes p uses scoping.inits) main (Nat.le_refl _)
  · exact main

variable {s s' : State}

theorem lowerFunction_eq_ok (hasBody : f.body = some body) :
    (lowerFunction p f).run s = .ok (a, s') ↔
      ∃ id returnTy ptrs ty params s₁ s₂ s₃, s.functions.lookup f.signature = some id ∧
        (headTys f).run s = .ok ((returnTy, ptrs, ty), s₁) ∧
        (lowerParams f.params ptrs).run (s₁.wrote ⟨.function, [returnTy, id, ty]⟩) = .ok (params, s₂) ∧
        (lowerBody p f body).run { s₂ with frame := { declared := f.locals, params } } = .ok ((), s₃) ∧
        s' = { s₃.wrote ⟨.functionEnd, []⟩ with frame := {} } := by
  have split : lowerFunction p f = (do
      let id ← functionId f.signature
      let r ← headTys f
      emit .function [r.1,id,r.2.2]
      let params ← lowerParams f.params r.2.1
      modify fun s => { s with frame := { declared := f.locals, params } }
      lowerBody p f body
      emit .functionEnd []
      modify fun s => { s with frame := {} }) := by
    simp [lowerFunction,hasBody,headTys,pointerTo]
  rw [split]
  constructor
  · intro ran
    obtain ⟨id,s₀,ranId,ran⟩ := run_bind_eq_ok.mp ran
    obtain ⟨⟨returnTy,ptrs,ty⟩,s₁,ranHead,ran⟩ := run_bind_eq_ok.mp ran
    obtain ⟨_,_,wrote,ran⟩ := run_bind_eq_ok.mp ran
    obtain ⟨params,s₂,ranParams,ran⟩ := run_bind_eq_ok.mp ran
    obtain ⟨_,_,framed,ran⟩ := run_bind_eq_ok.mp ran
    obtain ⟨_,s₃,ranBody,ended⟩ := run_bind_eq_ok.mp ran
    obtain ⟨rfl,found⟩ := functionId_eq_ok ranId
    cases wrote
    cases framed
    cases ended
    exact ⟨id,returnTy,ptrs,ty,params,s₁,s₂,s₃,found,ranHead,ranParams,ranBody,rfl⟩
  · rintro ⟨id,returnTy,ptrs,ty,params,s₁,s₂,s₃,found,ranHead,ranParams,ranBody,rfl⟩
    have ranId : (functionId f.signature).run s = .ok (id, s) := by
      rw [functionId,run_get_bind,found]
      rfl
    rw [run_bind_of_ok ranId,run_bind_of_ok ranHead,emit,
      run_bind_of_ok (t := s₁.wrote ⟨.function,[returnTy,id,ty]⟩) rfl,run_bind_of_ok ranParams,
      run_bind_of_ok (t := { s₂ with frame := { declared := f.locals, params } }) rfl,
      run_bind_of_ok ranBody]
    rfl

/-- How a function is written: its head and its parameters, and then its body in a frame of its own. -/
def RunsRoutine (p : Program) (f : Typed.Function) (body : List Stmt) (s : State) (r : Routine)
    (s' : State) : Prop :=
  ∃ (returnTy id ty : Id) (ptrs : List Id) (s₁ s₂ s₃ : State),
    r.head = ⟨.function, [returnTy, id, ty]⟩ ∧ s.functions.lookup f.signature = some id ∧
    (headTys f).run s = .ok ((returnTy, ptrs, ty), s₁) ∧
    (lowerParams f.params ptrs).run (s₁.wrote r.head) = .ok (Pass.results r.params, s₂) ∧
    s₂.code.toList = (s₁.wrote r.head).code.toList ++ r.params ∧
    (lowerBody p f body).run
      { s₂ with frame := { declared := f.locals, params := Pass.results r.params } } = .ok ((), s₃) ∧
    s₃.code.toList = s₂.code.toList ++ r.body.code ∧
    s' = { s₃.wrote ⟨.functionEnd, []⟩ with frame := {} }

theorem RunsRoutine.found {p : Program} {f : Typed.Function} {body : List Stmt} {s s' : State}
    {r : Routine} (ran : RunsRoutine p f body s r s') :
    s.functions.lookup f.signature = r.head.result? := by
  obtain ⟨returnTy,id,ty,-,-,-,-,head,found,-⟩ := ran
  rw [head,found]
  rfl

theorem lowerFunction_emits (scoping : p.Scoped) (mem : f ∈ p.functions)
    (hasBody : f.body = some body) (tidy : s.Tidy) (ran : (lowerFunction p f).run s = .ok (a, s')) :
    ∃ r, EmitsRoutine s r s' ∧ RunsRoutine p f body s r s' := by
  obtain ⟨id,returnTy,ptrs,ty,params,s₁,s₂,s₃,found,ranHead,ranParams,ranBody,rfl⟩ :=
    (lowerFunction_eq_ok hasBody).mp ran
  have headed := headTys_declares f s _ s₁ tidy ranHead
  obtain ⟨returned,signed,pointed⟩ : returnTy ∈ s₁.known ∧ ty ∈ s₁.known ∧ ptrs ⊆ s₁.known := by
    simpa using headed.gives
  obtain ⟨paramCode,emitted⟩ := lowerParams_emits (headed.tidy.wrote _) pointed ranParams
  obtain ⟨visible,next,valid⟩ := scoping.bodies f mem body hasBody
  have tidy₂ : Tidy { s₂ with frame := { declared := f.locals, params } } := { emitted.tidy with }
  obtain ⟨b,wrote,-⟩ := lowerBody_writes scoping valid [] params _ _ s₃ tidy₂
    ⟨⟨Subset.refl _,by simp⟩,by simp⟩ (by simp) ranBody
  have upTo : s₁.known ⊆ s₃.known := Subset.trans emitted.known wrote.known
  refine ⟨⟨⟨.function,[returnTy,id,ty]⟩,paramCode,b⟩,⟨?_,?_,Subset.trans headed.known upTo,
    { wrote.tidy.wrote ⟨.functionEnd,[]⟩ with },⟨rfl,rfl,emitted.ops,wrote.proper⟩,forall_mem_cons.mpr ⟨?_,
      fun i m => Subset.trans (emitted.inside i m) wrote.known⟩,emitted.results ▸ wrote.inside⟩,?_⟩
  · simp [wrote.code,emitted.code,headed.code,Routine.code]
  · exact wrote.functions.trans (emitted.functions.trans headed.functions)
  · have mentioned : (⟨.function,[returnTy,id,ty]⟩ : Instruction).references = [returnTy,ty] := by
      simp [references,refersAt,zipIdx_cons]
    rw [mentioned]
    exact cons_subset.mpr ⟨upTo returned,cons_subset.mpr ⟨upTo signed,nil_subset _⟩⟩
  · obtain rfl := emitted.results
    exact ⟨returnTy,id,ty,ptrs,s₁,s₂,s₃,rfl,found,ranHead,ranParams,emitted.code,ranBody,wrote.code,rfl⟩

/-- A global with the ids of its pointer type and of its variable. -/
structure Placed where
  global : Global
  ptr : Id
  id : Id

namespace Placed

def line (p : Placed) : Instruction :=
  ⟨.var, [p.ptr, p.id, .ofNat (storageClass p.global.storage).code]⟩

def entry (p : Placed) : String × Id × StorageClass :=
  (p.global.name, p.id, storageClass p.global.storage)

def nameLines (p : Placed) : List Instruction :=
  if p.global.name.isEmpty then [] else [.named p.id p.global.name]

def decorationLines (p : Placed) : List Instruction :=
  (globalDecorations p.global).map fun (d, n) => ⟨.decorate, [p.id, .ofNat d.code, .ofNat n]⟩

theorem eq_of_mem_nameLines {p : Placed} (mem : i ∈ p.nameLines) :
    i = .named p.id p.global.name := by
  unfold nameLines at mem
  split at mem
  · cases mem
  · exact mem_singleton.mp mem

theorem eq_of_mem_decorationLines {p : Placed} (mem : i ∈ p.decorationLines) :
    ∃ (d : Decoration) (n : Nat), i = ⟨.decorate, [p.id, .ofNat d.code, .ofNat n]⟩ := by
  obtain ⟨⟨d,n⟩,-,rfl⟩ := mem_map.mp mem
  exact ⟨d,n,rfl⟩

end Placed

theorem ofCode?_storageClass (g : Global) :
    StorageClass.ofCode? (UInt32.ofNat (storageClass g.storage).code).toNat = some (storageClass g.storage) := by
  cases g.storage <;> rfl

/-- The global is declared, and all is said of it. -/
def State.place (s : State) (p : Placed) : State :=
  { s.declared p.line.op p.line.operands with
    names := s.names ++ p.nameLines.toArray
    decorations := s.decorations ++ p.decorationLines.toArray
    globals := p.entry :: s.globals }

theorem decorate_run (ds : List (Decoration × Nat)) :
    (ds.forM fun (d, n) => decorate target d n).run s = .ok ((), { s with decorations := s.decorations ++
      (ds.map fun (d, n) => (⟨.decorate, [target, .ofNat d.code, .ofNat n]⟩ : Instruction)).toArray }) := by
  induction ds generalizing s with
  | nil =>
    change Except.ok ((), s) = _
    simp
  | cons d ds ih =>
    refine (run_bind_of_ok rfl).trans (ih.trans ?_)
    simp

theorem addName_run {text : String} : (addName target text).run s = .ok ((), { s with
    names := s.names ++ (if text.isEmpty then [] else [named target text]).toArray }) := by
  unfold addName
  split
  · change Except.ok ((), s) = _
    simp
  · change Except.ok ((), { s with names := s.names.push _ }) = _
    simp

theorem lowerGlobal_run (g : Global) (s : State) : ∃ ptr t, s.Tabulates t ∧
    t.Pointer (storageClass g.storage) g.ty ptr ∧
      (lowerGlobal g).run s = .ok ((), t.place ⟨g, ptr, t.nextId⟩) := by
  obtain ⟨ptr,t,ran,steps,pointer⟩ := pointerTo_finds (s := s) (storageClass g.storage) g.ty
  refine ⟨ptr,t,steps,pointer,?_⟩
  rw [lowerGlobal,← bind_assoc]
  refine (run_bind_of_ok ran).trans ((run_bind_of_ok rfl).trans ((run_bind_of_ok rfl).trans
    ((run_bind_of_ok addName_run).trans ((run_bind_of_ok (decorate_run _)).trans rfl))))

/-- A global is declared, and what is said of it comes after. -/
theorem State.Tidy.place (tidy : s.Tidy) (g : Global) (ptr : Id) :
    (s.place ⟨g, ptr, s.nextId⟩).Tidy := by
  have pushed := tidy.push (i := Placed.line ⟨g,ptr,s.nextId⟩) (.inr rfl)
  have defined : s.nextId ∈ (s.place ⟨g,ptr,s.nextId⟩).known := by
    simp [known,State.place,State.declared,Placed.line,Pass.results,result?,
      resultPosition?,hasResultType]
  have nameable : s.nextId ∈ (s.place ⟨g,ptr,s.nextId⟩).nameable := by
    simp [nameable,State.place,State.declared,Placed.line,Pass.results,result?,
      resultPosition?,hasResultType]
  refine { pushed with
    globals := forall_mem_cons.mpr ⟨defined,pushed.globals⟩
    names := ?_
    decorations := ?_ }
  · rw [State.place,Array.toList_append]
    refine forall_mem_append.mpr ⟨pushed.names,fun i mem => ?_⟩
    obtain rfl := Placed.eq_of_mem_nameLines mem
    exact ⟨rfl,nameable⟩
  · rw [State.place,Array.toList_append]
    refine forall_mem_append.mpr ⟨pushed.decorations,fun i mem => ?_⟩
    obtain ⟨d,n,rfl⟩ := Placed.eq_of_mem_decorationLines mem
    exact ⟨rfl,defined⟩

theorem lowerGlobal_declares (g : Global) : Declares (lowerGlobal g) fun _ => [] := by
  intro s a s' tidy ran
  obtain ⟨ptr,t,steps,-,ran'⟩ := lowerGlobal_run g s
  cases ran.symm.trans ran'
  have same := steps.tabulated
  obtain ⟨new,declared,-⟩ := same.decls
  refine ⟨same.code,same.frame,same.functions,?_,(steps.keeps Tidy.enters tidy).place g ptr,by simp⟩
  simp [known,State.place,State.declared,declared,Pass.results]

theorem forM_declares {α : Type} {f : α → Lower Unit} (one : ∀ a, Declares (f a) fun _ => []) :
    ∀ l : List α, Declares (l.forM f) fun _ => []
  | [] => .of_pure rfl
  | a :: l => .bind (one a) fun _ => forM_declares one l

/-- All functions get their ids before any of them is written. -/
theorem nameFunctions_run : ∀ {fs : List Typed.Function} {s s' : State} {a : Unit}, s.Tidy →
    (fs.forM nameFunction).run s = .ok (a, s') → s'.Tidy ∧
      ∃ next names new, s' = { s with nextId := next, names, functions := new ++ s.functions } ∧
        new.map Prod.fst = (fs.map Typed.Function.signature).reverse
  | [], s, s', a, tidy, ran => by
    cases ran
    exact ⟨tidy,_,_,[],rfl,rfl⟩
  | f :: fs, s, s', a, tidy, ran => by
    obtain ⟨_,t,ranFirst,ranRest⟩ := run_bind_eq_ok.mp ran
    obtain ⟨id,s₁,ranFresh,ranFirst⟩ := run_bind_eq_ok.mp ranFirst
    obtain ⟨_,s₂,ranFunctions,ranName⟩ := run_bind_eq_ok.mp ranFirst
    cases ranFresh
    cases ranFunctions
    have grows : s.nameable ⊆ nameable { s with functions := (f.signature, s.nextId) :: s.functions } :=
      nameable_subset (subset_cons_self _ _) (Subset.refl _) (Subset.refl _)
    have tidy₂ : Tidy
        { s with nextId := s.nextId + 1, functions := (f.signature, s.nextId) :: s.functions } :=
      { tidy with names := fun i m => ⟨(tidy.names i m).1,grows (tidy.names i m).2⟩ }
    have named := addName_declared tidy₂ (by simp [nameable]) ranName
    cases ranName.symm.trans addName_run
    obtain ⟨tidy',next,names,new,rfl,keys⟩ := nameFunctions_run named.tidy ranRest
    exact ⟨tidy',next,names,new ++ [(f.signature, s.nextId)],by simp,by simp [keys]⟩

/-- Work on functions has written them one after the other. -/
structure EmitsRoutines (s : State) (rs : List Routine) (s' : State) : Prop where
  code : s'.code.toList = s.code.toList ++ rs.flatMap Routine.code
  functions : s'.functions = s.functions
  known : s.known ⊆ s'.known
  tidy : s'.Tidy
  shaped : ∀ r ∈ rs, r.Shaped
  heads : ∀ r ∈ rs, ∀ i ∈ r.head :: r.params, i.references ⊆ s'.known
  inside : ∀ r ∈ rs, r.body.Scoped (Pass.results r.params ++ s'.known)

/-- How functions are written one after the other. -/
inductive RunsRoutines (p : Program) : List Typed.Function → State → List Routine → State → Prop where
  | nil {s : State} : RunsRoutines p [] s [] s
  | cons {f : Typed.Function} {fs : List Typed.Function} {body : List Stmt} {s t u : State} {r : Routine}
      {rs : List Routine} : f.body = some body → (lowerFunction p f).run s = .ok ((), t) →
      RunsRoutine p f body s r t → RunsRoutines p fs t rs u → RunsRoutines p (f :: fs) s (r :: rs) u

theorem lowerFunctions_emit {p : Program} (scoping : p.Scoped) :
    ∀ {fs : List Typed.Function} {s s' : State} {a : Unit},
      (∀ f ∈ fs, f ∈ p.functions ∧ f.body.isSome = true) → s.Tidy →
        (fs.forM (lowerFunction p)).run s = .ok (a, s') →
          ∃ rs, EmitsRoutines s rs s' ∧ RunsRoutines p fs s rs s' ∧
            ∀ f ∈ fs, ∃ r ∈ rs, s.functions.lookup f.signature = r.head.result?
  | [], s, s', a, _, tidy, ran => by
    cases ran
    exact ⟨[],⟨by simp,rfl,Subset.refl _,tidy,by simp,by simp,by simp⟩,.nil,by simp⟩
  | f :: fs, s, s', a, members, tidy, ran => by
    rw [forall_mem_cons] at members
    obtain ⟨_,t,ranFirst,ranRest⟩ := run_bind_eq_ok.mp ran
    obtain ⟨body,hasBody⟩ := Option.isSome_iff_exists.mp members.1.2
    obtain ⟨r,emitted,runs⟩ := lowerFunction_emits scoping members.1.1 hasBody tidy ranFirst
    obtain ⟨rs,others,runs',founds⟩ := lowerFunctions_emit scoping members.2 emitted.tidy ranRest
    rw [emitted.functions] at founds
    refine ⟨r :: rs,⟨?_,others.functions.trans emitted.functions,
      Subset.trans emitted.known others.known,others.tidy,forall_mem_cons.mpr ⟨emitted.shaped,others.shaped⟩,
      forall_mem_cons.mpr ⟨fun i m => Subset.trans (emitted.heads i m) others.known,others.heads⟩,
      forall_mem_cons.mpr ⟨emitted.inside.mono (known_mono others.known),others.inside⟩⟩,
      .cons hasBody ranFirst runs runs',
      forall_mem_cons.mpr ⟨⟨r,mem_cons_self,runs.found⟩,fun g m => ?_⟩⟩
    · rw [others.code,emitted.code,flatMap_cons,List.append_assoc]
    · obtain ⟨r',mem,found⟩ := founds g m
      exact ⟨r',.tail _ mem,found⟩

theorem initial_tidy : Tidy {} := by
  constructor <;> simp

/-- What stands before all functions in the module of a state, after some lines about it. -/
def State.outside (s : State) (about : List Instruction) : List Instruction :=
  about ++ s.names.toList ++ s.decorations.toList ++ s.decls.toList

theorem results_eq_nil (none : ∀ i ∈ code, i.result? = none) : Pass.results code = [] := by
  simpa [Pass.results] using none

theorem State.Tidy.results_outside (tidy : s.Tidy) (none : ∀ i ∈ about, i.result? = none) :
    Pass.results (s.outside about) = s.known := by
  have names : Pass.results s.names.toList = [] := results_eq_nil fun i mem => by
    simp [result?,resultPosition?,(tidy.names i mem).1,hasResultType,isType]
  have decorations : Pass.results s.decorations.toList = [] := results_eq_nil fun i mem => by
    simp [result?,resultPosition?,(tidy.decorations i mem).1,hasResultType,isType]
  have first := results_eq_nil none
  unfold Pass.results at *
  simp [State.outside,known,Pass.results,filterMap_append,first,names,decorations]

theorem State.Tidy.isOutside (tidy : s.Tidy) (shaped : ∀ i ∈ about, i.op.isOutside = true) :
    ∀ i ∈ s.outside about, i.op.isOutside = true := by
  simp only [State.outside,forall_mem_append]
  refine ⟨⟨⟨shaped,fun i m => ?_⟩,fun i m => ?_⟩,fun i m => ?_⟩
  · simp [(tidy.names i m).1,Opcode.isOutside,isNote]
  · simp [(tidy.decorations i m).1,Opcode.isOutside,isNote]
  · rcases tidy.decls i m with declares | var
    · simp [Opcode.isOutside,declares]
    · simp [Opcode.isOutside,var]

theorem lookup_of_mem {κ β : Type} [BEq κ] [LawfulBEq κ] {k : κ} {b : β} {l : List (κ × β)}
    (once : (l.map Prod.fst).Nodup) (mem : (k, b) ∈ l) : l.lookup k = some b := by
  obtain ⟨before,after,rfl⟩ := append_of_mem mem
  rw [map_append,nodup_append] at once
  refine lookup_eq_some_iff.mpr ⟨before,after,rfl,fun e earlier => ?_⟩
  simpa using (once.2.2 e.1 (mem_map_of_mem earlier) k (by simp)).symm

theorem State.Tidy.mem_outside (tidy : s.Tidy)
    (silent : ∀ i ∈ about, i.op ≠ .decorate ∧ i.op ≠ .debugName) (mem : i ∈ s.outside about) :
    (i.op ≠ .decorate ∧ i.op ≠ .debugName) ∨ i ∈ s.names.toList ∨ i ∈ s.decorations.toList := by
  grind [State.outside,Tidy.decls,isDeclaration,isType]

/-- What the functions of a program leave, in its structure. -/
theorem EmitsRoutines.outline {rs : List Routine} (emitted : EmitsRoutines s rs s')
    (none : ∀ i ∈ about, i.result? = none) (shaped : ∀ i ∈ about, i.op.isOutside = true)
    (silent : ∀ i ∈ about, i.op ≠ .decorate ∧ i.op ≠ .debugName)
    (defined : ∀ e ∈ s.functions, ∃ r ∈ rs, r.head.result? = some e.2)
    (start : s.code.toList = []) :
    (⟨s'.outside about, rs⟩ : Outline).Shaped ∧ (⟨s'.outside about, rs⟩ : Outline).Scoped := by
  have outside := emitted.tidy.results_outside none
  refine ⟨⟨emitted.tidy.isOutside shaped,emitted.shaped⟩,⟨?_,?_,?_,?_⟩⟩
  · rw [outside]
    exact emitted.heads
  · rw [outside]
    exact emitted.inside
  · intro i mem op
    rw [outside]
    rcases emitted.tidy.mem_outside silent mem with other | named | decorated
    · exact absurd op other.1
    · rw [(emitted.tidy.names i named).1] at op
      cases op
    · exact (emitted.tidy.decorations i decorated).2
  · intro i mem op
    rcases emitted.tidy.mem_outside silent mem with other | named | decorated
    · exact absurd op other.2
    · have nameable := (emitted.tidy.names i named).2
      rcases mem_append.mp nameable with function | variable_
      · rw [emitted.functions] at function
        obtain ⟨e,mem,same⟩ := mem_map.mp function
        grind [Outline.mem_code,Routine.code,isNamed,EmitsRoutines.shaped,Routine.Shaped.head]
      · obtain ⟨d,here,result⟩ := mem_filterMap.mp variable_
        obtain ⟨here,op⟩ := mem_filter.mp here
        refine ⟨d,?_,result,?_⟩
        · rw [emitted.code,start,nil_append,mem_append] at here
          simp only [Outline.code,State.outside,mem_append]
          exact here.imp_left .inr
        · simp only [Bool.or_eq_true,beq_iff_eq] at op
          rcases op with op | op <;> simp [op,isNamed]
    · rw [(emitted.tidy.decorations i decorated).1] at op
      cases op

theorem aboutProgram_ops (p : Program) (entry : Id) :
    ∀ i ∈ aboutProgram p entry, i.op = .source ∨ i.op = .entryPoint ∨ i.op = .localSize := by
  cases size : p.localSize <;> simp [aboutProgram,size]

theorem aboutProgram_result? (p : Program) (entry : Id) :
    ∀ i ∈ aboutProgram p entry, i.result? = none := by
  intro i mem
  rcases aboutProgram_ops p entry i mem with op | op | op <;>
    simp [result?,resultPosition?,op,hasResultType,isType]

/-- The code of a program, before its module is put together. -/
def lowerCode (p : Program) : Lower (List Instruction) := do
  match p.entry? with
  | none => throw .noEntry
  | some entry =>
    let order := Linked.calleesFirst p
    order.forM nameFunction
    p.globals.forM lowerGlobal
    order.forM (lowerFunction p)
    let id ← functionId entry.signature
    let s ← get
    return s.outside (aboutProgram p id) ++ s.code.toList

theorem lowerProgram_eq (p : Program) : lowerProgram p = (do
    let code ← lowerCode p
    let s ← get
    match Module.assemble (.new p.stage s.nextId) code with
    | .ok m => return m
    | .error f => throw (.encoding f)) := by
  cases found : p.entry? with
  | none =>
    simp only [lowerProgram,lowerCode,found]
    rfl
  | some entry =>
    simp only [lowerProgram,lowerCode,found,bind_assoc]
    rfl

theorem lowerCode_eq_ok (ran : (lowerCode p).run {} = .ok (code, s)) :
    ∃ s₁ s₂ entry id, p.entry? = some entry ∧
      ((Linked.calleesFirst p).forM nameFunction).run {} = .ok ((), s₁) ∧
      (p.globals.forM lowerGlobal).run s₁ = .ok ((), s₂) ∧
      ((Linked.calleesFirst p).forM (lowerFunction p)).run s₂ = .ok ((), s) ∧
      s.functions.lookup entry.signature = some id ∧ code = s.outside (aboutProgram p id) ++ s.code.toList := by
  unfold lowerCode at ran
  split at ran
  · cases ran
  rename_i entry isEntry
  obtain ⟨_,s₁,ranNames,ran⟩ := run_bind_eq_ok.mp ran
  obtain ⟨_,s₂,ranGlobals,ran⟩ := run_bind_eq_ok.mp ran
  obtain ⟨_,s₃,ranFunctions,ran⟩ := run_bind_eq_ok.mp ran
  obtain ⟨id,s₄,ranEntry,given⟩ := run_bind_eq_ok.mp ran
  obtain ⟨rfl,handed⟩ := functionId_eq_ok ranEntry
  cases given
  exact ⟨s₁,s₂,entry,id,isEntry,ranNames,ranGlobals,ranFunctions,handed,rfl⟩

/-- What is written around routines makes an outline of them. -/
abbrev State.outline (s : State) (p : Program) (id : Id) (rs : List Routine) : Outline :=
  ⟨s.outside (aboutProgram p id), rs⟩

theorem lowerCode_outline (scoping : p.Scoped) (ran : (lowerCode p).run {} = .ok (code, s)) :
    ∃ (id : Id) (rs : List Routine), s.code.toList = rs.flatMap Routine.code ∧
      code = (s.outline p id rs).code ∧
      (∃ entry, p.entry? = some entry ∧ s.functions.lookup entry.signature = some id) ∧
      (∀ e ∈ s.functions, ∃ r ∈ rs, r.head.result? = some e.2) ∧
      (s.outline p id rs).Shaped ∧ (s.outline p id rs).Scoped := by
  obtain ⟨s₁,s₂,entry,id,isEntry,ranNames,ranGlobals,ranFunctions,handed,rfl⟩ := lowerCode_eq_ok ran
  obtain ⟨tidy₁,next,names,new,rfl,keys⟩ := nameFunctions_run initial_tidy ranNames
  have globals := forM_declares lowerGlobal_declares p.globals _ _ s₂ tidy₁ ranGlobals
  obtain ⟨rs,emitted,-,founds⟩ := lowerFunctions_emit scoping Linked.mem_calleesFirst globals.tidy
    ranFunctions
  rw [globals.functions] at founds
  have start : s₂.code.toList = [] := by rw [globals.code]
  have defined : ∀ e ∈ s₂.functions, ∃ r ∈ rs, r.head.result? = some e.2 := by
    rintro ⟨signature,id⟩ mem
    have once : (new.map Prod.fst).Nodup := by
      rw [keys]
      exact pairwise_reverse.mpr (Linked.nodup_calleesFirst.imp Ne.symm)
    rw [globals.functions,append_nil] at mem
    have found := lookup_of_mem once mem
    obtain ⟨f,listed,rfl⟩ : ∃ f ∈ Linked.calleesFirst p, f.signature = signature := by
      have key := mem_map_of_mem (f := Prod.fst) mem
      rw [keys,mem_reverse] at key
      simpa using key
    obtain ⟨r,routine,result⟩ := founds f listed
    rw [append_nil,found] at result
    exact ⟨r,routine,result.symm⟩
  have inside : s.code.toList = rs.flatMap Routine.code := by
    rw [emitted.code,start,nil_append]
  have ops := aboutProgram_ops p id
  have outline := emitted.outline (aboutProgram_result? p id)
    (fun i m => by rcases ops i m with op | op | op <;> rw [op] <;> rfl)
    (fun i m => by rcases ops i m with op | op | op <;> simp [op]) defined start
  refine ⟨id,rs,inside,?_,⟨entry,isEntry,handed⟩,emitted.functions ▸ defined,outline⟩
  rw [inside]
  rfl

theorem lower_ran (lowered : (lower p).Gives m) : ∃ code s, (lowerCode p).run {} = .ok (code, s) ∧
      Module.assemble (.new p.stage s.nextId) code = .ok m ∧ m.findings = [] := by
  unfold lower at lowered
  split at lowered
  · exact absurd lowered Reporting.not_gives_throw
  rename_i m' ran
  split at lowered
  · exact absurd lowered Reporting.not_gives_throw
  rename_i clean
  obtain ⟨_,-,lowered⟩ := lowered.of_bind
  obtain rfl := Reporting.gives_pure.mp lowered
  rw [StateT.run'_eq] at ran
  obtain ⟨⟨m',s⟩,ranProgram,rfl⟩ := Except.map_eq_ok.mp ran
  rw [lowerProgram_eq] at ranProgram
  obtain ⟨code,s₁,ranCode,ranProgram⟩ := run_bind_eq_ok.mp ranProgram
  obtain ⟨_,s₂,got,ranAssemble⟩ := run_bind_eq_ok.mp ranProgram
  cases got
  refine ⟨code,s₁,ranCode,?_,head?_eq_none_iff.mp clean⟩
  split at ranAssemble
  · rename_i assembled
    cases ranAssemble
    exact assembled
  · cases ranAssemble

theorem lower_outline (scoping : p.Scoped) (lowered : (lower p).Gives m) :
    ∃ (t : Outline) (h : Header), decode m = .ok (h, t.code) ∧ h.Current ∧ t.Shaped ∧ t.Scoped ∧
      t.Valid ∧ (∀ id ∈ Pass.results t.code, id < h.bound) ∧ ∀ i ∈ t.code, i.Short ∧ i.Full := by
  obtain ⟨code,s,ranCode,assembled,clean⟩ := lower_ran lowered
  obtain ⟨id,rs,-,rfl,-,-,shaped,inside⟩ := lowerCode_outline scoping ranCode
  have current : (Header.new p.stage s.nextId).Current := rfl
  grind [Module.findings_eq_nil_iff,decode_assemble,Outline.findings_eq_nil_iff,Module.assemble_eq_ok]

end Shading.Lowering
