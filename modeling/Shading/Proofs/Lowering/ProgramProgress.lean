import Shading.Proofs.Lowering.ProgramCode
import Shading.Proofs.Lowering.StmtProgress

/-! The code of a program can be written, if its initial values call only what is written before the entry
point. -/
namespace Shading.Lowering
open List Bytecode Typed Instruction Opcode

/-- What initial values call comes before the entry point, where the values are stored. -/
def CallsEarly (p : Program) : Prop :=
  p.initCalls ⊆ ((Linked.calleesFirst p).takeWhile fun f => !f.isEntry).map Function.signature

def WritesDirectly (p : Program) : Prop :=
  ∀ x ∈ p.parts, ∀ t ∈ x.written p.functionTy?, t.direct = true

instance (p : Program) : Decidable (WritesDirectly p) :=
  inferInstanceAs (Decidable (∀ x ∈ p.parts, ∀ t ∈ x.written p.functionTy?, t.direct = true))

/-- What is checked of a program before it is lowered, and two rules that are not checked. -/
structure Lowerable (p : Program) : Prop where
  bodies : ∀ f ∈ p.functions, ∀ body ∈ f.body, ∀ s ∈ body, s.WellTyped (p.env f) f.returnTy false
  inits : ∀ x ∈ p.initParts, x.WellTyped p.initEnv
  scoping : p.Scoped
  entry : p.entry?.isSome = true
  order : Linked.CalleesBefore [] (Linked.calleesFirst p)
  early : CallsEarly p
  direct : WritesDirectly p

/-- The state has ids for all globals, and for functions that were written. -/
structure State.Holds (p : Program) (callable : List String) (s : State) : Prop where
  globals : ∀ g ∈ p.globals, ∃ e, s.globals.lookup g.name = some e
  functions : ∀ f ∈ callable, ∃ id, s.functions.lookup f = some id ∧
    Defines s.written (· == .function) id

section Functions

variable {p : Program} {w : List Id} {d : Nat} {s t : State} {callable : List String} {f : Function}
  {body : List Stmt}

theorem State.Holds.mono (holds : s.Holds p callable) (more : s.Extends t) : t.Holds p callable where
  globals g mem := more.globals ▸ holds.globals g mem
  functions f called := by
    obtain ⟨id,found,written⟩ := holds.functions f called
    exact ⟨id,more.functions ▸ found,written.mono more.written⟩

theorem State.Holds.serves (holds : s.Holds p callable) {params : List Param} {locals : List Local}
    (given : params.length ≤ s.frame.params.length) (declared : locals <+: s.frame.declared) :
    s.ServesBody (.of p.globals p.functionTy? params locals) [] callable where
  globals {name r} found := by
    obtain ⟨g,found,-⟩ := Option.map_eq_some_iff.mp found
    grind [State.Holds.globals]
  params {i r} found := by
    obtain ⟨q,found,-⟩ := Option.map_eq_some_iff.mp found
    have inside := (List.getElem?_eq_some_iff.mp found).1
    exact ⟨_,getElem?_eq_getElem (Nat.lt_of_lt_of_le inside given)⟩
  locals := by simp
  functions := holds.functions
  declared {i r} found := by
    obtain ⟨l,found,-⟩ := Option.map_eq_some_iff.mp found
    grind

theorem lowerInits_does (low : Lowerable p) (early : p.initCalls ⊆ callable) {gs : List Global}
    (inside : gs ⊆ p.globals) (serves : s.Serves p.initEnv [] callable) :
    Does w d s (lowerInits p gs) d fun _ _ => True := by
  induction gs generalizing s with
  | nil =>
    rw [lowerInits]
    exact .of_pure trivial
  | cons g gs ih =>
    obtain ⟨mem,inside⟩ := cons_subset.mp inside
    rw [lowerInits]
    split
    · split
      · rename_i e init
        have part : e.parts ⊆ p.initParts := fun x part =>
          mem_flatMap.mpr ⟨g,mem,Stmt.mem_optionParts.mpr ⟨e,init,part⟩⟩
        have ready : e.Ready p.initEnv [] callable := by
          refine ⟨low.inits e (part e.mem_parts),by simp [low.scoping.inits g mem e init],fun x inside =>
            ⟨?_,low.direct x (mem_append_right _ (part inside))⟩⟩
          rintro f args t rfl
          exact early (mem_flatMap.mpr ⟨g,mem,Stmt.mem_optionCalls.mpr
            ⟨args,t,Stmt.mem_optionParts.mpr ⟨e,init,inside⟩⟩⟩)
        obtain ⟨ty,typed⟩ : ∃ ty, (Expr.var (.global g.name) ty).WellTyped p.initEnv := by
          have isSome : (p.globals.find? fun h => h.name == g.name).isSome := by
            rw [find?_isSome]
            exact ⟨g,mem,by simp⟩
          obtain ⟨h,found⟩ := Option.isSome_iff_exists.mp isSome
          exact ⟨h.ty,.var (Option.map_eq_some_iff.mpr ⟨h,found,rfl⟩)⟩
        refine (variableId_does serves typed (by simp)).bind fun r s₁ grows₁ pointer => ?_
        refine (lowerExpr_does rfl e ready (serves.grows grows₁)).bind fun v s₂ grows₂ _ => ?_
        refine (storeTo_does (pointer.grows grows₂)).bind fun _ s₃ grows₃ _ => ?_
        exact ih inside (((serves.grows grows₁).grows grows₂).grows grows₃)
      · exact ih inside serves
    · exact ih inside serves

theorem lowerBody_does (low : Lowerable p) (mem : f ∈ p.functions) (hasBody : f.body = some body)
    (calls : f.callees ⊆ callable) (early : f.isEntry = true → p.initCalls ⊆ callable)
    (holds : s.Holds p callable) (given : f.params.length ≤ s.frame.params.length)
    (declared : f.locals <+: s.frame.declared) :
    Does w 0 s (lowerBody p f body) 0 fun _ _ => True := by
  obtain ⟨visible,next,valid⟩ := low.scoping.bodies f mem body hasBody
  have allowed (x : Expr) (part : x ∈ Stmt.partsIn body) : x.Allowed (p.env f) callable := by
    have part : x ∈ f.parts := by
      rw [Function.parts,hasBody]
      exact part
    refine ⟨?_,low.direct x (mem_append_left _ (mem_flatMap.mpr ⟨f,mem,part⟩))⟩
    rintro g args t rfl
    exact calls (Function.mem_callees.mpr ⟨args,t,part⟩)
  have main {s : State} (serves : s.ServesBody (p.env f) [] callable) : Does w 0 s (do
      lowerStmts p body
      let ended := (← get).code.back?.any fun i => i.op.isTerminator
      if !ended && f.returnTy.isVoid then emit .ret []) 0 fun _ _ => True := by
    refine (lowerStmts_does rfl valid (low.bodies f mem body hasBody) allowed (by simp) serves).bind fun _ t _ _ => .of_get ?_
    dsimp only
    split
    · exact steer_does _ [] (by decide) (Nat.le_refl 0) rfl
    · exact .of_pure trivial
  unfold lowerBody
  split
  · rename_i entry
    have initial : s.ServesBody p.initEnv [] callable :=
      holds.serves (Nat.zero_le _) nil_prefix
    refine (lowerInits_does low (early entry) (Subset.refl _) initial.toServes).bind
      fun _ t grows _ => main ?_
    exact (holds.serves given declared).grows grows
  · exact main (holds.serves given declared)

theorem lowerParams_does (qs : List Param) {ptrs : List Id}
    (pointers : ∀ ptr ∈ ptrs, Defines s.written (· == .typePointer) ptr) (same : ptrs.length = qs.length) :
    Does w d s (lowerParams qs ptrs) d fun ids s' =>
      ids.length = qs.length ∧ ∀ id ∈ ids, s'.IsPointer id := by
  induction qs generalizing ptrs s with
  | nil =>
    rw [lowerParams]
    · exact .of_pure ⟨rfl,by simp⟩
    · simp
  | cons q qs ih =>
    cases ptrs with
    | nil => simp at same
    | cons ptr ptrs =>
      rw [forall_mem_cons] at pointers
      rw [lowerParams]
      refine define_bind (o := fun id => [ptr,id,.ofNat (paramMode q).code]) (fun _ => rfl)
        (fun id => ?_) (fun _ => rfl) fun id s₁ grows₁ defined => ?_
      · refine ⟨by simp [Full,minOperands],?_,trivial⟩
        rintro _ ⟨⟩
        exact ⟨pointers.1.imp (by simp [isType]),fun _ => pointers.1⟩
      refine (addName_does id q.name).bind fun _ s₂ grows₂ _ => ?_
      refine (ih (fun r m => (pointers.2 r m).mono (grows₁.trans grows₂).written)
        (by simpa using same)).bind fun ids s₃ grows₃ written => .of_pure ⟨by simp [written.1],?_⟩
      obtain ⟨-,others⟩ := written
      refine forall_mem_cons.mpr ⟨?_,others⟩
      have pointer : s₁.IsPointer id :=
        (defined.mono (subset_append_right _ _)).imp (by simp [isPointer])
      exact (pointer.grows grows₂).grows grows₃

theorem headTys_does (f : Function) : Does w d s (headTys f) d fun r s' => s'.IsType r.1 ∧
    r.2.1.length = f.params.length ∧ ∀ ptr ∈ r.2.1, Defines s'.decls.toList (· == .typePointer) ptr :=
  .of_finds (headTys_finds f) fun coherent found => by
    refine ⟨coherent.types _ found.returns,found.params.length_eq.symm,fun ptr mem => ?_⟩
    obtain ⟨q,-,pointer⟩ := exists_of_forall₂ found.params.flip mem
    exact coherent.pointer pointer

theorem lowerFunction_does (low : Lowerable p) (mem : f ∈ p.functions) (hasBody : f.body = some body)
    (calls : f.callees ⊆ callable) (early : f.isEntry = true → p.initCalls ⊆ callable) {id : Id}
    (found : s.functions.lookup f.signature = some id) (holds : s.Holds p callable)
    (coherent : s.Coherent (id :: w) 0) :
    ∃ s', (lowerFunction p f).run s = .ok ((), s') ∧ s'.Coherent w 0 ∧ s.Extends s' ∧
      Defines s'.written (· == .function) id := by
  obtain ⟨⟨returnTy,ptrs,ty⟩,s₃,ranHead,coherent₃,grows₃,type,length,pointers⟩ := headTys_does f coherent
  generalize here : (⟨.function,[returnTy,id,ty]⟩ : Instruction) = head
  have defines : head.result? = some id := by
    rw [← here]
    rfl
  have coherent₄ : (s₃.wrote head).Coherent w 0 := by
    refine coherent₃.write ⟨?_,?_,?_⟩ ?_ (coherent₃.numbered.perm ?_)
    · simp [← here,Full,minOperands]
    · rw [← here]
      rintro _ ⟨⟩
      exact ⟨type.written,by simp [isPointer]⟩
    · rw [← here]
      trivial
    · rw [← here]
      rfl
    · rw [defines,← List.append_assoc]
      exact perm_append_singleton _ _
  have grows₄ : s₃.Grows (s₃.wrote head) := State.grows_write s₃.nextId head
  have written : Defines (s₃.wrote head).written (· == .function) id :=
    ⟨head,by simp [State.written],defines,by simp [← here]⟩
  obtain ⟨params,s₅,ranParams,coherent₅,grows₅,length',reached⟩ :=
    lowerParams_does f.params (fun ptr listed => ((pointers ptr listed).mono
      grows₄.decls.subset).mono (subset_append_left _ _)) length coherent₄
  generalize entered : ({ s₅ with frame := { declared := f.locals, params } } : State) = s₆
  have coherent₆ : s₆.Coherent w 0 := by
    rw [← entered]
    exact { coherent₅ with params := reached, locals := by simp }
  have extends₆ : (s₃.wrote head).Extends s₆ := by
    rw [← entered]
    exact { grows₅.toExtends with }
  have extended : s.Extends s₆ := grows₃.toExtends.trans (grows₄.toExtends.trans extends₆)
  obtain ⟨_,s₇,ranBody,coherent₇,grows₇,-⟩ := lowerBody_does low mem hasBody calls early
    (holds.mono extended) (by simp [← entered,length']) (by simp [← entered]) coherent₆
  have takes : (⟨.functionEnd,[]⟩ : Instruction).Takes s₇.written true :=
    ⟨by simp [Full,minOperands],by simp [resultType?,hasResultType],trivial⟩
  have coherent₈ : (s₇.wrote ⟨.functionEnd,[]⟩).Coherent w 0 :=
    coherent₇.write takes rfl (by
      have silent : (⟨.functionEnd,[]⟩ : Instruction).result? = none := rfl
      simpa [silent] using coherent₇.numbered)
  have grows₈ := s₇.grows_write s₇.nextId ⟨.functionEnd,[]⟩
  refine ⟨{ s₇.wrote ⟨.functionEnd,[]⟩ with frame := {} },?_,
    { coherent₈ with params := by simp, locals := by simp },
    { extended.trans (grows₇.toExtends.trans grows₈.toExtends) with },?_⟩
  · subst here entered
    exact (lowerFunction_eq_ok hasBody).mpr ⟨id,returnTy,ptrs,ty,params,s₃,s₅,s₇,found,ranHead,ranParams,
      ranBody,rfl⟩
  · exact written.mono ((extends₆.trans grows₇.toExtends).trans grows₈.toExtends).written

theorem lowerFunctions_does (low : Lowerable p) {fs : List Function} {ids : List Id} {done : List String}
    (members : ∀ f ∈ fs, f ∈ p.functions ∧ f.body.isSome = true) (order : Linked.CalleesBefore done fs)
    (early : p.initCalls ⊆ done ++ (fs.takeWhile fun f => !f.isEntry).map Function.signature)
    (handed : Forall₂ (fun f id => s.functions.lookup f.signature = some id) fs ids)
    (holds : s.Holds p done) (coherent : s.Coherent ids 0) :
    ∃ s', (fs.forM (lowerFunction p)).run s = .ok ((), s') ∧ s'.Coherent [] 0 ∧ s.Extends s' ∧
      s'.Holds p ((fs.map Function.signature).reverse ++ done) := by
  induction fs generalizing s ids done with
  | nil =>
    cases handed
    exact ⟨s,rfl,coherent,.refl s,holds⟩
  | cons f fs ih =>
    cases handed with
    | @cons _ id _ ids found handed =>
    rw [forall_mem_cons] at members
    obtain ⟨⟨mem,isSome⟩,members⟩ := members
    obtain ⟨body,hasBody⟩ := Option.isSome_iff_exists.mp isSome
    obtain ⟨calls,order⟩ := order
    have now : f.isEntry = true → p.initCalls ⊆ done := fun entry => by
      simpa [takeWhile_cons,entry] using early
    obtain ⟨t,ran,coherent₁,more,written⟩ :=
      lowerFunction_does low mem hasBody calls now found holds coherent
    have holds₁ : t.Holds p (f.signature :: done) := by
      refine { holds.mono more with functions := forall_mem_cons.mpr ⟨⟨id,?_,written⟩,?_⟩ }
      · rw [more.functions,found]
      · exact (holds.mono more).functions
    have early₁ : p.initCalls ⊆ f.signature :: done ++
        (fs.takeWhile fun f => !f.isEntry).map Function.signature := by
      refine Subset.trans early ?_
      rw [takeWhile_cons]
      split
      · exact (perm_middle.subset)
      · exact append_subset.mpr ⟨fun c m => by simp [m],by simp⟩
    have handed₁ : Forall₂ (fun f id => t.functions.lookup f.signature = some id) fs ids := by
      rw [more.functions]
      exact handed
    obtain ⟨u,ran',coherent₂,more',holds₂⟩ := ih members order early₁ handed₁ holds₁ coherent₁
    refine ⟨u,?_,coherent₂,more.trans more',?_⟩
    · exact (Lower.run_bind_of_ok ran).trans ran'
    · rw [map_cons,reverse_cons,List.append_assoc]
      exact holds₂

theorem nameFunctions_does (fs : List Function) (coherent : s.Coherent w d) :
    ∃ ids s', (fs.forM nameFunction).run s = .ok ((), s') ∧ s'.Coherent (ids ++ w) d ∧
      ids.length = fs.length ∧
        s'.functions = ((fs.map Function.signature).zip ids).reverse ++ s.functions := by
  induction fs generalizing s w with
  | nil => exact ⟨[],s,rfl,coherent,rfl,rfl⟩
  | cons f fs ih =>
    have coherent₁ : ({ s with
        nextId := s.nextId + 1, functions := (f.signature, s.nextId) :: s.functions } :
        State).Coherent (s.nextId :: w) d :=
      { coherent with numbered := coherent.numbered.fresh (List.Perm.refl _) }
    obtain ⟨_,t,ranName,coherent₂,grows,-⟩ := addName_does s.nextId f.name coherent₁
    obtain ⟨ids,u,ran,coherent₃,length,functions⟩ := ih coherent₂
    refine ⟨s.nextId :: ids,u,?_,coherent₃.perm perm_middle.symm,by simp [length],?_⟩
    · have first : (nameFunction f).run s = .ok ((), t) := ranName
      exact (Lower.run_bind_of_ok first).trans ran
    · rw [functions,grows.functions]
      simp

theorem State.Coherent.place (coherent : s.Coherent w d) {g : Global} {ptr : Id}
    (pointer : Defines s.decls.toList (· == .typePointer) ptr) :
    (s.place ⟨g, ptr, s.nextId⟩).Coherent w d := by
  have known : Defines s.written (· == .typePointer) ptr := pointer.mono (subset_append_left _ _)
  have listed : ptr ∈ s.known := pointer.mem_results
  have declared := coherent.declare (i := Placed.line ⟨g,ptr,s.nextId⟩) ⟨by simp [Full,Placed.line,
    minOperands],?_,storageClass g.storage,?_,?_⟩ ?_ rfl
  · have defined : Defines (s.place ⟨g,ptr,s.nextId⟩).decls.toList (· == .var) s.nextId :=
      defines_push rfl rfl
    refine { declared with
      globals := forall_mem_cons.mpr ⟨defined,declared.globals⟩
      names := ?_
      decorations := ?_ }
    · rw [State.place,Array.toList_append]
      refine forall_mem_append.mpr ⟨declared.names,fun i mem => ?_⟩
      obtain rfl := Placed.eq_of_mem_nameLines mem
      exact named_full _ _
    · rw [State.place,Array.toList_append]
      refine forall_mem_append.mpr ⟨declared.decorations,fun i mem => ?_⟩
      obtain ⟨c,n,rfl⟩ := Placed.eq_of_mem_decorationLines mem
      exact ⟨rfl,by simp [Full,minOperands],defined,by cases c <;> rfl⟩
  · rintro _ ⟨⟩
    exact ⟨known.imp (by simp [isType]),fun _ => known⟩
  · exact ofCode?_storageClass g
  · cases g.storage <;> simp [storageClass]
  · simpa [references,refersAt,zipIdx_cons,Placed.line] using listed

theorem lowerGlobals_does (gs : List Global) (coherent : s.Coherent w d) :
    ∃ s', (gs.forM lowerGlobal).run s = .ok ((), s') ∧ s'.Coherent w d ∧ s'.functions = s.functions ∧
      ∀ name, (s.globals.lookup name).isSome = true ∨ name ∈ gs.map Global.name →
        ∃ e, s'.globals.lookup name = some e := by
  induction gs generalizing s with
  | nil =>
    refine ⟨s,rfl,coherent,rfl,fun name listed => ?_⟩
    exact Option.isSome_iff_exists.mp (listed.resolve_right (by simp))
  | cons g gs ih =>
    obtain ⟨ptr,t,steps,pointer,ran⟩ := lowerGlobal_run g s
    have same := steps.tabulated
    have coherent₁ := steps.keeps State.Coherent.enters coherent
    obtain ⟨s',ran',coherent',functions,found⟩ := ih (coherent₁.place (g := g) (coherent₁.pointer pointer))
    refine ⟨s',(Lower.run_bind_of_ok ran).trans ran',coherent',functions.trans same.functions,
      fun name listed => found name ?_⟩
    change (List.lookup name ((g.name, _, _) :: t.globals)).isSome = true ∨ _
    rw [same.globals,lookup_cons]
    cases same : name == g.name with
    | true => exact .inl rfl
    | false =>
      refine listed.imp_right fun named => ?_
      rw [map_cons,mem_cons] at named
      exact named.resolve_left (beq_eq_false_iff_ne.mp same)

end Functions

theorem initial_coherent : State.Coherent [] 0 {} where
  types := by simp
  pointers := by simp
  globals := by simp
  params := by simp
  locals := by simp
  stated := by simp
  ordered := trivial
  outside := by simp
  inside := by simp
  called := trivial
  looped := rfl
  names := by simp
  decorations := by simp
  numbered := ⟨0,rfl,List.Perm.refl _⟩

theorem lowerCode_does {p : Program} (low : Lowerable p) :
    ∃ code s, (lowerCode p).run {} = .ok (code, s) ∧ s.Coherent [] 0 ∧
      ∀ entry ∈ p.entry?, ∀ id ∈ s.functions.lookup entry.signature,
        Defines s.written (· == .function) id := by
  obtain ⟨entry,isEntry⟩ := Option.isSome_iff_exists.mp low.entry
  obtain ⟨ids,s₁,ranNames,coherent₁,length,functions₁⟩ :=
    nameFunctions_does (Linked.calleesFirst p) initial_coherent
  rw [append_nil] at coherent₁
  obtain ⟨s₂,ranGlobals,coherent₂,functions₂,found⟩ := lowerGlobals_does p.globals coherent₁
  have handed : Forall₂ (fun f id => s₂.functions.lookup f.signature = some id)
      (Linked.calleesFirst p) ids := by
    refine forall₂_iff_zip.mpr ⟨length.symm,fun {f id} paired => ?_⟩
    rw [functions₂,functions₁]
    refine lookup_of_mem ?_ ?_
    · have keys : (((Linked.calleesFirst p).map Function.signature).zip ids).map Prod.fst =
          (Linked.calleesFirst p).map Function.signature :=
        map_fst_zip (by simp [length])
      rw [append_nil,map_reverse,keys]
      exact pairwise_reverse.mpr (Linked.nodup_calleesFirst.imp Ne.symm)
    · rw [append_nil,mem_reverse,zip_map_left]
      exact mem_map.mpr ⟨(f, id),paired,rfl⟩
  have holds : s₂.Holds p [] :=
    ⟨fun g mem => found g.name (.inr (mem_map_of_mem mem)),by simp⟩
  obtain ⟨s₃,ranFunctions,coherent₃,more,written⟩ :=
    lowerFunctions_does low Linked.mem_calleesFirst low.order (by simpa [CallsEarly] using low.early) handed holds coherent₂
  have called : entry.signature ∈ ((Linked.calleesFirst p).map Function.signature).reverse ++ [] := by
    have has := find?_some isEntry
    simp only [Bool.and_eq_true] at has
    rw [append_nil,mem_reverse]
    exact Linked.mem_signatures_calleesFirst (mem_of_find?_eq_some isEntry) has.2
  obtain ⟨id,handed',defined⟩ := written.functions _ called
  refine ⟨s₃.outside (aboutProgram p id) ++ s₃.code.toList,s₃,?_,coherent₃,?_⟩
  · have ranId : (functionId entry.signature).run s₃ = .ok (id, s₃) := by
      rw [functionId,Lower.run_get_bind,handed']
      rfl
    rw [lowerCode,isEntry]
    dsimp only
    rw [Lower.run_bind_of_ok ranNames,Lower.run_bind_of_ok ranGlobals,Lower.run_bind_of_ok ranFunctions,
      Lower.run_bind_of_ok ranId]
    rfl
  · rintro _ same _ looked
    cases isEntry.symm.trans same
    cases handed'.symm.trans looked
    exact defined

end Shading.Lowering
