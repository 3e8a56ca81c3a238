import Shading.Proofs.Lowering.ExprRun

/-! The code of an expression computes its value. -/
namespace Shading.Lowering
open List Bytecode Typed Execution Pass Block Instruction Expr

section Meaning

variable {V : Type} {W : World V} {b : Block} {e : Expr} {es : List Expr} {q : Place} {tmp : Id}
  {ty : Ty} {xs : List Id}

/-- The block gives the value of the expression in the id, and does to memory what evaluation does. -/
structure Means (W : World V) (e : Expr) (b : Block) (x : Id) : Prop where
  known : x ∈ results b.code ∨ W.Fixed x
  runs : W.Clean (results b.code) → Runs W (results b.code) [] (e.eval W.machine W.place)
    (fun v => [.env x (.value v)]) b

/-- What the work writes in that world. -/
abbrev World.Makes {α : Type} (W : World V) (work : Lower α) (made : Block → α → Prop) : Prop :=
  Produces W.code (· = W.directory) work made

/-- The block leads to what the expression denotes. -/
structure Locates (W : World V) (e : Expr) (b : Block) (q : Place) : Prop where
  known : q.base ∈ results b.code ∨ W.Fixed q.base
  holds : q.Holds e.ty
  runs : W.Clean (results b.code) → Runs W (results b.code) [] (e.locate W.machine W.place)
    (fun l => [.truth (q.Denotes W l), .env q.base (.pointer l.cell l.path)]) b

structure MeansAll (W : World V) (es : List Expr) (b : Block) (xs : List Id) : Prop where
  known : ∀ x ∈ xs, x ∈ results b.code ∨ W.Fixed x
  runs : W.Clean (results b.code) → Runs W (results b.code) [] (evalList W.machine W.place es)
    (fun vs => .truth (xs.length = vs.length) :: valueFacts xs vs) b

section Sequences

variable {α : Type} {e : Expr} {b b' : Block} {x : Id} {q : Place} {K : List (Fact V)}
  {G : α → List (Fact V)}

theorem clean_blocks (clean : W.Clean (results (b ++ b').code)) : W.Clean (results b.code) ∧
    W.Clean (results b'.code) ∧ ∀ x, x ∈ results b.code ∨ W.Fixed x → x ∉ results b'.code := by
  rw [code_append,results_append] at clean
  exact clean.append

theorem Means.bind {g : V → StateM (Memory V) α} (first : Means W e b x)
    (clean : W.Clean (results (b ++ b').code)) (apart : ∀ p ∈ K, p.Apart (results b.code))
    (second : ∀ v, Runs W (results b'.code) (.env x (.value v) :: K) (g v) G b') :
    Runs W (results (b ++ b').code) K (e.eval W.machine W.place >>= g) G (b ++ b') := by
  obtain ⟨clean',-,-⟩ := clean_blocks clean
  rw [code_append,results_append]
  exact (first.runs clean').bind (nil_subset _) clean'.own K (Subset.refl _) apart fun _ => second _

theorem Locates.bind {g : Location V → StateM (Memory V) α} (first : Locates W e b q)
    (clean : W.Clean (results (b ++ b').code)) (apart : ∀ p ∈ K, p.Apart (results b.code))
    (second : ∀ l, q.Denotes W l → Runs W (results b'.code) (.env q.base (.pointer l.cell l.path) :: K) (g l) G b') :
    Runs W (results (b ++ b').code) K (e.locate W.machine W.place >>= g) G (b ++ b') := by
  obtain ⟨clean',-,-⟩ := clean_blocks clean
  rw [code_append,results_append]
  refine (first.runs clean').bind (nil_subset _) clean'.own K (Subset.refl _) apart fun _ => ?_
  exact .of_truth (fun denotes => (second _ denotes).imp (by simp) fun _ => Subset.refl _) mem_cons_self

theorem MeansAll.bind {g : List V → StateM (Memory V) α} (first : MeansAll W es b xs)
    (clean : W.Clean (results (b ++ b').code)) (apart : ∀ p ∈ K, p.Apart (results b.code))
    (second : ∀ vs, xs.length = vs.length → Runs W (results b'.code) (valueFacts xs vs ++ K) (g vs) G b') :
    Runs W (results (b ++ b').code) K (evalList W.machine W.place es >>= g) G (b ++ b') := by
  obtain ⟨clean',-,-⟩ := clean_blocks clean
  rw [code_append,results_append]
  refine (first.runs clean').bind (nil_subset _) clean'.own K (Subset.refl _) apart fun _ => ?_
  exact .of_truth (fun same => (second _ same).imp (by simp) fun _ => Subset.refl _) mem_cons_self

end Sequences

section Operations

variable {op : Opcode} {ty : Ty} {operands : List UInt32} {b b' : Block} {x y : Id} {v : V}

theorem Computed.mem (computed : Computed W.code op ty operands b x) (typed : op.hasResultType = true) :
    x ∈ Pass.results b.code := by
  rw [computed.results typed]
  exact mem_cons_self

theorem Loaded.mem (loaded : Loaded W.code q b x) : x ∈ Pass.results b.code := by
  cases q with
  | pointer ptr t storage => exact Computed.mem loaded rfl
  | components ptr base storage selected =>
    obtain ⟨kind,whole,b₁,b₂,-,-,second,rfl⟩ := loaded
    rw [code_append,results_append]
    exact mem_append_right _ (Computed.mem second rfl)

theorem mem_results_append (here : x ∈ results b'.code) : x ∈ results (b ++ b').code := by
  rw [code_append,results_append]
  exact mem_append_right _ here

theorem MeansAll.nil : MeansAll W [] .done [] :=
  ⟨by simp,fun _ => .done (forall_mem_singleton.mpr (.inr fun _ _ => rfl))⟩

theorem MeansAll.cons (first : Means W e b x) (others : MeansAll W es b' xs) :
    MeansAll W (e :: es) (b ++ b') (x :: xs) := by
  refine ⟨fun y here => ?_,fun clean => ?_⟩
  · grind [code_append,results_append,Means.known,MeansAll.known]
  · obtain ⟨-,clean₂,apart⟩ := clean_blocks clean
    refine first.bind clean (by simp) fun v => ?_
    refine ((others.runs clean₂).frame (nil_subset _) [.env x (.value v)] (Subset.refl _)
      (forall_mem_singleton.mpr (apart x first.known))).map fun vs old σ known => ?_
    simp only [cons_append,forall_mem_cons,forall_mem_append] at known
    refine forall_mem_cons.mpr ⟨?_,forall_mem_cons.mpr ⟨known.2.2.1,known.2.1⟩⟩
    exact congrArg (· + 1) known.1

theorem Means.all (means : Means W e b x) : MeansAll W [e] b [x] := by
  simpa using MeansAll.cons means .nil

/-- The machine is asked for the value of an operation on the values of expressions. -/
theorem MeansAll.apply {literals : List UInt32} (given : MeansAll W es b xs)
    (computed : Computed W.code op ty operands b' x)
    (applied : op.isPure = true ∧ op ≠ .load ∧ op ≠ .accessChain ∧ op ≠ .select)
    (arguments : ∀ t, (⟨op, t :: x :: operands⟩ : Instruction).arguments = xs)
    (words : ∀ t, (⟨op, t :: x :: operands⟩ : Instruction).literals = literals)
    (value : e.eval W.machine W.place = do return W.machine.apply op ty.shape literals (← evalList W.machine W.place es)) :
    Means W e (b ++ b') x := by
  have typed : op.hasResultType = true := by cases op <;> first | rfl | cases applied.1
  refine ⟨.inl (mem_results_append (computed.mem typed)),fun clean => ?_⟩
  rw [value]
  exact given.bind clean (by simp) fun vs same =>
    computed.runs_apply xs vs literals applied arguments words same (by simp)

theorem results_done : results done.code = [] := rfl

theorem not_mem_append (absent : x ∉ results (b ++ b').code) : x ∉ results b.code ∧ x ∉ results b'.code := by
  rw [code_append,results_append,mem_append,not_or] at absent
  exact absent

end Operations

theorem runs_update {op : BinaryOp} {b' : Block} {y z x : Id} {v w : V} {l : Location V}
    (computed : Computed W.code .binary ty [.ofNat op.code, y, z] b x)
    (stored : Stored W.code x q b') (denotes : q.Denotes W l)
    (clean : W.Clean (results (b ++ b').code)) (pointer : q.base ∉ results (b ++ b').code)
    (old : y ∉ results (b ++ b').code) :
    Runs W (results (b ++ b').code)
      [.env q.base (.pointer l.cell l.path), .env y (.value v), .env z (.value w)]
      (l.assign W.machine (W.machine.binary op ty v w))
      (fun _ => [.env x (.value (W.machine.binary op ty v w)), .env y (.value v)]) (b ++ b') := by
  obtain ⟨clean₁,clean₂,apart⟩ := clean_blocks clean
  have pointer := not_mem_append pointer
  have old := not_mem_append old
  have new := apart x (.inl (computed.mem rfl))
  have first : Runs W (results b.code) [.env y (.value v),.env z (.value w)]
      (pure (W.machine.binary op ty v w)) (fun v => [.env x (.value v)]) b :=
    computed.runs_apply [y,z] [v,w] [.ofNat op.code] (by simp [Opcode.isPure]) (fun _ => rfl) (fun _ => rfl) rfl
      (by simp [valueFacts])
  rw [code_append,results_append]
  refine first.before (by simp) clean₁.own [.env q.base (.pointer l.cell l.path),.env y (.value v)] (by simp)
    (by simp [Fact.Apart,pointer,old]) ?_
  exact (stored.runs _ denotes clean₂ pointer.2 new).frame (by simp) [.env x (.value _),.env y (.value v)]
    (by simp) (by simp [Fact.Apart,new,old])

variable {p : Program} {Γ : Env}

theorem isPath_eq : ∀ e : Expr, e.isPath = keepsPointer e
  | .index e _ _ => isPath_eq e
  | .var _ _ | .const _ | .binary _ _ _ _ | .unary _ _ | .assign _ _ _ | .step _ _ _ | .select _ _ _
  | .construct _ _ | .call _ _ _ | .builtin _ _ _ | .swizzle _ _ _ => rfl

theorem lowerIndex_locates {i : Expr} (whole : W.Makes (lowerPlace p e) (Locates W e))
    (position : W.Makes (lowerExpr p i) (Means W i)) (ty : Ty) : W.Makes (do
      let base ← lowerPlace p e
      indexPlace base i (lowerExpr p i) ty) (Locates W (.index e i ty)) := by
  refine .bind whole fun base => (indexPlace_produces position base).imp ?_
  intro b₂ q indexed b₁ first
  cases base with
  | pointer ptr t storage =>
    obtain ⟨n,x,b₃,b₄,second,chain,rfl,rfl⟩ := indexed
    refine ⟨.inl (mem_results_append (mem_results_append ?_)),rfl,fun clean => ?_⟩
    · change x ∈ Pass.results b₄.code
      rw [chain.results rfl]
      exact mem_cons_self
    · obtain ⟨clean₁,clean',apart⟩ := clean_blocks clean
      have unchanged := (not_mem_append (apart ptr first.known)).1
      refine first.bind clean (by simp) fun l denotes => second.bind clean' (by simpa [Fact.Apart]) fun v => ?_
      have element : l.index W.machine i.literal? v = l.element v := by
        rw [Location.index,denotes.selected]
        rfl
      rw [element]
      have leads : Runs W (Pass.results b₄.code) [.env n (.value v),.env ptr (.pointer l.cell l.path)]
          (pure ()) (fun _ => [.env x (.pointer l.cell (l.path ++ [v]))]) b₄ :=
        chain.runs_element (by simp) fun old σ μ known _ => known (.env n (.value v)) (by simp)
      refine leads.give (forall_mem_cons.mpr ⟨.inr fun _ _ => ⟨denotes.visible,denotes.selected⟩,?_⟩)
      simp [Place.base]
  | components ptr t storage selected =>
    obtain ⟨component,n,x,found,constant,chain,rfl⟩ := indexed
    refine ⟨.inl (mem_results_append ?_),rfl,fun clean => ?_⟩
    · change x ∈ Pass.results b₂.code
      rw [chain.results rfl]
      exact mem_cons_self
    · obtain ⟨k,literal,-⟩ := Option.bind_eq_some_iff.mp found
      obtain ⟨c,constantly,-⟩ := Option.bind_eq_some_iff.mp literal
      cases i with
      | const c' =>
        refine first.bind clean (by simp) fun l denotes => ?_
        have element : ∀ v, l.index W.machine (const c').literal? v =
            { l.element (W.machine.position component) with selected := none } := by
          intro v
          have same : ((const c').literal?.bind fun n => if 0 ≤ n then selected[n.toNat]? else none) =
            some component := found
          rw [Location.index,denotes.selected]
          simp only [Place.selected?,same]
        have leads : Runs W (Pass.results b₂.code) [.env ptr (.pointer l.cell l.path)] (pure ())
            (fun _ => [.env x (.pointer l.cell (l.path ++ [W.machine.position component]))]) b₂ :=
          chain.runs_element (by simp) fun old σ μ known fits => fits.constants constant
        change Runs W _ _ (pure (l.index W.machine (const c').literal? (W.machine.scalar c'))) _ b₂
        rw [element]
        refine leads.give (forall_mem_cons.mpr ⟨.inr fun _ _ => ⟨denotes.visible,rfl⟩,?_⟩)
        simp [Place.base]
      | _ => cases constantly

/-- Components of what an expression leads to. -/
theorem lowerSwizzle_locates {components : List Nat} (typed : (swizzle e components ty).WellTyped Γ)
    (whole : W.Makes (lowerPlace p e) (Locates W e)) :
    W.Makes (do selectPlace (← lowerPlace p e) components)
      (Locates W (.swizzle e components ty)) := by
  refine .bind whole fun base => (selectPlace_produces components base).imp ?_
  rintro _ q ⟨rfl,selected⟩ b first
  cases typed with
  | @swizzle _ _ kind size _ vector _ _ _ =>
    have same : q.base = base.base ∧ q.Holds (.ofSize kind components.length) ∧
        ∀ l, base.Denotes W l → q.Denotes W (l.select components) := by
      have holds := first.holds
      rw [vector] at holds
      cases base with
      | pointer ptr t storage =>
        obtain rfl := selected
        refine ⟨rfl,⟨kind,size,holds,rfl⟩,fun l denotes => ⟨denotes.visible,?_⟩⟩
        rw [Location.select,denotes.selected]
        rfl
      | components ptr t storage outer =>
        obtain ⟨picked,found,rfl⟩ := selected
        obtain ⟨kind',size',rfl,same⟩ := holds
        obtain ⟨length,chosen⟩ := filterMap_of_mapM found
        refine ⟨rfl,⟨kind',size',rfl,?_⟩,fun l denotes => ⟨denotes.visible,?_⟩⟩
        · rw [Ty.ofSize] at same
          split at same
          · cases same
          · rw [(Ty.vector.inj same).1,length]
        · rw [Location.select,denotes.selected]
          simp only [Place.selected?,chosen]
    obtain ⟨pointer,holds,denotes⟩ := same
    rw [append_done]
    refine ⟨pointer ▸ first.known,holds,fun clean => (first.runs clean).map fun l old σ known => ?_⟩
    rw [forall_mem_cons,forall_mem_cons] at known ⊢
    exact ⟨denotes l known.1,pointer ▸ known.2.1,by simp⟩

/-- What a branch leaves in a variable of the block. -/
def Leaves (W : World V) (tmp : Id) (e : Expr) (b : Block) : Prop :=
  ∃ b₁ y, Means W e b₁ y ∧ b = b₁ ++ .one ⟨.store, [tmp, y]⟩

theorem stored_leaves {work : Lower Id} (made : W.Makes work (Means W e)) :
    W.Makes (do
      let r ← work
      emit .store [tmp, r]) fun b _ => Leaves W tmp e b := by
  refine .bind made fun y => (emit_produces _ _).imp ?_
  rintro _ - ⟨rfl,-⟩ b₁ means
  exact ⟨b₁,y,means,rfl⟩

theorem Leaves.runs (leaves : Leaves W tmp e b) (clean : W.Clean (results b.code))
    (apart : tmp ∉ results b.code) :
    Runs W (results b.code ++ [tmp]) [W.pointer tmp] (e.eval W.machine W.place)
      (fun v => [.own tmp v, W.pointer tmp]) b := by
  obtain ⟨b₁,y,means,rfl⟩ := leaves
  have same : results (b₁ ++ .one ⟨.store,[tmp,y]⟩).code = results b₁.code := by
    rw [code_append,results_append]
    exact append_nil _
  rw [same] at clean apart ⊢
  refine (means.runs clean).bind (g := pure) (nil_subset _) clean.own [W.pointer tmp] (Subset.refl _)
    (forall_mem_singleton.mpr apart) fun μ => ?_
  exact runs_keep.imp (by simp) fun _ => Subset.refl _

theorem lowerShortCircuit_means (isAnd : Bool) {lhs rhs : Lower Id} {l r : Expr}
    (left : W.Makes lhs (Means W l)) (right : W.Makes rhs (Means W r)) (ty : Ty) :
    W.Makes (lowerShortCircuit isAnd lhs rhs)
      (Means W (.binary (if isAnd then .logicalAnd else .logicalOr) l r ty)) := by
  -- The right side is needed if the left one is true for `&&` and false for `||`.
  have condition (y : Id) : W.Makes
      (if isAnd then pure y else value .unary .bool [.ofNat UnaryOp.not.code,y]) fun b cond =>
        ∀ v, ∃ c, W.machine.truth c = (W.machine.truth v == isAnd) ∧
          Runs W (results b.code) [.env y (.value v)] (pure c) (fun c => [.env cond (.value c)]) b := by
    cases isAnd with
    | true => exact .of_pure fun v => ⟨v,by simp,.done fun _ => .inl⟩
    | false =>
      refine (value_produces _ _ _).imp fun b cond computed v => ⟨_,?_,
        computed.runs_apply [y] [v] [.ofNat UnaryOp.not.code] (by simp [Opcode.isPure]) (fun _ => rfl)
          (fun _ => rfl) rfl (by simp [valueFacts])⟩
      rw [W.lawful.not]
      simp
  rw [lowerShortCircuit_eq]
  refine .bind (localVariable_produces .bool) fun tmp => .bind left fun y => .bind (emit_produces _ _)
    fun _ => .bind (condition y) fun cond => .bind (branch_produces (stored_leaves right)) fun _ =>
      (value_produces _ _ _).imp ?_
  rintro b₆ x loaded _ ⟨b₅,leaves,rfl,-⟩ b₄ tested _ ⟨rfl,-⟩ b₂ means b₁ made
  refine ⟨.inl ?_,fun clean => ?_⟩
  · simp only [code_append,results_append,mem_append,Computed.mem loaded rfl,or_true]
  have names : results (b₁ ++ (b₂ ++ (.one ⟨.store,[tmp,y]⟩ ++ (b₄ ++ (.ifThen cond b₅ .done ++ b₆))))).code =
      [tmp] ++ (results b₂.code ++ (results b₄.code ++ (results b₅.code ++ [x]))) := by
    simp only [code_append,results_append,results_ifThen,made.results rfl,
      Computed.results loaded rfl,results_done,append_nil]
    rfl
  rw [names] at clean ⊢
  obtain ⟨cleanTmp,clean',apart⟩ := clean.append
  obtain ⟨clean₂,clean'',-⟩ := clean'.append
  obtain ⟨clean₄,rest,-⟩ := clean''.append
  obtain ⟨clean₅,-,-⟩ := rest.append
  have absent := apart tmp (.inl mem_cons_self)
  simp only [mem_append,not_or] at absent
  have other : y ∉ [tmp] := by
    rw [mem_singleton]
    rintro rfl
    exact means.known.elim absent.1 (cleanTmp.own _ mem_cons_self).1
  have branch : Runs W (results b₂.code ++ ([tmp] ++ (results b₄.code ++ (results b₅.code ++ [tmp]))))
      [W.pointer tmp] (eval W.machine W.place (.binary (if isAnd then .logicalAnd else .logicalOr) l r ty))
      (fun v => [.own tmp v,W.pointer tmp])
      (b₂ ++ (.one ⟨.store,[tmp,y]⟩ ++ (b₄ ++ .ifThen cond b₅ .done))) := by
    rw [eval_logical]
    refine (means.runs clean₂).bind (nil_subset _) clean₂.own [W.pointer tmp] (Subset.refl _)
      (forall_mem_singleton.mpr absent.1) fun μ => ?_
    generalize (l.eval W.machine W.place μ).1 = a
    obtain ⟨c,truth,tests⟩ := tested a
    refine runs_keep.before (a := a) (by simp) cleanTmp.own [.env y (.value a)] (by simp)
      (forall_mem_singleton.mpr other) ?_
    refine tests.before (by simp) clean₄.own [.own tmp a,W.pointer tmp] (by simp)
      (by simp [Fact.Apart,World.pointer,absent]) ?_
    rw [← truth]
    exact .ifThen (by simp) ((leaves.runs clean₅ absent.2.2.1).imp (by simp) fun _ => Subset.refl _) (by simp)
  have own : ∀ z ∈ tmp :: (results b₂.code ++ ([tmp] ++ (results b₄.code ++ (results b₅.code ++ [tmp])))),
      ¬W.Fixed z ∧ ¬W.Visible (.frame W.depth z) := fun z here => clean.own z (by simp at here ⊢; tauto)
  have blocks : b₂ ++ (.one ⟨.store,[tmp,y]⟩ ++ (b₄ ++ (.ifThen cond b₅ .done ++ b₆))) =
      b₂ ++ (.one ⟨.store,[tmp,y]⟩ ++ (b₄ ++ .ifThen cond b₅ .done)) ++ b₆ := by
    simp only [Block.append_assoc]
  rw [blocks]
  exact (branch.through made loaded own).mono fun z here => by simp at here ⊢; tauto

theorem lowerChoice_means {cond yes no : Lower Id} {c a b : Expr} (first : W.Makes cond (Means W c))
    (second : W.Makes yes (Means W a)) (third : W.Makes no (Means W b)) :
    W.Makes (lowerChoice a.ty cond yes no) (Means W (.select c a b)) := by
  rw [lowerChoice_eq]
  refine .bind (localVariable_produces a.ty) fun tmp => .bind first fun y =>
    .bind (choice_produces (stored_leaves second) (stored_leaves third)) fun _ => (value_produces _ _ _).imp ?_
  rintro b₅ x loaded _ ⟨b₃,b₄,leaves,leaves',rfl,-⟩ b₂ means b₁ made
  refine ⟨.inl (mem_results_append (mem_results_append (mem_results_append (Computed.mem loaded rfl)))),
    fun clean => ?_⟩
  have names : results (b₁ ++ (b₂ ++ (.ifElse y b₃ b₄ .done ++ b₅))).code =
      [tmp] ++ (results b₂.code ++ (results b₃.code ++ results b₄.code ++ [x])) := by
    simp only [code_append,results_append,results_ifElse,made.results rfl,
      Computed.results loaded rfl,results_done,append_nil,List.append_assoc]
  rw [names] at clean ⊢
  obtain ⟨cleanTmp,clean',apart⟩ := clean.append
  obtain ⟨clean₂,clean'',-⟩ := clean'.append
  obtain ⟨clean₃₄,-,-⟩ := clean''.append
  obtain ⟨clean₃,clean₄,-⟩ := clean₃₄.append
  have absent := apart tmp (.inl mem_cons_self)
  simp only [mem_append,not_or] at absent
  have branches : Runs W (results b₂.code ++ (results b₃.code ++ results b₄.code ++ [tmp])) [W.pointer tmp]
      (eval W.machine W.place (.select c a b)) (fun v => [.own tmp v,W.pointer tmp])
      (b₂ ++ .ifElse y b₃ b₄ .done) := by
    refine (means.runs clean₂).bind (nil_subset _) clean₂.own [W.pointer tmp] (Subset.refl _)
      (forall_mem_singleton.mpr absent.1) fun μ => ?_
    refine .ifElse (by simp) ?_ ?_
    · exact ((leaves.runs clean₃ absent.2.1.1).mono (by simp)).imp (by simp) fun _ => Subset.refl _
    · exact ((leaves'.runs clean₄ absent.2.1.2).mono (by simp)).imp (by simp) fun _ => Subset.refl _
  have own : ∀ z ∈ tmp :: (results b₂.code ++ (results b₃.code ++ results b₄.code ++ [tmp])),
      ¬W.Fixed z ∧ ¬W.Visible (.frame W.depth z) := fun z here => clean.own z (by simp at here ⊢; tauto)
  rw [← Block.append_assoc b₂]
  exact (branches.through made loaded own).mono fun z here => by simp at here ⊢; tauto

mutual

theorem lowerExpr_means : ∀ e : Expr, e.WellTyped Γ → e.calls = [] →
    W.Makes (lowerExpr p e) (Means W e)
  | .const c, _, _ => by
    rw [lowerExpr]
    refine (constantId_produces c).imp ?_
    rintro b x ⟨rfl,constant⟩
    refine ⟨.inr (.inl ⟨c,constant⟩),fun _ => ?_⟩
    exact .of_fits (q := .env x (.value (W.machine.scalar c))) (fun old σ μ fits => fits.constants constant)
      (.done fun _ => .inl)
  | .var v ty, _, _ => by
    rw [lowerExpr]
    refine .bind (variableId_produces v) fun r => (load_produces _).imp ?_
    rintro b x loaded _ ⟨rfl,d,rfl,found⟩
    refine ⟨.inl ?_,fun clean => .of_fits (q := .env r.1 (.pointer (W.place v).1 (W.place v).2))
      (fun old σ μ fits => fits.vars found) ?_⟩
    · change x ∈ results b.code
      rw [Computed.results loaded rfl]
      exact mem_cons_self
    · exact loaded.runs (l := ⟨(W.place v).1,(W.place v).2,none⟩) rfl ⟨⟨v,r,found,rfl⟩,rfl⟩ clean
  | .binary op l r ty, typed, calls => by
    rw [Expr.calls,append_eq_nil_iff] at calls
    cases typed with
    | binary left right _ =>
      rw [lowerExpr]
      split
      · rename_i short
        obtain ⟨logical,-⟩ := Bool.and_eq_true_iff.mp short
        have means := lowerShortCircuit_means (op == .logicalAnd) (lowerExpr_means l left calls.1)
          (lowerExpr_means r right calls.2) ty
        grind
      · rename_i strict
        refine .bind (lowerExpr_means l left calls.1) fun y => .bind (lowerExpr_means r right calls.2)
          fun z => (value_produces _ _ _).imp ?_
        rintro b₃ x computed b₂ second b₁ first
        rw [← Block.append_assoc]
        exact (MeansAll.cons first second.all).apply computed (by simp [Opcode.isPure]) (fun _ => rfl) (fun _ => rfl)
          (eval_binary_strict W.lawful (by simpa using strict))
  | .unary op e, typed, calls => by
    rw [Expr.calls] at calls
    cases typed with
    | unary operand _ =>
      rw [lowerExpr]
      refine .bind (lowerExpr_means e operand calls) fun y => (value_produces _ _ _).imp ?_
      rintro b₂ x computed b₁ first
      exact first.all.apply computed (by simp [Opcode.isPure]) (fun _ => rfl) (fun _ => rfl) rfl
  | .assign op t v, typed, calls => by
    rw [Expr.calls,append_eq_nil_iff] at calls
    cases typed with
    | assign target source _ _ =>
      rw [lowerExpr]
      refine .bind (lowerPlace_locates t target calls.1) fun place => .bind (lowerExpr_means v source calls.2)
        fun y => ?_
      cases op with
      | none =>
        refine .bind (R := fun b z => b = .done ∧ z = y) (.of_pure ⟨rfl,rfl⟩) fun z =>
          .bind (store_produces z place) fun _ => .of_pure ?_
        rintro b₃ stored _ ⟨rfl,rfl⟩ b₂ second b₁ first
        simp only [done_append,append_done]
        refine ⟨?_,fun clean => ?_⟩
        · grind [code_append,results_append,Means.known]
        · obtain ⟨-,clean',apart⟩ := clean_blocks clean
          obtain ⟨-,clean₃,apart'⟩ := clean_blocks clean'
          have pointer := not_mem_append (apart place.base first.known)
          have value := apart' z second.known
          rw [eval]
          refine first.bind clean (by simp) fun l denotes => second.bind clean' (by simp [Fact.Apart,pointer])
            fun w => ?_
          refine ((stored.runs w denotes clean₃ pointer.2 value).frame (by simp) [.env z (.value w)] (by simp)
            (by simpa [Fact.Apart])).map (h := fun _ => w) fun _ old σ known => known
      | some op =>
        refine .bind (load_produces place) fun current => .bind (value_produces _ _ _) fun z =>
          .bind (store_produces z place) fun _ => .of_pure ?_
        rintro b₅ stored b₄ computed b₃ loaded b₂ second b₁ first
        simp only [append_done]
        refine ⟨.inl ?_,fun clean => ?_⟩
        · simp only [code_append,results_append,mem_append,computed.mem rfl,true_or,or_true]
        · obtain ⟨-,clean',apart⟩ := clean_blocks clean
          obtain ⟨-,clean'',apart'⟩ := clean_blocks clean'
          obtain ⟨clean₃,clean₄,apart''⟩ := clean_blocks clean''
          have pointer := not_mem_append (apart place.base first.known)
          have pointer' := not_mem_append pointer.2
          have value := not_mem_append (apart' y second.known)
          rw [eval]
          refine first.bind clean (by simp) fun l denotes => second.bind clean' (by simp [Fact.Apart,pointer])
            fun w => ?_
          rw [code_append,results_append]
          change Runs W _ _ (l.read W.machine t.ty >>= fun v => do
            l.assign W.machine (W.machine.binary op t.ty v w)
            return W.machine.binary op t.ty v w) _ _
          refine (loaded.runs first.holds denotes clean₃).bind (by simp) clean₃.own
            [.env y (.value w),.env place.base (.pointer l.cell l.path)] (by simp)
            (by simp [Fact.Apart,pointer',value]) fun μ => ?_
          refine ((runs_update computed stored denotes clean₄ pointer'.2 (apart'' current (.inl loaded.mem))).imp
            (by simp) fun _ => Subset.refl _).map (h := fun _ => _) fun _ old σ known => ?_
          exact forall_mem_singleton.mpr (known _ mem_cons_self)
  | .step up before t, typed, calls => by
    rw [Expr.calls] at calls
    cases typed with
    | step target _ _ =>
      rw [lowerExpr]
      split
      · exact .of_throw
      · rename_i kind scalar
        refine .bind (lowerPlace_locates t target calls) fun place => ?_
        refine .bind (load_produces place) fun old => .bind (constantId_produces _) fun one =>
          .bind (value_produces _ _ _) fun new => .bind (store_produces new place) fun _ => .of_pure ?_
        rintro b₄ stored b₃ computed _ ⟨rfl,constant⟩ b₂ loaded b₁ first
        simp only [append_done,done_append]
        refine ⟨.inl ?_,fun clean => ?_⟩
        · have here := computed.mem rfl
          have read := loaded.mem
          cases before <;> simp [results_append,here,read]
        · obtain ⟨-,clean',apart⟩ := clean_blocks clean
          obtain ⟨clean₂,clean₃,apart'⟩ := clean_blocks clean'
          have pointer := not_mem_append (apart place.base first.known)
          rw [eval]
          refine first.bind clean (by simp) fun l denotes => ?_
          rw [code_append,results_append,scalar]
          refine (loaded.runs first.holds denotes clean₂).bind (by simp) clean₂.own
            [.env place.base (.pointer l.cell l.path)] (by simp) (by simp [Fact.Apart,pointer]) fun μ => ?_
          refine .of_fits (q := .env one (.value (W.machine.scalar ((Const.int 1).cast kind))))
            (fun old σ μ fits => fits.constants constant) ?_
          refine ((runs_update computed stored denotes clean₃ pointer.2 (apart' old (.inl loaded.mem))).imp
            (by simp) fun _ => Subset.refl _).map (h := fun _ => _) fun _ σ' σ known => ?_
          grind
  | .select c a b, typed, calls => by
    rw [Expr.calls,append_eq_nil_iff,append_eq_nil_iff] at calls
    cases typed with
    | select cond yes no _ _ _ =>
      rw [lowerExpr]
      split
      · exact lowerChoice_means (lowerExpr_means c cond calls.1.1) (lowerExpr_means a yes calls.1.2)
          (lowerExpr_means b no calls.2)
      · rename_i strict
        refine .bind (lowerExpr_means c cond calls.1.1) fun y => .bind (lowerExpr_means a yes calls.1.2) fun z =>
          .bind (lowerExpr_means b no calls.2) fun w => (value_produces _ _ _).imp ?_
        rintro b₄ x computed b₃ third b₂ second b₁ first
        refine ⟨.inl (mem_results_append (mem_results_append (mem_results_append (computed.mem rfl)))),
          fun clean => ?_⟩
        obtain ⟨-,clean',apart⟩ := clean_blocks clean
        obtain ⟨-,clean'',apart'⟩ := clean_blocks clean'
        have early := not_mem_append (apart y first.known)
        have early' := not_mem_append early.2
        have late := not_mem_append (apart' z second.known)
        rw [eval_select_strict (by simpa using strict)]
        refine first.bind clean (by simp) fun v => second.bind clean' (by simp [Fact.Apart,early]) fun v' =>
          third.bind clean'' (by simp [Fact.Apart,early',late]) fun v'' => ?_
        refine computed.runs (d := .value) rfl rfl (fun _ => rfl) fun old σ μ t known _ => ?_
        simp only [forall_mem_cons,Fact.Holds] at known
        have data : σ.data ⟨.select,[t,x,y,z,w]⟩ = [σ.env y,σ.env z,σ.env w] := rfl
        rw [data,known.1,known.2.1,known.2.2.1]
        exact (apply_ite Datum.value _ _ _).symm
  | .construct args ty, typed, calls => by
    rw [Expr.calls] at calls
    cases typed with
    | construct operands _ _ _ =>
      rw [lowerExpr]
      refine .bind (lowerExprs_mean args operands calls) fun xs => (value_produces _ _ _).imp ?_
      rintro b₂ x computed b₁ first
      exact first.apply computed (by simp [Opcode.isPure]) (fun _ => arguments_construct)
        (fun _ => literals_construct) rfl
  | .call signature args ty, typed, calls => by
    simp [Expr.calls] at calls
  | .builtin f args ty, typed, calls => by
    rw [Expr.calls] at calls
    cases typed with
    | builtin operands _ =>
      rw [lowerExpr]
      refine .bind (lowerExprs_mean args operands calls) fun xs => (value_produces _ _ _).imp ?_
      rintro b₂ x computed b₁ first
      exact first.apply computed (by simp [Opcode.isPure]) (fun _ => arguments_builtin)
        (fun _ => literals_builtin) rfl
  | .swizzle e components ty, typed, calls => by
    rw [Expr.calls] at calls
    cases typed with
    | swizzle whole _ _ _ _ =>
      rw [lowerExpr]
      refine .bind (lowerExpr_means e whole calls) fun y => (value_produces _ _ _).imp ?_
      rintro b₂ x computed b₁ first
      exact first.all.apply computed (by simp [Opcode.isPure]) (fun _ => arguments_swizzle)
        (fun _ => literals_swizzle) rfl
  | .index e i ty, typed, calls => by
    rw [Expr.calls,append_eq_nil_iff] at calls
    cases typed with
    | index whole position _ _ _ _ =>
      rw [lowerExpr]
      split
      · rename_i path
        have locates := lowerIndex_locates (lowerPlace_locates e whole calls.1)
          (lowerExpr_means i position calls.2) ty
        have same : (do
            let base ← lowerPlace p e
            load (← indexPlace base i (lowerExpr p i) ty)) = (do
              let base ← lowerPlace p e
              indexPlace base i (lowerExpr p i) ty) >>= load := by
          rw [bind_assoc]
        rw [same]
        refine .bind locates fun q => (load_produces q).imp ?_
        intro b₂ x loaded b₁ first
        refine ⟨.inl (mem_results_append (loaded.mem)),fun clean => ?_⟩
        obtain ⟨-,clean₂,-⟩ := clean_blocks clean
        rw [eval,isPath_eq,if_pos path]
        exact first.bind clean (by simp) fun l denotes => loaded.runs first.holds denotes clean₂
      · rename_i path
        refine .bind (lowerExpr_means e whole calls.1) fun y => .bind (lowerExpr_means i position calls.2)
          fun z => (value_produces _ _ _).imp ?_
        rintro b₃ x computed b₂ second b₁ first
        rw [← Block.append_assoc]
        refine (MeansAll.cons first second.all).apply computed (by simp [Opcode.isPure]) (fun _ => rfl) (fun _ => rfl) ?_
        rw [eval,isPath_eq,if_neg path]
        simp only [← W.lawful.extract ty.shape]
        rfl

theorem lowerPlace_locates : ∀ e : Expr, e.WellTyped Γ → e.calls = [] →
    W.Makes (lowerPlace p e) (Locates W e)
  | .var v ty, _, _ => by
    rw [lowerPlace]
    refine .bind (variableId_produces v) fun r => .of_pure ?_
    rintro _ ⟨rfl,d,rfl,found⟩
    refine ⟨.inr (.inr ⟨v,r.2,found⟩),rfl,fun _ => ?_⟩
    refine .of_fits (q := .env r.1 (.pointer (W.place v).1 (W.place v).2))
      (fun old σ μ fits => fits.vars found) ?_
    rw [locate]
    refine .done (forall_mem_cons.mpr ⟨.inr fun _ _ => ⟨⟨v,r,found,rfl⟩,rfl⟩,?_⟩)
    exact forall_mem_singleton.mpr (.inl mem_cons_self)
  | .index e i ty, typed, calls => by
    rw [Expr.calls,append_eq_nil_iff] at calls
    cases typed with
    | index whole position _ _ _ _ =>
      rw [lowerPlace]
      exact lowerIndex_locates (lowerPlace_locates e whole calls.1) (lowerExpr_means i position calls.2) ty
  | .swizzle e components ty, typed, calls => by
    have whole : e.WellTyped Γ := by
      cases typed with
      | swizzle whole _ _ _ _ => exact whole
    rw [lowerPlace]
    exact lowerSwizzle_locates typed (lowerPlace_locates e whole calls)
  | .const _, _, _ | .binary _ _ _ _, _, _ | .unary _ _, _, _ | .assign _ _ _, _, _ | .step _ _ _, _, _
  | .select _ _ _, _, _ | .construct _ _, _, _ | .call _ _ _, _, _ | .builtin _ _ _, _, _ => by
    rw [lowerPlace] <;> first | exact .of_throw | simp

theorem lowerExprs_mean : ∀ es : List Expr, (∀ e ∈ es, e.WellTyped Γ) → callsIn es = [] →
    W.Makes (lowerExprs p es) (MeansAll W es)
  | [], _, _ => by
    rw [lowerExprs]
    exact .of_pure .nil
  | e :: es, typed, calls => by
    rw [callsIn,append_eq_nil_iff] at calls
    rw [forall_mem_cons] at typed
    rw [lowerExprs]
    refine .bind (lowerExpr_means e typed.1 calls.1) fun x => .bind (lowerExprs_mean es typed.2 calls.2) fun xs =>
      .of_pure ?_
    intro b₂ others b₁ first
    rw [append_done]
    exact .cons first others

end

end Meaning

end Shading.Lowering
