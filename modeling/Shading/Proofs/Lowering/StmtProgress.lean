import Shading.Proofs.Lowering.ExprProgress
import Shading.Proofs.Lowering.StmtCode

/-! The code of well-typed statements can be written: locals are declared before they are mentioned, and
jumps stand in loops. -/
namespace Shading.Lowering
open List Bytecode Typed

/-- The state has what a body needs: besides what expressions need, it knows the locals to be declared. -/
structure State.ServesBody (Γ : Env) (visible : List Nat) (callable : List String) (s : State) : Prop
    extends s.Serves Γ visible callable where
  declared : ∀ {i r}, Γ.var? (.local_ i) = some r → ∃ l, s.frame.declared[i]? = some l

section Statements

variable {w : List Id} {d : Nat} {s t : State} {Γ : Env} {visible visible' : List Nat}
  {callable : List String} {p : Program} {result : Ty} {inLoop : Bool}

theorem State.ServesBody.grows (serves : s.ServesBody Γ visible callable) (grows : s.Grows t) :
    t.ServesBody Γ visible callable where
  toServes := serves.toServes.grows grows
  declared known := grows.declared ▸ serves.declared known

theorem jump_does {op : Opcode} (jumps : op = .breakLoop ∨ op = .continueLoop) (open_ : 0 < d) :
    Does w d s (emit op []) d fun _ _ => True := by
  obtain ⟨d,rfl⟩ := Nat.exists_eq_succ_of_ne_zero (Nat.ne_of_gt open_)
  rcases jumps with rfl | rfl <;> exact steer_does _ [] (by decide) (Nat.le_refl 0) rfl

theorem test_does {c : Id} : Does w d s (emit .loopCondition [c]) d fun _ _ => True :=
  steer_does _ [c] (by decide) (Nat.le_refl 1) rfl

theorem turns_does {tail : Bool} {body continuing : Lower Unit}
    (first : ∀ t, s.Grows t → Does w (d + 1) t body (d + 1) fun _ _ => True)
    (second : ∀ t, s.Grows t → Does w (d + 1) t continuing (d + 1) fun _ _ => True) :
    Does w d s (turns tail body continuing) d fun _ _ => True := by
  refine (steer_does .loop [if tail then 1 else 0] (by decide) (Nat.le_refl 1) rfl).bind fun _ s₁ grows₁ _ => ?_
  refine (first s₁ grows₁).bind fun _ s₂ grows₂ _ => ?_
  refine (steer_does .loopContinue [] (by decide) (Nat.le_refl 0) rfl).bind fun _ s₃ grows₃ _ => ?_
  refine (second s₃ ((grows₁.trans grows₂).trans grows₃)).bind fun _ s₄ _ _ => ?_
  exact steer_does _ [] (by decide) (Nat.le_refl 0) rfl

/-- A declaration gives one more local an id. -/
theorem lowerDeclare_does (known : Γ.function? = p.functionTy?) {i : Nat} {init : Option Expr}
    (typed : (Stmt.declare i init).WellTyped Γ result inLoop) (seen : ∀ e ∈ init, e.locals ⊆ visible)
    (parts : ∀ x ∈ Stmt.optionParts init, x.Allowed Γ callable) (serves : s.ServesBody Γ visible callable) :
    Does w d s (lowerDeclare p i init) d fun _ s' => s'.ServesBody Γ (i :: visible) callable := by
  obtain ⟨⟨r,local_⟩,typed⟩ : (∃ r, Γ.var? (.local_ i) = some r) ∧ ∀ e ∈ init, e.WellTyped Γ := by
    cases typed with
    | declare known typed => exact ⟨⟨_,known⟩,fun e given => (typed e given).1⟩
  obtain ⟨l,found⟩ := serves.declared local_
  unfold lowerDeclare
  refine .of_get ?_
  rw [found]
  dsimp only
  refine (localVariable_does l.ty).bind fun id s₁ grows₁ pointer => ?_
  refine (addName_does id l.name).bind fun _ s₂ grows₂ _ => ?_
  have bound : Does w d s₂ (modify fun s => { s with
        frame := { s.frame with locals := (i, id) :: s.frame.locals } }) d
      fun _ t => t.ServesBody Γ (i :: visible) callable ∧ t.IsPointer id := by
    intro coherent
    have pointer := pointer.grows grows₂
    have served := serves.grows (grows₁.trans grows₂)
    refine ⟨(),_,rfl,{ coherent with locals := forall_mem_cons.mpr ⟨pointer,coherent.locals⟩ },
      { State.Grows.refl s₂ with locals := ⟨[(i, id)],rfl⟩ },{ served with locals := ?_ },pointer⟩
    intro j mem
    by_cases same : j = i
    · exact ⟨id,by simp [same]⟩
    · obtain ⟨old,found⟩ := served.locals j ((mem_cons.mp mem).resolve_left same)
      exact ⟨old,by rw [lookup_cons,beq_eq_false_iff_ne.mpr same]; exact found⟩
  refine bound.bind fun _ s₃ grows₃ ⟨served,pointer⟩ => ?_
  cases init with
  | none => exact .of_pure served
  | some e =>
    have before : s₃.Serves Γ visible callable :=
      { served.toServes with locals := fun j mem => served.locals j (.tail _ mem) }
    refine (lowerExpr_does known e ⟨typed e rfl,seen e rfl,parts⟩ before).bind fun v s₄ grows₄ _ => ?_
    exact (storeTo_does (pointer.grows grows₄)).imp fun _ _ grows₅ _ => (served.grows grows₄).grows grows₅

/-- Statements can be written where all that they need is there. -/
theorem lowerStmts_does (known : Γ.function? = p.functionTy?) {ss : List Stmt} {next next' : Nat}
    (valid : Typed.Scoped visible next ss visible' next') :
    ∀ {inLoop : Bool} {d : Nat} {s : State}, (∀ s ∈ ss, s.WellTyped Γ result inLoop) →
      (∀ x ∈ Stmt.partsIn ss, x.Allowed Γ callable) → (inLoop = true → 0 < d) →
        s.ServesBody Γ visible callable →
          Does w d s (lowerStmts p ss) d fun _ s' => s'.ServesBody Γ visible' callable := by
  induction valid <;> intro inLoop d s typed parts open_ serves <;>
    simp only [forall_mem_cons,Stmt.partsIn,Stmt.parts,forall_mem_append] at typed parts
  case nil _ =>
    rw [lowerStmts]
    exact .of_pure serves
  case expr seen _ ih =>
    cases typed.1 with
    | expr e =>
      rw [lowerStmts,lowerStmt,bind_assoc]
      exact (lowerExpr_does known _ ⟨e,seen,parts.1⟩ serves.toServes).bind fun _ t grows _ =>
        ih typed.2 parts.2 open_ (serves.grows grows)
  case declare seen _ _ ih =>
    rw [lowerStmts,lowerStmt]
    exact (lowerDeclare_does known typed.1 seen parts.1 serves).bind fun _ t _ served =>
      ih typed.2 parts.2 open_ served
  case if_ visible next c yes no _ _ _ _ _ _ _ seen _ _ _ ihYes ihNo ih =>
    cases typed.1 with
    | if_ cond _ first second =>
      rw [lowerStmts,lowerStmt_if,bind_assoc]
      refine (lowerExpr_does known c ⟨cond,seen,parts.1.1.1⟩ serves.toServes).bind fun x s₁ grows₁ _ => ?_
      have served := serves.grows grows₁
      have inYes (t : State) (grows : s₁.Grows t) : Does w d t (lowerStmts p yes) d fun _ _ => True :=
        (ihYes first parts.1.1.2 open_ (served.grows grows)).imp fun _ _ _ _ => trivial
      have chosen : Does w d s₁ (if no.isEmpty then branch x (lowerStmts p yes)
          else choice x (lowerStmts p yes) (lowerStmts p no)) d fun _ _ => True := by
        split
        · exact branch_does inYes
        · exact choice_does inYes fun t grows =>
            (ihNo second parts.1.2 open_ (served.grows grows)).imp fun _ _ _ _ => trivial
      exact chosen.bind fun _ s₂ grows₂ _ => ih typed.2 parts.2 open_ (served.grows grows₂)
  case loop visible next head cond step body _ _ _ _ _ inCond inStep _ _ ihBody ih =>
    cases typed.1 with
    | loop condition continuing tested inside =>
      have turn (t : State) (grows : s.Grows t) :
          Does w (d + 1) t (lowerStmts p body) (d + 1) fun _ _ => True :=
        (ihBody inside parts.1.2 (fun _ => Nat.succ_pos d) (serves.grows grows)).imp fun _ _ _ _ => trivial
      have computed {e : Expr} (typed : e.WellTyped Γ) (seen : e.locals ⊆ visible)
          (parts : ∀ x ∈ e.parts, x.Allowed Γ callable) (t : State) (grows : s.Grows t) :
          Does w (d + 1) t (lowerExpr p e) (d + 1) fun _ _ => True :=
        lowerExpr_does known e ⟨typed,seen,parts⟩ (serves.grows grows).toServes
      have looped : Does w d s (lowerStmt p (.loop head cond step body)) d fun _ _ => True := by
        cases head with
        | false =>
          obtain ⟨c,rfl⟩ := Option.isSome_iff_exists.mp (tested.resolve_left Bool.false_ne_true)
          rw [lowerStmt_loopTail]
          refine turns_does turn fun t grows => ?_
          exact (computed (condition c rfl).1 (inCond c rfl) parts.1.1.1 t grows).bind
            fun x t' _ _ => test_does.bind fun _ _ _ _ => .of_pure trivial
        | true =>
          rw [lowerStmt_loopHead]
          refine turns_does (fun t grows => ?_) fun t grows => ?_
          · cases cond with
            | none => exact turn t grows
            | some c =>
              exact (computed (condition c rfl).1 (inCond c rfl) parts.1.1.1 t grows).bind fun x t₁ grows₁ _ =>
                test_does.bind fun _ t₂ grows₂ _ => turn t₂ ((grows.trans grows₁).trans grows₂)
          · cases step with
            | none => exact .of_pure trivial
            | some e =>
              exact (computed (continuing e rfl) (inStep e rfl) parts.1.1.2 t grows).bind
                fun _ _ _ _ => .of_pure trivial
      rw [lowerStmts]
      exact looped.bind fun _ t grows _ => ih typed.2 parts.2 open_ (serves.grows grows)
  case jump _ _ j _ _ _ jumps _ ih =>
    have jumped : Does w d s (lowerStmt p j) d fun _ _ => True := by
      have typed := typed.1
      simp only [mem_cons,not_mem_nil,or_false] at jumps
      rcases jumps with rfl | rfl | rfl
      · cases typed
        rw [lowerStmt]
        exact jump_does (.inl rfl) (open_ rfl)
      · cases typed
        rw [lowerStmt]
        exact jump_does (.inr rfl) (open_ rfl)
      · rw [lowerStmt]
        exact steer_does _ [] (by decide) (Nat.le_refl 0) rfl
    rw [lowerStmts]
    exact jumped.bind fun _ t grows _ => ih typed.2 parts.2 open_ (serves.grows grows)
  case return_ visible next value _ _ _ seen _ ih =>
    have left : Does w d s (lowerStmt p (.return_ value)) d fun _ _ => True := by
      rw [lowerStmt.eq_def]
      cases typed.1 with
      | leave _ => exact steer_does _ [] (by decide) (Nat.le_refl 0) rfl
      | return_ _ given _ =>
        exact (lowerExpr_does known _ ⟨given,seen _ rfl,parts.1⟩ serves.toServes).bind fun v t _ _ =>
          steer_does _ [v] (by decide) (Nat.le_refl 1) rfl
    rw [lowerStmts]
    exact left.bind fun _ t grows _ => ih typed.2 parts.2 open_ (serves.grows grows)
  case block _ _ ihBody ih =>
    cases typed.1 with
    | block inside =>
      rw [lowerStmts,lowerStmt]
      exact (ihBody inside parts.1 open_ serves).bind fun _ t grows _ =>
        ih typed.2 parts.2 open_ (serves.grows grows)

end Statements

end Shading.Lowering
