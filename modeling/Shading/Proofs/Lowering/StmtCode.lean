import Shading.Proofs.Lowering.ExprCode

/-! The code of statements is structured and mentions visible ids only, if the statements mention visible
locals only. A local that is declared in a block is in sight to the end of that block. -/
namespace Shading.Lowering
open List Bytecode Typed Instruction Block Lower

variable {α : Type} {work yes : Lower Unit}

/-- The variables in sight in a body, where no index from `next` on was declared yet. -/
structure InBody (v : List Id) (visible : List Nat) (next : Nat) (f : Frame) : Prop
    extends Sees v visible f where
  below : ∀ i ∈ visible, i < next

/-- Work on statements has written a block and declared locals from `next` on; `tests` tells whether
conditions of going on may stand in the block. -/
structure EmitsBody (tests : Bool) (v : List Id) (next : Nat) (s : State) (b : Block) (s' : State) :
    Prop where
  code : s'.code.toList = s.code.toList ++ b.code
  functions : s'.functions = s.functions
  params : s'.frame.params = s.frame.params
  locals : ∃ new, s'.frame.locals = new ++ s.frame.locals ∧ ∀ e ∈ new, next ≤ e.1
  known : s.known ⊆ s'.known
  tidy : s'.Tidy
  inside : b.Scoped (v ++ s'.known)
  proper : b.Proper tests

/-- Work that writes a block, after which other locals are visible and other indices free. -/
def Writes (tests : Bool) (visible : List Nat) (uses : List Id) (next : Nat) (work : Lower Unit)
    (visible' : List Nat) (next' : Nat) : Prop :=
  ∀ v s a s', s.Tidy → InBody v visible next s.frame → uses ⊆ v ++ s.known →
    work.run s = .ok (a, s') →
    ∃ b, EmitsBody tests v next s b s' ∧ InBody (b.top ++ v) visible' next' s'.frame

def turns (tail : Bool) (body continuing : Lower Unit) : Lower Unit := do
  emit .loop [if tail then 1 else 0]
  body
  emit .loopContinue []
  continuing
  emit .endLoop []

section Statements

variable {tests : Bool} {v : List Id} {s t u : State} {a b : Block} {visible visible' visible'' : List Nat}
  {uses : List Id} {next next' next'' : Nat}

theorem InBody.widen {f : Frame} (inBody : InBody v visible next f) {wider : List Id}
    (le : v ⊆ wider) (up : next ≤ next') : InBody wider visible next' f where
  params := Subset.trans inBody.params le
  locals i seen id found := le (inBody.locals i seen id found)
  below i seen := Nat.lt_of_lt_of_le (inBody.below i seen) up

theorem InBody.after (inBody : InBody v visible next s.frame) (emitted : EmitsBody tests v next s b t)
    (up : next ≤ next') : InBody v visible next' t.frame where
  params := emitted.params ▸ inBody.params
  locals i seen id found := by
    obtain ⟨new,locals,fresh⟩ := emitted.locals
    rw [locals,lookup_append] at found
    have unseen : new.lookup i = none := by
      rw [lookup_eq_none_iff]
      intro e mem
      have := fresh e mem
      have := inBody.below i seen
      simp only [bne_iff_ne]
      omega
    rw [unseen] at found
    exact inBody.locals i seen id found
  below i seen := Nat.lt_of_lt_of_le (inBody.below i seen) up

theorem used_trans {known known' : List Id} (used : uses ⊆ v ++ known) (le : known ⊆ known') :
    uses ⊆ v ++ known' := Subset.trans used (known_mono le)

theorem EmitsBody.locals_trans {v' : List Id} {tests' : Bool} {i : Instruction}
    (first : EmitsBody tests v next s a t) (second : EmitsBody tests' v' next' (t.wrote i) b u)
    (up : next ≤ next') :
    ∃ new, u.frame.locals = new ++ s.frame.locals ∧ ∀ e ∈ new, next ≤ e.1 := by
  grind [EmitsBody.locals,State.wrote_frame]

theorem EmitsBody.trans (first : EmitsBody false v next s a t)
    (second : EmitsBody false (a.top ++ v) next' t b u) (up : next ≤ next') :
    EmitsBody false v next s (a ++ b) u where
  code := by rw [second.code,first.code,code_append,List.append_assoc]
  functions := second.functions.trans first.functions
  params := second.params.trans first.params
  locals := by
    grind [EmitsBody.locals]
  known := Subset.trans first.known second.known
  tidy := second.tidy
  inside := by
    refine scoped_append.mpr ⟨first.inside.mono ?_,by simpa using second.inside⟩
    exact append_subset.mpr ⟨subset_append_left _ _,
      Subset.trans second.known (subset_append_right _ _)⟩
  proper := first.proper.append second.proper

theorem Emits.body (emitted : Emits v s b t) : EmitsBody tests v next s b t where
  code := emitted.code
  functions := emitted.functions
  params := congrArg Frame.params emitted.frame
  locals := ⟨[],by simp [emitted.frame],by simp⟩
  known := emitted.known
  tidy := emitted.tidy
  inside := emitted.inside
  proper := emitted.calm.proper

namespace Writes

variable {f : α → List Id} {first second : Lower Unit}

theorem of_pure : Writes tests visible uses next (pure ()) visible next := by
  intro v s a s' tidy inBody used ran
  cases ran
  exact ⟨.done,⟨by simp [code],rfl,rfl,⟨[],by simp,by simp⟩,Subset.refl _,tidy,
    trivial,trivial⟩,inBody⟩

theorem bind (one : Writes false visible uses next first visible' next')
    (two : Writes false visible' uses next' second visible'' next'') (up : next ≤ next') :
    Writes false visible uses next (first >>= fun _ => second) visible'' next'' := by
  intro v s x s' tidy inBody used ran
  obtain ⟨y,t,ranFirst,ranSecond⟩ := run_bind_eq_ok.mp ran
  obtain ⟨a,emitted,inBody'⟩ := one v s y t tidy inBody used ranFirst
  have used' : uses ⊆ a.top ++ v ++ t.known := by
    refine Subset.trans used (append_subset.mpr ⟨by simp,?_⟩)
    exact Subset.trans emitted.known (subset_append_right _ _)
  obtain ⟨b,emitted',inBody''⟩ := two _ t x s' emitted.tidy inBody' used' ranSecond
  exact ⟨a ++ b,emitted.trans emitted' up,by simpa using inBody''⟩

theorem after {first : Lower α} {second : α → Lower Unit} (one : Yields visible uses first f)
    (two : ∀ x, Writes false visible (f x ++ uses) next (second x) visible' next') :
    Writes false visible uses next (first >>= second) visible' next' := by
  intro v s x s' tidy inBody used ran
  obtain ⟨y,t,ranFirst,ranSecond⟩ := run_bind_eq_ok.mp ran
  obtain ⟨a,emitted,given⟩ := one.emits tidy inBody.toSees used ranFirst
  have used' : f y ++ uses ⊆ a.top ++ v ++ t.known := by
    refine append_subset.mpr ⟨given,Subset.trans used (append_subset.mpr ⟨by simp,?_⟩)⟩
    exact Subset.trans emitted.known (subset_append_right _ _)
  have inBody' : InBody (a.top ++ v) visible next t.frame := by
    rw [emitted.frame]
    exact inBody.widen (subset_append_right _ _) (Nat.le_refl _)
  obtain ⟨b,emitted',inBody''⟩ := two y _ t x s' emitted.tidy inBody' used' ranSecond
  exact ⟨a ++ b,emitted.body.trans emitted' (Nat.le_refl _),by simpa using inBody''⟩

theorem of_yields {work : Lower α} (h : Yields visible uses work f) :
    Writes false visible uses next (do let _ ← work) visible next :=
  .after h fun _ => .of_pure

theorem of_emit {op : Opcode} {operands : List UInt32} (plain : op.isPlain = true)
    (noTest : op ≠ .loopCondition) (noResult : (⟨op, operands⟩ : Instruction).result? = none)
    (mentioned : (⟨op, operands⟩ : Instruction).mentions ⊆ uses) :
    Writes false visible uses next (emit op operands) visible next := by
  intro v s a s' tidy inBody used ran
  cases emit_eq_ok ran
  refine ⟨.one ⟨op,operands⟩,⟨by simp [one,code],rfl,rfl,⟨[],by simp,by simp⟩,
    Subset.refl _,tidy.wrote _,⟨Subset.trans mentioned used,trivial⟩,
    ⟨plain,fun test => absurd test noTest,trivial⟩⟩,?_⟩
  simpa [one,top,noResult] using inBody

theorem weaken (h : Writes false visible uses next work visible' next') :
    Writes tests visible uses next work visible' next' := by
  intro v s a s' tidy inBody used ran
  obtain ⟨b,emitted,inBody'⟩ := h v s a s' tidy inBody used ran
  exact ⟨b,{ emitted with proper := emitted.proper.weaken tests },inBody'⟩

theorem later (h : Writes tests visible uses next work visible' next') (up : next' ≤ next'') :
    Writes tests visible uses next work visible' next'' := by
  intro v s a s' tidy inBody used ran
  obtain ⟨b,emitted,inBody'⟩ := h v s a s' tidy inBody used ran
  exact ⟨b,emitted,inBody'.widen (Subset.refl _) up⟩

theorem of_throw {e : Fault} : Writes tests visible uses next (throw e) visible' next' := by
  intro v s a s' tidy inBody used ran
  cases ran

theorem enclosed (h : Writes false visible uses next work visible' next') (up : next ≤ next') :
    Writes false visible uses next work visible next' := by
  intro v s a s' tidy inBody used ran
  obtain ⟨b,emitted,-⟩ := h v s a s' tidy inBody used ran
  exact ⟨b,emitted,(inBody.after emitted up).widen (subset_append_right _ _) (Nat.le_refl _)⟩

theorem of_branch {c : Id} (cond : c ∈ uses) (h : Writes false visible uses next yes visible' next')
    (up : next ≤ next') : Writes false visible uses next (branch c yes) visible next' := by
  intro v s a s' tidy inBody used ran
  obtain ⟨s₂,ranYes,rfl⟩ := run_branch ran
  obtain ⟨b,emitted,-⟩ := h v _ _ s₂ (tidy.wrote _) inBody used ranYes
  have seen : c ∈ v ++ s₂.known := used_trans used emitted.known cond
  have inBody' : InBody v visible next' s₂.frame :=
    InBody.after (s := s.wrote ⟨.ifThen,[c]⟩) inBody emitted up
  refine ⟨.ifThen c b .done,⟨by simp [emitted.code,code],emitted.functions,emitted.params,
    emitted.locals,emitted.known,emitted.tidy.wrote _,⟨seen,emitted.inside,trivial⟩,
    ⟨emitted.proper,trivial⟩⟩,inBody'⟩

/-- Two parts in a row and the marks around them are written as what `join` makes of two blocks. -/
theorem of_parts {o m e : Opcode} {xs ys zs : List UInt32} (join : Block → Block → Block)
    (coded : ∀ a b, (join a b).code = ⟨o, xs⟩ :: a.code ++ ⟨m, ys⟩ :: b.code ++ [⟨e, zs⟩])
    (bare : ∀ a b, (join a b).top = [])
    (within : ∀ {a b sight}, uses ⊆ sight → a.Scoped sight → b.Scoped sight → (join a b).Scoped sight)
    (proper : ∀ {a b}, a.Proper tests → b.Proper tests → (join a b).Proper false)
    (one : Writes tests visible uses next first visible' next') (up : next ≤ next')
    (two : Writes tests visible uses next' second visible'' next'') (up' : next' ≤ next'') :
    Writes false visible uses next (do emit o xs; first; emit m ys; second; emit e zs) visible next'' := by
  intro v s x s' tidy inBody used ran
  obtain ⟨s₂,s₄,ranFirst,ranSecond,rfl⟩ := run_parts ran
  obtain ⟨a,emitted,-⟩ := one v _ _ s₂ (tidy.wrote _) inBody used ranFirst
  have inBody' : InBody v visible next' s₂.frame := InBody.after (s := s.wrote ⟨o,xs⟩) inBody emitted up
  have used' := used_trans used emitted.known
  obtain ⟨b,emitted',-⟩ := two v _ _ s₄ (emitted.tidy.wrote _) inBody' used' ranSecond
  have inBody'' : InBody v visible next'' s₄.frame :=
    InBody.after (s := s₂.wrote ⟨m,ys⟩) inBody' emitted' up'
  have locals := emitted.locals_trans emitted' up
  refine ⟨join a b,⟨by simp [emitted'.code,emitted.code,coded],
    emitted'.functions.trans emitted.functions,emitted'.params.trans emitted.params,locals,
    Subset.trans emitted.known emitted'.known,emitted'.tidy.wrote _,
    within (used_trans used' emitted'.known) (emitted.inside.mono (known_mono emitted'.known))
      emitted'.inside,proper emitted.proper emitted'.proper⟩,?_⟩
  rw [bare]
  exact inBody''

theorem of_choice {c : Id} {no : Lower Unit} (cond : c ∈ uses)
    (first : Writes false visible uses next yes visible' next') (up : next ≤ next')
    (second : Writes false visible uses next' no visible'' next'') (up' : next' ≤ next'') :
    Writes false visible uses next (choice c yes no) visible next'' :=
  .of_parts (.ifElse c · · .done) (fun _ _ => by simp [code]) (fun _ _ => rfl)
    (fun seen inYes inNo => ⟨seen cond,inYes,inNo,trivial⟩) (fun yes no => ⟨yes,no,trivial⟩)
    first up second up'

theorem of_turns {tail : Bool} {body continuing : Lower Unit}
    (first : Writes true visible uses next body visible' next') (up : next ≤ next')
    (second : Writes true visible uses next' continuing visible'' next'') (up' : next' ≤ next'') :
    Writes false visible uses next (turns tail body continuing) visible next'' :=
  .of_parts (.loop tail · · .done) (fun _ _ => by simp [code]) (fun _ _ => rfl)
    (fun _ inBody inContinuing => ⟨inBody,inContinuing,trivial⟩)
    (fun body continuing => ⟨body,continuing,trivial⟩) first up second up'

/-- A part of a loop that begins with a condition of going on. -/
theorem of_test {cond : Lower Id} {rest : Lower Unit}
    (one : Yields visible uses cond fun id => [id])
    (two : Writes false visible uses next rest visible' next') : Writes true visible uses next (do
      let c ← cond
      emit .loopCondition [c]
      rest) visible' next' := by
  intro v s x s' tidy inBody used ran
  obtain ⟨c,s₁,ranCond,ran⟩ := run_bind_eq_ok.mp ran
  obtain ⟨_,s₂,tested,ranRest⟩ := run_bind_eq_ok.mp ran
  obtain ⟨a,emitted,given⟩ := one.emits tidy inBody.toSees used ranCond
  cases emit_eq_ok tested
  have inBody' : InBody (a.top ++ v) visible next (s₁.wrote ⟨.loopCondition,[c]⟩).frame := by
    rw [State.wrote_frame,emitted.frame]
    exact inBody.widen (subset_append_right _ _) (Nat.le_refl _)
  have used' : uses ⊆ a.top ++ v ++ s₁.known :=
    Subset.trans (used_trans used emitted.known) (by simp)
  obtain ⟨b,emitted',inBody''⟩ := two _ _ x s' (emitted.tidy.wrote _) inBody' used' ranRest
  have tests : ((⟨.loopCondition,[c]⟩ : Instruction).mentions) ⊆ a.top ++ (v ++ s'.known) := by
    have seen := known_mono (v := a.top ++ v) emitted'.known (given mem_cons_self)
    simpa [mentions,refersAt] using seen
  refine ⟨a ++ .plain ⟨.loopCondition,[c]⟩ b,⟨by simp [emitted'.code,emitted.code,code],
    emitted'.functions.trans emitted.functions,
    emitted'.params.trans (congrArg Frame.params emitted.frame),?_,
    Subset.trans emitted.known emitted'.known,emitted'.tidy,?_,?_⟩,?_⟩
  · obtain ⟨new,locals,fresh⟩ := emitted'.locals
    exact ⟨new,by rw [locals,State.wrote_frame,emitted.frame],fresh⟩
  · exact scoped_append.mpr ⟨emitted.inside.mono (known_mono emitted'.known),tests,
      by simpa [result?,resultPosition?,Opcode.hasResultType,Opcode.isType]
        using emitted'.inside⟩
  · exact emitted.calm.proper_append ⟨rfl,fun _ => rfl,emitted'.proper.weaken _⟩
  · simpa [top,result?,resultPosition?,Opcode.hasResultType,Opcode.isType] using inBody''

end Writes

theorem addName_declared {target : Id} {text : String} {s s' : State} {a : Unit} (tidy : s.Tidy)
    (nameable : target ∈ s.nameable) (ran : (addName target text).run s = .ok (a, s')) :
    Declared s [] s' := by
  unfold addName at ran
  split at ran
  · cases ran
    exact ⟨rfl,rfl,rfl,Subset.refl _,tidy,by simp⟩
  · cases ran
    refine ⟨rfl,rfl,rfl,Subset.refl _,{ tidy with names := ?_ },by simp⟩
    intro i mem
    rw [Array.toList_push,mem_append,mem_singleton] at mem
    rcases mem with old | rfl
    · exact tidy.names i old
    · exact ⟨rfl,nameable⟩

/-- A declaration brings one local in sight; its initial value does not see it. -/
theorem lowerDeclare_writes {p : Program} {i : Nat} {init : Option Typed.Expr}
    (inside : ∀ e ∈ init, e.locals ⊆ visible) (free : next ≤ i) :
    Writes false visible uses next (lowerDeclare p i init) (i :: visible) (i + 1) := by
  intro v s x s' tidy inBody used ran
  obtain ⟨_,_,got,ran⟩ := run_bind_eq_ok.mp ran
  cases got
  split at ran
  · cases ran
  · rename_i l _
    obtain ⟨id,s₁,ranVariable,ran⟩ := run_bind_eq_ok.mp ran
    obtain ⟨_,s₂,ranName,ran⟩ := run_bind_eq_ok.mp ran
    obtain ⟨_,s₃,ranFrame,ran⟩ := run_bind_eq_ok.mp ran
    obtain ⟨ptr,emitted⟩ := localVariable_emits (v := v) tidy ranVariable
    have nameable : id ∈ s₁.nameable := by
      simp [State.nameable,emitted.code,one,code,Pass.results,result?,
        resultPosition?,Opcode.hasResultType]
    have named := addName_declared emitted.tidy nameable ranName
    have declared : EmitsBody false v next s
          (.one ⟨.var,[ptr,id,.ofNat StorageClass.function.code]⟩) s₃ ∧
        InBody (id :: v) (i :: visible) (i + 1) s₃.frame := by
      have frame : s₃.frame = { s.frame with locals := (i, id) :: s.frame.locals } := by
        cases ranFrame
        simp [named.frame,emitted.frame]
      refine ⟨⟨?_,?_,by rw [frame],⟨[(i, id)],by rw [frame]; rfl,by simpa using free⟩,?_,?_,?_,
        emitted.calm.proper⟩,⟨⟨?_,?_⟩,?_⟩⟩
      · cases ranFrame
        simp [named.code,emitted.code]
      · cases ranFrame
        exact named.functions.trans emitted.functions
      · cases ranFrame
        exact Subset.trans emitted.known named.known
      · cases ranFrame
        exact { named.tidy with }
      · cases ranFrame
        exact emitted.inside.mono (known_mono named.known)
      · rw [frame]
        exact Subset.trans inBody.params (subset_cons_self _ _)
      · intro j seen r found
        rw [frame,lookup_cons] at found
        by_cases same : j = i
        · subst same
          obtain rfl : id = r := by simpa using found
          exact mem_cons_self
        · rw [(by simpa using same : (j == i) = false)] at found
          have old : j ∈ visible := (mem_cons.mp seen).resolve_left same
          exact mem_cons_of_mem _ (inBody.locals j old r found)
      · intro j seen
        rcases mem_cons.mp seen with rfl | old
        · exact Nat.lt_succ_self _
        · have := inBody.below j old
          omega
    obtain ⟨emitted',inBody'⟩ := declared
    cases init with
    | none =>
      cases ran
      exact ⟨_,emitted',inBody'⟩
    | some e =>
      have stored : Writes false (i :: visible) [id] (i + 1) (do
          let r ← lowerExpr p e
          emit .store [id,r]) (i :: visible) (i + 1) := by
        refine .after (lowerExpr_yields p e (Subset.trans (inside e rfl) (subset_cons_self _ _)) _)
          fun r => .of_emit rfl (by simp) rfl ?_
        simp [mentions,refersAt]
      obtain ⟨b,emitted'',inBody''⟩ := stored _ _ _ s' emitted'.tidy inBody' (by simp) ran
      exact ⟨_,emitted'.trans emitted'' (by omega),inBody''.widen (by simp [one,top,
        result?,resultPosition?,Opcode.hasResultType]) (Nat.le_refl _)⟩

section

variable (p : Program)
include p

theorem lowerStmt_if (c : Typed.Expr) (yes no : List Stmt) :
    lowerStmt p (.if_ c yes no) = (do
      let c ← lowerExpr p c
      if no.isEmpty then branch c (lowerStmts p yes)
      else choice c (lowerStmts p yes) (lowerStmts p no)) := by
  rw [lowerStmt]
  cases h : no.isEmpty <;> simp [branch,choice]

theorem lowerStmt_loopHead (cond step : Option Typed.Expr) (body : List Stmt) :
    lowerStmt p (.loop true cond step body) = turns false (match cond with
          | some c => do
            let c ← lowerExpr p c
            emit .loopCondition [c]
            lowerStmts p body
          | none => lowerStmts p body)
        (match step with
          | some e => do let _ ← lowerExpr p e
          | none => pure ()) := by
  rw [lowerStmt]
  cases cond <;> cases step <;> simp [turns]

theorem lowerStmt_loopTail (c : Typed.Expr) (step : Option Typed.Expr) (body : List Stmt) :
    lowerStmt p (.loop false (some c) step body) =
      turns true (lowerStmts p body) (do
        let c ← lowerExpr p c
        emit .loopCondition [c]
        pure ()) := by
  rw [lowerStmt]
  simp [turns]

theorem lowerContinuing_writes {visible : List Nat} (step : Option Expr) (uses : List Id)
    (next : Nat) :
    (∀ e ∈ step, e.locals ⊆ visible) → Writes true visible uses next (match step with
      | some e => do let _ ← lowerExpr p e
      | none => pure ()) visible next := by
  intro inside
  cases step with
  | none => exact .of_pure
  | some e => exact (Writes.of_yields (lowerExpr_yields p e (inside e rfl) _)).weaken

/-- Scoped statements are written as one block that mentions visible ids. -/
theorem lowerStmts_writes {ss : List Stmt} (valid : Typed.Scoped visible next ss visible' next')
    (uses : List Id) : Writes false visible uses next (lowerStmts p ss) visible' next' := by
  induction valid generalizing uses with
  | nil le =>
    rw [lowerStmts]
    exact Writes.of_pure.later le
  | expr inside _ ih =>
    rw [lowerStmts,lowerStmt]
    exact .bind (.of_yields (lowerExpr_yields p _ inside _)) (ih uses) (Nat.le_refl _)
  | declare inside free _ ih =>
    rw [lowerStmts,lowerStmt]
    exact .bind (lowerDeclare_writes inside free) (ih uses) (by omega)
  | if_ inside yes no _ ihYes ihNo ih =>
    rw [lowerStmts,lowerStmt_if]
    refine .bind (.after (lowerExpr_yields p _ inside _) fun c => ?_) (ih uses)
      (Nat.le_trans yes.next_le no.next_le)
    split
    · rename_i empty
      rw [List.isEmpty_iff] at empty
      subst empty
      exact (Writes.of_branch (by simp) (ihYes _) yes.next_le).later no.next_le
    · exact .of_choice (by simp) (ihYes _) yes.next_le (ihNo _) no.next_le
  | @loop visible next head cond step body _ inside after _ _ inCond inStep valid _ ihBody ih =>
    rw [lowerStmts]
    refine .bind ?_ (ih uses) valid.next_le
    cases head with
    | false =>
      cases cond with
      | none =>
        rw [lowerStmt]
        exact .of_throw
      | some c =>
        rw [lowerStmt_loopTail]
        exact .of_turns (ihBody _).weaken valid.next_le
          (.of_test (lowerExpr_yields p c (inCond c rfl) _) .of_pure) (Nat.le_refl _)
    | true =>
      rw [lowerStmt_loopHead]
      have continuing := lowerContinuing_writes p step uses after inStep
      cases cond with
      | none => exact .of_turns (ihBody _).weaken valid.next_le continuing (Nat.le_refl _)
      | some c =>
        exact .of_turns (.of_test (lowerExpr_yields p c (inCond c rfl) _) (ihBody _))
          valid.next_le continuing (Nat.le_refl _)
  | jump jumps _ ih =>
    rw [lowerStmts]
    refine .bind ?_ (ih uses) (Nat.le_refl _)
    simp only [mem_cons,not_mem_nil,or_false] at jumps
    rcases jumps with rfl | rfl | rfl
    all_goals
      rw [lowerStmt]
      exact .of_emit rfl (by simp) rfl (by simp [mentions])
  | @return_ visible next value _ _ _ inside _ ih =>
    rw [lowerStmts]
    refine .bind ?_ (ih uses) (Nat.le_refl _)
    cases value with
    | none =>
      rw [lowerStmt]
      exact .of_emit rfl (by simp) rfl (by simp [mentions])
    | some e =>
      rw [lowerStmt]
      refine .after (lowerExpr_yields p e (inside e rfl) _) fun r => .of_emit rfl (by simp) rfl ?_
      simp [mentions,refersAt]
  | block valid _ ihBody ih =>
    rw [lowerStmts,lowerStmt]
    refine .bind (.enclosed (ihBody _) valid.next_le) (ih uses) valid.next_le

end

end Statements

end Shading.Lowering
