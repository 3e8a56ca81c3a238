import Shading.Emission.Text
import Shading.Proofs.Outcome

/-! What each step of writing a function does to the writer. An operand is taken from the values that
wait and leaves all else alone; a value gets a name, or waits; an instruction is a few such steps. -/
namespace Shading.Emission
open List Bytecode

variable {e : Fault} {id : Id} {term t : Term} {u : Unit}

section Runs

variable {α β : Type} {w w' : Writer}

theorem run_bind_eq_ok {work : Write α} {next : α → Write β} {b : β} :
    (work >>= next).run w = .ok (b, w') ↔
      ∃ a t, work.run w = .ok (a, t) ∧ (next a).run t = .ok (b, w') := by
  rw [StateT.run_bind,Except.bind_eq_ok]
  simp

theorem run_lift_eq_ok {x : Except Fault α} {a : α} :
    (liftM x : Write α).run w = .ok (a, w') ↔ x = .ok a ∧ w' = w := by
  cases x with
  | error e => simp [liftM,monadLift,MonadLift.monadLift,StateT.lift,StateT.run,bind,Except.bind]
  | ok b =>
    simp [liftM,monadLift,MonadLift.monadLift,StateT.lift,StateT.run,bind,Except.bind,pure,
      Except.pure,eq_comm]

end Runs

/-- Values that waited were taken, and nothing else has changed. -/
structure Took (w w' : Writer) : Prop where
  used : w'.used = w.used
  terms : w'.terms = w.terms
  written : w'.written = w.written
  rest : w'.pending.Sublist w.pending

namespace Took

variable {w w' w'' : Writer}

theorem refl (w : Writer) : Took w w := ⟨rfl,rfl,rfl,.refl _⟩

theorem trans (first : Took w w') (second : Took w' w'') : Took w w'' where
  used := second.used.trans first.used
  terms := second.terms.trans first.terms
  written := second.written.trans first.written
  rest := second.rest.trans first.rest

end Took

/-- Work that only takes values. -/
def Takes {α : Type} (work : Write α) : Prop := ∀ w a w', work.run w = .ok (a, w') → Took w w'

namespace Takes

variable {α β : Type} {work : Write α}

theorem of_pure {a : α} : Takes (pure a) := by
  intro w b w' ran
  cases ran
  exact .refl w

theorem of_lift {x : Except Fault α} : Takes (liftM x) := by
  intro w a w' ran
  obtain ⟨-,rfl⟩ := run_lift_eq_ok.mp ran
  exact .refl _

theorem of_throw : Takes (throw e : Write α) := by
  intro w a w' ran
  cases ran

theorem bind {next : α → Write β} (first : Takes work) (second : ∀ a, Takes (next a)) :
    Takes (work >>= next) := by
  intro w b w' ran
  obtain ⟨a,t,ranFirst,ranSecond⟩ := run_bind_eq_ok.mp ran
  exact (first w a t ranFirst).trans (second a t b w' ranSecond)

theorem guard {c : Prop} [Decidable c] {fail : α → Write β} {rest : Write β} (passed : Takes rest) :
    Takes (if c then (throw e : Write α) >>= fail else rest) := by
  split
  · intro w b w' ran
    cases ran
  · exact passed

theorem of_extension (e : String) :
    Takes (modify fun w => { w with extensions := e :: w.extensions } : Write Unit) := by
  intro w u w' ran
  cases ran
  exact ⟨rfl,rfl,rfl,.refl _⟩

end Takes

section Operands

variable {s : Scene}

theorem takeTerm_takes (id : Id) : Takes (takeTerm s id) := by
  intro w t w' ran
  obtain ⟨_,_,got,ran⟩ := run_bind_eq_ok.mp ran
  cases got
  split at ran
  case h_1 =>
    obtain ⟨_,_,changed,ran⟩ := run_bind_eq_ok.mp ran
    cases changed
    cases ran
    exact ⟨rfl,rfl,rfl,eraseP_sublist⟩
  case h_2 => exact Takes.of_lift _ _ _ ran

theorem operandsIn_take :
    (∀ path id, Takes (operandIn s path id)) ∧ ∀ path ids, Takes (operandsIn s path ids) := by
  apply operandIn.mutual_induct s
    (fun path id => Takes (operandIn s path id)) (fun path ids => Takes (operandsIn s path ids))
  case case1 =>
    intro path id c known
    rw [operandIn]
    simp only [known]
    exact .of_pure
  case case2 =>
    grind [operandIn,takeTerm_takes]
  case case3 =>
    grind [operandIn,Takes.of_throw]
  case case4 =>
    intro path id noConst ty parts known outside ih
    rw [operandIn,noConst]
    dsimp only
    split
    case h_1 missing => cases known.symm.trans missing
    case h_2 found =>
      cases known.symm.trans found
      rw [dif_neg outside]
      exact .bind .of_lift fun type => ih.bind fun ts => .of_pure
  case case5 =>
    intro path
    rw [operandsIn]
    exact .of_pure
  case case6 =>
    intro path id ids ih ihs
    rw [operandsIn]
    exact ih.bind fun t => ihs.bind fun ts => .of_pure

theorem operand_takes (id : Id) : Takes (operand s id) := operandsIn_take.1 [] id

theorem operands_take (ids : List Id) : Takes (operands s ids) := operandsIn_take.2 [] ids

theorem condition_takes (cond : Option Id) : Takes (cond.mapM (operand s)) := by
  cases cond with
  | none => exact .of_pure
  | some id =>
    rw [Option.mapM_some,map_eq_pure_bind]
    exact (operand_takes id).bind fun t => .of_pure

theorem elementOf_takes (composite : Ty) (base : Term) (index : Id) :
    Takes (elementOf s composite base index) := by
  unfold elementOf
  split
  · exact .bind .of_lift fun suffix => .of_pure
  · exact (operand_takes index).bind fun t => .of_pure

theorem operand_known {w w' : Writer} (noConst : s.tables.constants.lookup id = none)
    (noComposite : s.tables.composites.lookup id = none) (absent : ∀ p ∈ w.pending, p.id ≠ id)
    (known : w.terms.lookup id = some term) (ran : (operand s id).run w = .ok (t, w')) :
    t = term := by
  have missing : w.pending.find? (fun p => p.id == id) = none := by simpa using absent
  have opened : operand s id = takeTerm s id := by
    grind [operand,operandIn]
  rw [opened] at ran
  obtain ⟨_,_,got,ran⟩ := run_bind_eq_ok.mp ran
  cases got
  grind [run_lift_eq_ok,require_eq_ok]

theorem valueTerm_takes (i : Instruction) : Takes (valueTerm s i) := by
  unfold valueTerm
  split
  case h_1 => exact (operand_takes _).bind fun place => .of_pure
  case h_2 =>
    exact .bind .of_lift fun op => .guard ((operand_takes _).bind fun l => (operand_takes _).bind fun r => .of_pure)
  case h_3 => exact .bind .of_lift fun op => .guard ((operand_takes _).bind fun t => .of_pure)
  case h_4 => exact .bind .of_lift fun ty => .guard ((operands_take _).bind fun ts => .of_pure)
  case h_5 =>
    refine .bind .of_lift fun ty => (operand_takes _).bind fun base => ?_
    dsimp only
    split
    · split
      · exact .of_pure
      · exact .bind .of_lift fun ty => .of_pure
    · exact .bind .of_lift fun ty => .of_pure
  case h_6 => exact .bind .of_lift fun ty => (operand_takes _).bind fun base => elementOf_takes ty base _
  case h_7 =>
    exact (operand_takes _).bind fun c => (operand_takes _).bind fun a => (operand_takes _).bind fun b => .of_pure
  case h_8 =>
    refine .bind .of_lift fun f => .bind .of_lift fun said => ?_
    obtain ⟨name,suffix⟩ := said
    have call : Takes (do
        let call := Term.apply name (← operands s (i.operandsFrom 3))
        return if suffix.isEmpty then call else .select call suffix) :=
      (operands_take _).bind fun ts => .of_pure
    dsimp only
    split
    · exact (Takes.of_extension _).bind fun _ => call
    · exact call
  case h_9 => exact .of_throw

end Operands

section Names

def Scene.typeOf (s : Scene) (id : Id) : Ty := (s.tables.valueTy id).toOption.getD .void

def Scene.valueStmt (s : Scene) (p : Pending) : Stmt :=
  .value p.id (s.typeOf p.id) (ownName p.id) p.term

/-- Values get names, in this order. -/
def Writer.name (w : Writer) (s : Scene) (ps : List Pending) : Writer :=
  { w with
    used := (ps.map fun p => ownName p.id).reverse ++ w.used
    terms := (ps.map fun p => (p.id, Term.name (ownName p.id))).reverse ++ w.terms
    written := (ps.map s.valueStmt).reverse ++ w.written }

variable {s : Scene} {w w' : Writer}

theorem Writer.name_cons (p : Pending) (ps : List Pending) :
    w.name s (p :: ps) = (w.name s [p]).name s ps := by
  simp [name]

theorem nameValue_run (isCall : Bool) (ran : (nameValue s id term).run w = .ok (u, w')) :
    w' = w.name s [⟨id, term, isCall⟩] := by
  obtain ⟨ty,_,looked,named⟩ := run_bind_eq_ok.mp ran
  obtain ⟨typed,rfl⟩ := run_lift_eq_ok.mp looked
  have isTy : s.typeOf id = ty := by simp [Scene.typeOf,typed,Except.toOption]
  cases named
  simp [Writer.name,Scene.valueStmt,isTy,freshName]

theorem nameAll_run {ps : List Pending} {u : PUnit}
    (ran : (ps.forM fun p => nameValue s p.id p.term).run w = .ok (u, w')) :
    w' = w.name s ps := by
  induction ps generalizing w with
  | nil =>
    cases ran
    rfl
  | cons p ps ih =>
    obtain ⟨_,t,first,rest⟩ := run_bind_eq_ok.mp ran
    rw [Writer.name_cons p ps,← nameValue_run p.isCall first]
    exact ih rest

def Writer.settled (w : Writer) (s : Scene) : Writer := { w with pending := [] }.name s w.pending

theorem settle_run (ran : (settle s).run w = .ok (u, w')) : w' = w.settled s := by
  obtain ⟨_,_,got,ran⟩ := run_bind_eq_ok.mp ran
  cases got
  obtain ⟨_,_,changed,ran⟩ := run_bind_eq_ok.mp ran
  cases changed
  exact nameAll_run ran

theorem written_of_settled {l : Local} {before : List Stmt}
    (last : (w.settled s).written = .local_ l none :: before) :
    w.written = .local_ l none :: before := by
  cases waiting : w.pending.reverse with
  | nil => simpa [Writer.settled,Writer.name,reverse_eq_nil_iff.mp waiting] using last
  | cons p ps =>
    simp [Writer.settled,Writer.name,← map_reverse,waiting,Scene.valueStmt] at last

theorem settleIndex_run {index : Id} (ran : (settleIndex s index).run w = .ok (u, w')) :
    w' = w ∨ w' = w.settled s ∨
    ∃ before p after, w.pending = before ++ p :: after ∧
      w' = { w with pending := before ++ after }.name s [p] := by
  obtain ⟨_,_,got,ran⟩ := run_bind_eq_ok.mp ran
  cases got
  dsimp only at ran
  split at ran
  case h_1 =>
    cases ran
    exact .inl rfl
  case h_2 p found =>
    obtain ⟨isIt,before,after,parts,others⟩ := find?_eq_some_iff_append.mp found
    have erased : w.pending.eraseP (fun q => q.id == index) = before ++ after := by
      rw [parts,eraseP_append_right _ (by simpa using others)]
      simp [isIt]
    split at ran
    case isTrue => exact .inr (.inl (settle_run ran))
    case isFalse =>
      obtain ⟨_,_,changed,named⟩ := run_bind_eq_ok.mp ran
      cases changed
      refine .inr (.inr ⟨before,p,after,parts,?_⟩)
      rw [← erased]
      exact nameValue_run p.isCall named

end Names

section Blocks

variable {s : Scene} {w w' : Writer} {α : Type}

theorem apart_run {work : Write α} {block : List Stmt} {a : α}
    (ran : (apart work).run w = .ok ((block, a), w')) :
    ∃ t, work.run { w with written := [] } = .ok (a, t) ∧ block = t.written.reverse ∧
      w' = { t with written := w.written } := by
  obtain ⟨_,_,got,ran⟩ := run_bind_eq_ok.mp ran
  cases got
  obtain ⟨_,_,cleared,ran⟩ := run_bind_eq_ok.mp ran
  cases cleared
  obtain ⟨b,t,worked,ran⟩ := run_bind_eq_ok.mp ran
  obtain ⟨_,_,got,ran⟩ := run_bind_eq_ok.mp ran
  cases got
  cases ran
  exact ⟨t,worked,rfl,rfl⟩

theorem takeLoopInit_run {node : Node} {init : Option (Local × Term)}
    (ran : (takeLoopInit s node).run w = .ok (init, w')) : (init = none ∧ w' = w) ∨
    ∃ l v before, w.written = .local_ l (some v) :: before ∧ init = some (l, v) ∧
      w' = { w with written := before } := by
  obtain ⟨_,_,got,ran⟩ := run_bind_eq_ok.mp ran
  cases got
  split at ran
  case h_1 l v before _ _ _ _ _ at_ _ =>
    split at ran
    case isTrue only =>
      simp_all
    case isFalse =>
      cases ran
      exact .inl ⟨rfl,rfl⟩
  case h_2 =>
    cases ran
    exact .inl ⟨rfl,rfl⟩

theorem valueTerm_of_no_result {i : Instruction} (none : i.op.hasResultType = false) :
    valueTerm s i = throw (.unexpected i.op) := by
  unfold valueTerm
  split
  case h_9 => rfl
  all_goals
    rename_i op
    rw [op] at none
    cases none

theorem takeFlag_run {name : String} (ran : takeFlag.run w = .ok (name, w')) :
    name = freshFlag w.used ∧ w' = { w with used := name :: w.used } := by
  cases ran
  exact ⟨rfl,rfl⟩

theorem writeFunction_run {name : String} {f : Function} {text : FunctionText}
    (ran : (writeFunction s name f).run w = .ok (text, w')) :
    ∃ params nodes returnTy w₁ w₂, (f.params.mapM (writeParam s)).run w = .ok (params, w₁) ∧
      controlTree name f.body = .ok nodes ∧ (writeNodes s nodes).run w₁ = .ok ((), w₂) ∧
      (settle s).run w₂ = .ok ((), w') ∧ text = ⟨returnTy, name, params, w'.written.reverse⟩ := by
  obtain ⟨params,w₁,ranParams,next⟩ := run_bind_eq_ok.mp ran
  obtain ⟨nodes,w₁',ranTree,next⟩ := run_bind_eq_ok.mp next
  obtain ⟨built,same⟩ := run_lift_eq_ok.mp ranTree
  rw [same] at next
  obtain ⟨_,w₂,ranNodes,next⟩ := run_bind_eq_ok.mp next
  obtain ⟨_,w₃,ranSettle,next⟩ := run_bind_eq_ok.mp next
  obtain ⟨returnTy,w₃',ranTy,done⟩ := run_bind_eq_ok.mp next
  obtain ⟨-,same'⟩ := run_lift_eq_ok.mp ranTy
  rw [same'] at done
  cases done
  exact ⟨params,nodes,returnTy,w₁,w₂,ranParams,built,ranNodes,ranSettle,rfl⟩

end Blocks

end Shading.Emission
