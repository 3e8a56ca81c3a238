import Shading.Proofs.Bytecode.Definitions
import Shading.Proofs.Emission.ControlTree
import Shading.Proofs.Emission.FreshName
import Shading.Proofs.Emission.Writing

/-! The names in a function. Every name that a statement gives was taken before, and none is taken twice:
an id's own name can only be taken for that id, as long as ids are told apart and no name that readers know
is the own name of an id. -/
namespace Shading.Emission
open List Bytecode Writer
open Pass (results)

variable {i : Instruction} {id : Id}

def initNames (init : Option (Local × Term)) : List String := (init.map fun (l, _) => l.name).toList

mutual

/-- The names that a statement gives. -/
def Stmt.names : Stmt → List String
  | .local_ l _ => [l.name]
  | .value _ _ name _ => [name]
  | .if_ _ yes => namesOf yes
  | .ifElse _ yes no => namesOf yes ++ namesOf no
  | .loop init _ _ body => initNames init ++ namesOf body
  | .doWhile body _ => namesOf body
  | .flag name => [name]
  | .resume _ body => namesOf body
  | .act _ | .exit _ | .raise _ | .return_ _ | .discard | .break_ | .continue_ => []

def namesOf : List Stmt → List String
  | [] => []
  | s :: ss => s.names ++ namesOf ss

end

@[simp] theorem namesOf_nil : namesOf [] = [] := by rw [namesOf]

@[simp] theorem namesOf_cons (st : Stmt) (sts : List Stmt) :
    namesOf (st :: sts) = st.names ++ namesOf sts := by rw [namesOf]

@[simp] theorem namesOf_append (a b : List Stmt) : namesOf (a ++ b) = namesOf a ++ namesOf b := by
  induction a with
  | nil => simp
  | cons st a ih => simp [ih]

theorem namesOf_reverse (sts : List Stmt) : (namesOf sts.reverse).Perm (namesOf sts) := by
  induction sts with
  | nil => simp
  | cons st sts ih =>
    rw [reverse_cons,namesOf_append,namesOf_cons]
    simpa using (ih.append_right st.names).trans perm_append_comm

theorem Term.text_name (name : String) : (Term.name name).text = name := by
  simp [Term.text,Term.phrase]
  rfl

def Writer.ahead (w : Writer) (rest : List Id) : List Id := rest ++ w.pending.map Pending.id

def Scene.NoConstant (s : Scene) (id : Id) : Prop :=
  s.tables.constants.lookup id = none ∧ s.tables.composites.lookup id = none

/-- No name that readers know is the own name of one of the ids. -/
def Scene.Apart (s : Scene) (ids : List Id) : Prop :=
  ∀ id name, s.tables.names.lookup id = some name → ∀ k ∈ ids, name ≠ ownName k

/-- What holds while a function is written whose ids are `all`, of which `rest` are ahead. -/
structure Tidy (s : Scene) (all rest : List Id) (w : Writer) : Prop where
  used : w.used.Nodup
  distinct : (w.ahead rest).Nodup
  within : w.ahead rest ⊆ all
  free : ∀ k ∈ w.ahead rest, ownName k ∉ w.used
  /-- A declaration that may still get its first value is known by its name. -/
  place : ∀ l, Stmt.local_ l none ∈ w.written →
    s.NoConstant l.id ∧ l.id ∉ w.ahead rest ∧ w.terms.lookup l.id = some (.name l.name)

/-- From one state to another, names are given: those `given` away and those written were `owed`, written
before, or newly taken. -/
structure Grown (s : Scene) (all rest rest' : List Id) (owed given : List String) (w w' : Writer) :
    Prop where
  tidy : Tidy s all rest' w'
  ahead : w'.ahead rest' ⊆ w.ahead rest
  terms : ∀ k ∉ w.ahead rest, w'.terms.lookup k = w.terms.lookup k
  names : ∃ new, w'.used = new ++ w.used ∧ (∀ n ∈ new, Target.isReserved n = false) ∧
    (given ++ namesOf w'.written).Subperm (new ++ owed ++ namesOf w.written)

/-- Every run of the work leads to such a state. -/
def Names {α : Type} (s : Scene) (all rest rest' : List Id) (owed : List String) (work : Write α)
    (given : α → List String) : Prop :=
  ∀ w a w', Tidy s all rest w → work.run w = .ok (a, w') →
    Grown s all rest rest' owed (given a) w w'

section Grown

variable {s : Scene} {all rest rest' rest'' : List Id} {owed given given' : List String}
  {w w' w'' : Writer}

theorem nodup_of_subperm {α : Type} {l l' : List α} (nodup : l'.Nodup) (sub : l.Subperm l') : l.Nodup := by
  obtain ⟨m,perm,sub⟩ := sub
  exact perm.nodup_iff.mp (nodup.sublist sub)

/-- Names stay where they are when ids are only moved or left out. -/
theorem Grown.of_ahead (tidy : Tidy s all rest w) (sub : (w'.ahead rest').Subperm (w.ahead rest))
    (used : w'.used = w.used) (terms : w'.terms = w.terms) (written : w'.written = w.written) :
    Grown s all rest rest' owed owed w w' := by
  refine ⟨⟨used ▸ tidy.used,nodup_of_subperm tidy.distinct sub,Subset.trans sub.subset tidy.within,
    fun k mem => used ▸ tidy.free k (sub.subset mem),fun l at_ => ?_⟩,sub.subset,fun k _ => by rw [terms],
    [],used,by simp,written ▸ List.Subperm.refl _⟩
  obtain ⟨plain,later,place⟩ := tidy.place l (written ▸ at_)
  exact ⟨plain,fun mem => later (sub.subset mem),terms ▸ place⟩

theorem Grown.refl (tidy : Tidy s all rest w) : Grown s all rest rest owed owed w w :=
  .of_ahead tidy (.refl _) rfl rfl rfl

theorem Grown.trans (first : Grown s all rest rest' owed given w w')
    (second : Grown s all rest' rest'' given given' w' w'') :
    Grown s all rest rest'' owed given' w w'' where
  tidy := second.tidy
  ahead := Subset.trans second.ahead first.ahead
  terms := fun k later =>
    (second.terms k fun mem => later (first.ahead mem)).trans (first.terms k later)
  names := by
    grind [Grown.names,subperm_append_left,List.Subperm.trans]

theorem Grown.of_sublist (tidy : Tidy s all rest w) (sub : rest'.Sublist rest) :
    Grown s all rest rest' owed owed w w :=
  .of_ahead tidy (sub.append_right _).subperm rfl rfl rfl

theorem Grown.of_took (tidy : Tidy s all rest w) (took : Took w w') :
    Grown s all rest rest owed owed w w' :=
  .of_ahead tidy ((took.rest.map Pending.id).append_left rest).subperm took.used took.terms took.written

theorem Grown.of_setTerm (term : Term) (owed : List String) (tidy : Tidy s all (id :: rest) w) :
    Grown s all (id :: rest) rest owed owed w { w with terms := (id, term) :: w.terms } := by
  have kept : ∀ k ∉ w.ahead (id :: rest), ((id, term) :: w.terms).lookup k = w.terms.lookup k := by
    grind [Writer.ahead]
  have dropped : Grown s all (id :: rest) rest owed owed w w := .of_sublist tidy (sublist_cons_self id rest)
  refine ⟨{ dropped.tidy with place := fun l at_ => ?_ },dropped.ahead,kept,dropped.names⟩
  obtain ⟨plain,later,place⟩ := tidy.place l at_
  exact ⟨plain,(dropped.tidy.place l at_).2.1,(kept l.id later).trans place⟩

theorem Grown.of_take {name : String} (tidy : Tidy s all rest w) (fresh : name ∉ w.used)
    (reserved : Target.isReserved name = false) (others : ∀ k ∈ w.ahead rest, name ≠ ownName k) :
    Grown s all rest rest owed (name :: owed) w { w with used := name :: w.used } := by
  refine ⟨⟨nodup_cons.mpr ⟨fresh,tidy.used⟩,tidy.distinct,tidy.within,?_,tidy.place⟩,
    Subset.refl _,fun _ _ => rfl,[name],by simp,by simpa using reserved,?_⟩
  · intro k mem taken
    rcases mem_cons.mp taken with same | old
    · exact others k mem same.symm
    · exact tidy.free k mem old
  · simpa using List.Subperm.refl _

theorem Grown.of_push (st : Stmt) (tidy : Tidy s all rest w)
    (declared : ∀ l, st = .local_ l none →
      s.NoConstant l.id ∧ l.id ∉ w.ahead rest ∧ w.terms.lookup l.id = some (.name l.name)) :
    Grown s all rest rest (st.names ++ owed) owed w { w with written := st :: w.written } := by
  refine ⟨{ tidy with place := ?_ },Subset.refl _,fun _ _ => rfl,[],by simp,by simp,?_⟩
  · intro l at_
    rcases mem_cons.mp at_ with same | old
    · exact declared l same.symm
    · exact tidy.place l old
  · rw [nil_append,namesOf_cons,← List.append_assoc]
    exact (perm_append_comm.append_right _).subperm

theorem Grown.of_freshName (known : Option String) (owed : List String)
    (tidy : Tidy s all (id :: rest) w)
    (apart : ∀ name, known = some name → ∀ k ∈ all, name ≠ ownName k) :
    let name := freshName w.used id known
    Grown s all (id :: rest) rest owed (name :: owed) w
      { w with used := name :: w.used, terms := (id, .name name) :: w.terms } := by
  have termed := Grown.of_setTerm (.name (freshName w.used id known)) owed tidy
  have distinct : id ∉ w.ahead rest := (nodup_cons.mp tidy.distinct).1
  refine termed.trans (.of_take termed.tidy ?_ freshName_not_isReserved ?_)
  · exact freshName_not_mem (tidy.free id (by simp [Writer.ahead]))
  · intro k mem same
    rcases freshName_eq_ownName same with rfl | spoken
    · exact distinct mem
    · exact apart _ spoken k (termed.tidy.within mem) rfl

theorem Grown.of_name (ps : List Pending) (tidy : Tidy s all (ps.map Pending.id ++ rest) w) :
    Grown s all (ps.map Pending.id ++ rest) rest owed owed w (w.name s ps) := by
  induction ps generalizing w with
  | nil => exact .refl tidy
  | cons p ps ih =>
    have named : Grown s all (p.id :: (ps.map Pending.id ++ rest)) (ps.map Pending.id ++ rest) owed owed
        w (w.name s [p]) := by
      have taken := Grown.of_freshName none owed tidy (by simp)
      exact taken.trans (.of_push (s.valueStmt p) taken.tidy (by simp [Scene.valueStmt]))
    rw [name_cons]
    exact named.trans (ih named.tidy)

/-- Values that wait may be named, wherever they stand. -/
theorem Grown.of_release {ps qs : List Pending} (tidy : Tidy s all rest w) (parts : w.pending.Perm (ps ++ qs)) :
    Grown s all rest rest owed owed w (Writer.name { w with pending := qs } s ps) := by
  have same : (Writer.ahead { w with pending := qs } (ps.map Pending.id ++ rest)).Perm (w.ahead rest) := by
    grind [Writer.ahead]
  have moved : Grown s all rest (ps.map Pending.id ++ rest) owed owed w { w with pending := qs } :=
    .of_ahead tidy same.subperm rfl rfl rfl
  exact moved.trans (.of_name ps moved.tidy)

theorem Grown.of_settled (tidy : Tidy s all rest w) : Grown s all rest rest owed owed w (w.settled s) :=
  .of_release tidy (.of_eq (append_nil _).symm)

end Grown

section Work

variable {s : Scene} {all rest rest' rest'' : List Id} {owed : List String} {α β : Type}

namespace Names

variable {given : α → List String}

theorem of_pure {a : α} (same : given a = owed) : Names s all rest rest owed (pure a) given := by
  intro w b w' tidy ran
  cases ran
  rw [same]
  exact .refl tidy

theorem of_throw {e : Fault} : Names s all rest rest' owed (throw e) given := by
  intro w a w' _ ran
  cases ran

variable {work : Write α} {f : α → List String}

theorem bind {next : α → Write β} {g : β → List String} (first : Names s all rest rest' owed work f)
    (second : ∀ a, Names s all rest' rest'' (f a) (next a) g) :
    Names s all rest rest'' owed (work >>= next) g := by
  intro w b w' tidy ran
  obtain ⟨a,t,ranFirst,ranSecond⟩ := run_bind_eq_ok.mp ran
  have grown := first w a t tidy ranFirst
  exact grown.trans (second a t b w' grown.tidy ranSecond)

theorem of_sublist (sub : rest'.Sublist rest) (names : Names s all rest' rest'' owed work f) :
    Names s all rest rest'' owed work f :=
  fun w a w' tidy ran =>
    have dropped := Grown.of_sublist tidy sub
    dropped.trans (names w a w' dropped.tidy ran)

theorem of_drop (ids : List Id) (names : Names s all rest rest' owed work f) :
    Names s all (ids ++ rest) rest' owed work f :=
  of_sublist (sublist_append_right ids rest) names

theorem of_takes (takes : Takes work) : Names s all rest rest owed work fun _ => owed := by
  intro w a w' tidy ran
  exact .of_took tidy (takes w a w' ran)

theorem of_lift {x : Except Fault α} : Names s all rest rest owed (liftM x) fun _ => owed :=
  of_takes .of_lift

theorem of_operand (id : Id) : Names s all rest rest owed (operand s id) fun _ => owed :=
  of_takes (operand_takes id)

theorem of_operands (ids : List Id) : Names s all rest rest owed (operands s ids) fun _ => owed :=
  of_takes (operands_take ids)

theorem of_valueTerm (i : Instruction) : Names s all rest rest owed (valueTerm s i) fun _ => owed :=
  of_takes (valueTerm_takes i)

theorem of_settle : Names s all rest rest owed (settle s) fun _ => owed := by
  intro w u w' tidy ran
  cases settle_run ran
  exact .of_settled tidy

theorem of_push (st : Stmt) (other : ∀ l, st ≠ .local_ l none) :
    Names s all rest rest (st.names ++ owed) (push st) fun _ => owed := by
  intro w u w' tidy ran
  cases ran
  exact .of_push st tidy fun l same => absurd same (other l)

theorem of_nameValue (id : Id) (term : Term) :
    Names s all (id :: rest) rest owed (nameValue s id term) fun _ => owed := by
  intro w u w' tidy ran
  cases nameValue_run false ran
  exact Grown.of_name [⟨id,term,false⟩] tidy

theorem of_setTerm (id : Id) (term : Term) :
    Names s all (id :: rest) rest owed (setTerm id term) fun _ => owed := by
  intro w u w' tidy ran
  cases ran
  exact .of_setTerm term owed tidy

theorem of_wait (p : Pending) : Names s all (p.id :: rest) rest owed (wait p) fun _ => owed := by
  intro w u w' tidy ran
  cases ran
  have same : (Writer.ahead { w with pending := w.pending ++ [p] } rest).Perm (w.ahead (p.id :: rest)) := by
    simpa [Writer.ahead] using perm_append_singleton p.id (rest ++ w.pending.map Pending.id)
  exact .of_ahead tidy same.subperm rfl rfl rfl

theorem of_keepValue (id : Id) (term : Term) :
    Names s all (id :: rest) rest owed (keepValue s id term) fun _ => owed := by
  unfold keepValue
  split
  · exact .of_drop [id] (.of_pure rfl)
  · exact .of_wait ⟨id,term,false⟩
  · exact .of_nameValue id term

theorem of_writeDeclaration (apart : s.Apart all) (plain : s.NoConstant id) :
    Names s all (id :: rest) rest owed (writeDeclaration s id) fun _ => owed := by
  intro w u w' tidy ran
  obtain ⟨ty,_,pointee,named⟩ := run_bind_eq_ok.mp ran
  obtain ⟨-,rfl⟩ := run_lift_eq_ok.mp pointee
  cases named
  have taken := Grown.of_freshName _ owed tidy fun name known => apart id name known
  refine taken.trans (.of_push (.local_ ⟨id,ty,_⟩ none) taken.tidy ?_)
  rintro l ⟨⟩
  exact ⟨plain,(nodup_cons.mp tidy.distinct).1,lookup_cons_self⟩

theorem of_writeParam (apart : s.Apart all) (p : Param) :
    Names s all (p.id :: rest) rest owed (writeParam s p) fun text => text.name :: owed := by
  intro w text w' tidy ran
  obtain ⟨pointee,_,required,next⟩ := run_bind_eq_ok.mp ran
  obtain ⟨-,rfl⟩ := run_lift_eq_ok.mp required
  obtain ⟨ty,_,typed,named⟩ := run_bind_eq_ok.mp next
  obtain ⟨-,rfl⟩ := run_lift_eq_ok.mp typed
  cases named
  exact .of_freshName _ owed tidy fun name known => apart p.id name known

theorem of_settleIndex (index : Id) :
    Names s all rest rest owed (settleIndex s index) fun _ => owed := by
  intro w u w' tidy ran
  rcases settleIndex_run ran with rfl | rfl | ⟨before,p,after,parts,rfl⟩
  · exact .refl tidy
  · exact .of_settled tidy
  · exact .of_release tidy (parts ▸ perm_middle : w.pending.Perm ([p] ++ (before ++ after)))

theorem of_indexChain (ty : Ty) (term : Term) (indices : List Id) :
    Names s all rest rest owed (indexChain s ty term indices) fun _ => owed := by
  induction indices generalizing ty term with
  | nil => exact .of_pure rfl
  | cons index indices ih =>
    rw [indexChain]
    exact (of_settleIndex index).bind fun _ =>
      .bind (.of_takes (elementOf_takes ty term index)) fun next =>
        of_lift.bind fun element => ih element next

/-- The name of a declaration stays when it gets its first value. -/
theorem of_writeStore (pointer value : Id) :
    Names s all rest rest owed (writeStore s pointer value) fun _ => owed := by
  intro w u w' tidy ran
  obtain ⟨t,w₁,ranPointer,ran⟩ := run_bind_eq_ok.mp ran
  obtain ⟨v,w₂,ranValue,ran⟩ := run_bind_eq_ok.mp ran
  obtain ⟨_,_,ranSettle,put⟩ := run_bind_eq_ok.mp ran
  cases settle_run ranSettle
  cases put
  have took := operand_takes pointer _ _ _ ranPointer
  have took' := operand_takes value _ _ _ ranValue
  have grown₂ : Grown s all rest rest owed owed w w₂ := .of_took tidy (took.trans took')
  have grown := grown₂.trans (.of_settled grown₂.tidy)
  have assigned := grown.trans (.of_push (.act (.assign pointer t v)) grown.tidy (by simp))
  dsimp only
  split
  case h_1 l before at_ =>
    split
    case isTrue same =>
      have at₂ : w₂.written = .local_ l none :: before := written_of_settled at_
      have at₀ : w.written = .local_ l none :: before := by rw [← took.written,← took'.written,at₂]
      obtain ⟨plain,later,place⟩ := tidy.place l (by simp [at₀])
      have known : t = .name l.name :=
        operand_known (same ▸ plain.1) (same ▸ plain.2)
          (fun p mem isIt => later (by simp [Writer.ahead]; exact .inr ⟨p,mem,isIt.trans same.symm⟩))
          (same ▸ place) ranPointer
      refine grown.trans ⟨{ grown.tidy with place := ?_ },Subset.refl _,fun _ _ => rfl,[],by simp,by simp,?_⟩
      · intro l' at'
        refine grown.tidy.place l' ?_
        rw [at_]
        exact mem_cons_of_mem _ (by simpa using at')
      · rw [known,Term.text_name,at_]
        simpa [Stmt.names] using List.Subperm.refl _
    case isFalse => exact assigned
  case h_2 => exact assigned

theorem of_writeCall :
    Names s all (i.operand 1 :: rest) rest owed (writeCall s i) fun _ => owed := by
  unfold writeCall
  refine of_lift.bind fun name => (of_operands _).bind fun args => of_settle.bind fun _ => ?_
  dsimp only
  split
  · exact .of_drop [i.operand 1] (.of_push _ (by simp))
  · exact of_wait ⟨i.operand 1,_,true⟩
  · exact of_nameValue _ _

end Names

def Filled (i : Instruction) : Prop := i.op.hasResultType = true → i.result? = some (i.operand 1)

namespace Names

theorem of_writeInstruction (apart : s.Apart all) (filled : Filled i)
    (plain : i.op = .var → s.NoConstant (i.operand 1)) :
    Names s all (i.result?.toList ++ rest) rest owed (writeInstruction s i) fun _ => owed := by
  have result {op : Opcode} (isOp : i.op = op) (typed : op.hasResultType = true) :
      i.result?.toList ++ rest = i.operand 1 :: rest := by
    rw [filled (isOp ▸ typed)]
    rfl
  unfold writeInstruction
  split
  case h_1 => exact of_drop _ (of_pure rfl)
  case h_2 op =>
    rw [result op rfl]
    exact of_writeDeclaration apart (plain op)
  case h_3 => exact of_drop _ (of_writeStore _ _)
  case h_4 op =>
    rw [result op rfl]
    exact of_lift.bind fun ty => (of_operand _).bind fun base => (of_indexChain _ _ _).bind fun place =>
      of_setTerm _ place
  case h_5 op =>
    rw [result op rfl]
    exact of_writeCall
  case h_7 => exact of_drop _ ((of_operand _).bind fun v => of_settle.bind fun _ => of_push _ (by simp))
  case h_11 =>
    by_cases typed : i.op.hasResultType = true
    · rw [result rfl typed]
      exact (of_valueTerm i).bind fun t => of_keepValue _ t
    · rw [valueTerm_of_no_result (by simpa using typed)]
      intro w u w' _ ran
      cases ran
  all_goals exact of_drop _ (of_settle.bind fun _ => of_push _ (by simp))

variable {work : Write α} {f : α → List String}

theorem of_apart (names : Names s all rest rest' owed work f) :
    Names s all rest rest' owed (apart work) fun (block, a) => namesOf block ++ f a := by
  intro w (block, a) w' tidy ran
  obtain ⟨t,worked,rfl,rfl⟩ := apart_run ran
  have start : Tidy s all rest { w with written := [] } := { tidy with place := by simp }
  obtain ⟨inner,ahead,terms,new,used,reserved,sub⟩ := names _ _ _ start worked
  refine ⟨{ inner with place := ?_ },ahead,terms,new,used,reserved,?_⟩
  · intro l at_
    obtain ⟨plain,later,place⟩ := tidy.place l at_
    exact ⟨plain,fun mem => later (ahead mem),(terms l.id later).trans place⟩
  · refine ((subperm_append_right _).mpr ?_)
    rw [namesOf_nil,append_nil] at sub
    exact (((namesOf_reverse t.written).append_right _).trans perm_append_comm).subperm.trans sub

theorem of_takeLoopInit (node : Node) :
    Names s all rest rest owed (takeLoopInit s node) fun init => initNames init ++ owed := by
  intro w init w' tidy ran
  rcases takeLoopInit_run ran with ⟨rfl,rfl⟩ | ⟨l,v,before,at_,rfl,rfl⟩
  · exact .refl tidy
  · refine ⟨{ tidy with place := ?_ },Subset.refl _,fun _ _ => rfl,[],by simp,by simp,?_⟩
    · intro l' at'
      exact tidy.place l' (by rw [at_]; exact mem_cons_of_mem _ at')
    · rw [at_]
      simpa [initNames,Stmt.names] using perm_middle.symm.subperm

theorem of_subperm {owed' : List String} (sub : owed'.Subperm owed)
    (names : Names s all rest rest' owed' work f) : Names s all rest rest' owed work f := by
  intro w a w' tidy ran
  obtain ⟨tidy',ahead,terms,new,used,reserved,given⟩ := names w a w' tidy ran
  refine ⟨tidy',ahead,terms,new,used,reserved,given.trans ?_⟩
  exact (subperm_append_right _).mpr ((subperm_append_left _).mpr sub)

theorem of_takeFlag : Names s all rest rest owed takeFlag fun name => name :: owed := by
  intro w name w' tidy ran
  obtain ⟨rfl,rfl⟩ := takeFlag_run ran
  obtain ⟨n,isFlag,free⟩ := freshFlag_eq w.used
  rw [isFlag]
  exact .of_take tidy free (flagName_not_isReserved n) fun k _ => flagName_ne_ownName n k

end Names

def LoopParts.names (l : LoopParts) : List String :=
  namesOf l.continuing ++ (namesOf l.body ++ namesOf l.header)

theorem namesOf_exitUnless (cond : Option Term) : namesOf (exitUnless cond) = [] := by
  cases cond <;> simp [exitUnless,Stmt.names]

theorem LoopParts.namesOf_turn (l : LoopParts) (flag : Option String) :
    (namesOf (l.turn flag)).Subperm l.names := by
  have both : (namesOf l.header ++ namesOf l.body).Subperm (namesOf l.body ++ namesOf l.header) :=
    perm_append_comm.subperm
  cases flag with
  | none =>
    simp only [turn,names,namesOf_append,namesOf_exitUnless,append_nil,nil_append]
    exact both.trans (sublist_append_right _ _).subperm
  | some f =>
    simp only [turn,names,namesOf_append,namesOf_cons,namesOf_nil,namesOf_exitUnless,Stmt.names,
      append_nil,List.append_assoc]
    exact (subperm_append_left _).mpr both

namespace Names

theorem of_pushSome (st : Stmt) (other : ∀ l, st ≠ .local_ l none) {parts : List String}
    (sub : st.names.Subperm parts) :
    Names s all rest rest (parts ++ owed) (push st) fun _ => owed :=
  of_subperm ((subperm_append_right _).mpr sub) (of_push st other)

theorem of_writeFlagged (l : LoopParts) :
    Names s all rest rest (l.names ++ owed) (writeFlagged l) fun _ => owed := by
  unfold writeFlagged
  split
  · exact of_pushSome _ (by simp) (l.namesOf_turn none)
  · exact of_takeFlag.bind fun flag =>
      .bind (f := fun _ => l.names ++ owed) (of_push (.flag flag) (by simp)) fun _ =>
        of_pushSome _ (by simp) (l.namesOf_turn (some flag))

theorem LoopParts.namesOf_body (l : LoopParts) : (namesOf l.body).Subperm l.names := by
  rw [LoopParts.names]
  exact ((sublist_append_left _ _).trans (sublist_append_right _ _)).subperm

theorem of_writeLoop (init : Option (Local × Term)) (l : LoopParts) :
    Names s all rest rest (initNames init ++ (l.names ++ owed)) (writeLoop init l) fun _ => owed := by
  unfold writeLoop
  split
  case h_1 steps known =>
    rw [← List.append_assoc]
    exact of_pushSome _ (by simp) ((subperm_append_left _).mpr (LoopParts.namesOf_body l))
  case h_2 =>
    dsimp only
    split
    -- What starts the loop is written before it, if there is anything.
    · refine Names.bind (of_push _ (by simp)) fun _ => ?_
      split
      · split
        · exact of_throw
        · exact of_pushSome _ (by simp) (LoopParts.namesOf_body l)
      · exact of_writeFlagged l
    · refine of_subperm (sublist_append_right _ _).subperm ?_
      split
      · split
        · exact of_throw
        · exact of_pushSome _ (by simp) (LoopParts.namesOf_body l)
      · exact of_writeFlagged l

end Names

def Scene.Admits (s : Scene) (i : Instruction) : Prop :=
  Filled i ∧ (i.op = .var → s.NoConstant (i.operand 1))

namespace Names

theorem of_condition (cond : Option Id) :
    Names s all rest rest owed (cond.mapM (operand s)) fun _ => owed :=
  of_takes (condition_takes cond)

mutual

theorem of_writeNode (apart : s.Apart all) : ∀ (n : Node) (rest : List Id) (owed : List String),
    (∀ i ∈ n.plains, s.Admits i) →
    Names s all (results n.plains ++ rest) rest owed (writeNode s n) fun _ => owed
  | .plain i, rest, owed, admits => by
    rw [writeNode]
    have result : results (Node.plain i).plains = i.result?.toList := by
      rw [Node.plains,results_cons]
      simp [results]
    obtain ⟨filled,plain⟩ := admits i (by simp [Node.plains])
    rw [result]
    exact of_writeInstruction apart filled plain
  | .if_ cond yes no, rest, owed, admits => by
    rw [writeNode,Node.plains,results_append,List.append_assoc]
    rw [Node.plains,forall_mem_append] at admits
    refine (of_operand _).bind fun c => of_settle.bind fun _ => ?_
    refine .bind (of_apart ((of_writeNodes apart yes _ _ admits.1).bind fun _ => of_settle)) fun (yes', _) => ?_
    dsimp only
    split
    case isTrue empty =>
      refine of_drop _ ?_
      exact of_push (.if_ c yes') (by simp)
    case isFalse =>
      refine .bind (of_apart ((of_writeNodes apart no _ _ admits.2).bind fun _ => of_settle)) fun (no', _) => ?_
      dsimp only
      rw [← List.append_assoc]
      exact of_pushSome (.ifElse c yes' no') (by simp) perm_append_comm.subperm
  | .loop tail header cond body continuing tailCond, rest, owed, admits => by
    rw [writeNode,Node.plains,results_append,results_append,List.append_assoc,List.append_assoc]
    rw [Node.plains,forall_mem_append,forall_mem_append] at admits
    refine of_settle.bind fun _ => (of_takeLoopInit _).bind fun init => ?_
    refine .bind (of_apart ((of_writeNodes apart header _ _ admits.1).bind fun _ => of_condition cond))
      fun (header', c) => ?_
    refine .bind (of_apart (of_settle.bind fun _ => (of_writeNodes apart body _ _ admits.2.1).bind
      fun _ => of_settle)) fun (body', _) => ?_
    refine .bind (of_apart ((of_writeNodes apart continuing _ _ admits.2.2).bind fun _ =>
      (of_condition tailCond).bind fun d => of_settle.bind fun _ => of_pure rfl)) fun (continuing', d) => ?_
    refine of_subperm ?_ (of_writeLoop init ⟨tail,header',c,body',continuing',d⟩)
    grind [LoopParts.names,List.Perm.subperm]

theorem of_writeNodes (apart : s.Apart all) : ∀ (ns : List Node) (rest : List Id) (owed : List String),
    (∀ i ∈ plainsOf ns, s.Admits i) →
    Names s all (results (plainsOf ns) ++ rest) rest owed (writeNodes s ns) fun _ => owed
  | [], rest, owed, _ => by
    rw [writeNodes,plainsOf_nil]
    exact of_pure rfl
  | n :: ns, rest, owed, admits => by
    rw [plainsOf_cons,forall_mem_append] at admits
    rw [writeNodes,plainsOf_cons,results_append,List.append_assoc]
    exact (of_writeNode apart n _ owed admits.1).bind fun _ => of_writeNodes apart ns rest owed admits.2

end

theorem of_writeParams (apart : s.Apart all) (ps : List Param) (owed : List String) :
    Names s all (ps.map Param.id ++ rest) rest owed (ps.mapM (writeParam s))
      fun texts => (texts.map ParamText.name).reverse ++ owed := by
  induction ps generalizing owed with
  | nil => exact of_pure rfl
  | cons p ps ih =>
    rw [mapM_cons]
    refine (of_writeParam apart p).bind fun text => (ih _).bind fun texts => of_pure ?_
    simp

end Names

end Work

def FunctionText.names (f : FunctionText) : List String :=
  f.params.map ParamText.name ++ namesOf f.body

theorem writeFunction_names {s : Scene} {name : String} {f : Function} {used : List String}
    {text : FunctionText} {w' : Writer} (apart : s.Apart (f.params.map Param.id ++ results f.body))
    (distinct : (f.params.map Param.id ++ results f.body).Nodup)
    (free : ∀ k ∈ f.params.map Param.id ++ results f.body, ownName k ∉ used)
    (admits : ∀ i ∈ f.body, s.Admits i) (nodup : used.Nodup)
    (ran : (writeFunction s name f).run { used } = .ok (text, w')) :
    (text.names ++ used).Nodup ∧ ∀ n ∈ text.names, Target.isReserved n = false := by
  have start : Tidy s (f.params.map Param.id ++ results f.body) (f.params.map Param.id ++ results f.body)
      { used } :=
    ⟨nodup,by simpa [Writer.ahead] using distinct,by simp [Writer.ahead],
      by simpa [Writer.ahead] using free,by simp⟩
  obtain ⟨params,nodes,returnTy,w₁,w₂,ranParams,built,ranNodes,ranSettle,rfl⟩ :=
    writeFunction_run ran
  have inBody := controlTree_plains built
  have grown₁ := Names.of_writeParams apart f.params [] _ _ _ start ranParams
  have names₂ := Names.of_writeNodes apart nodes [] ((params.map ParamText.name).reverse ++ [])
    fun i mem => admits i (inBody.subset mem)
  rw [append_nil] at names₂
  have grown₂ := Names.of_sublist (inBody.filterMap Instruction.result?) names₂ _ _ _ grown₁.tidy ranNodes
  have grown := (grown₁.trans grown₂).trans (Names.of_settle _ _ _ grown₂.tidy ranSettle)
  obtain ⟨new,taken,reserved,sub⟩ := grown.names
  have within : (FunctionText.names ⟨returnTy,name,params,w'.written.reverse⟩).Subperm new := by
    refine (((reverse_perm _).symm.append (namesOf_reverse _)).subperm.trans ?_)
    simpa using sub
  have all : (new ++ used).Nodup := taken ▸ grown.tidy.used
  refine ⟨nodup_of_subperm all ((subperm_append_right _).mpr within),fun n mem => ?_⟩
  exact reserved n (within.subset mem)

end Shading.Emission
