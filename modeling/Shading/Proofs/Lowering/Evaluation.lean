import Shading.Proofs.Lowering.ExprMeaning

/-! Lowering keeps the meaning of expressions. Wherever the code of an expression stands in a module, it
computes the value that evaluation gives, and leaves memory as evaluation leaves it. -/
namespace Shading.Bytecode
open List Pass Execution

variable {x : Id} {ty : Ty} {c : Const} {i : Instruction} {t : Outline}

section Shapes

variable {V : Type} {m : Machine V} {l : List Instruction}

theorem shapes_declared (unique : (results l).Nodup) (ordered : Ordered [] l) (here : i ∈ l)
    (type : i.op.isType = true) (result : i.result? = some x) (g : Globals V) :
    (l.foldl (Globals.declare m) g).shapes x =
      .node i.op i.literals (i.references.map (l.foldl (Globals.declare m) g).shapes) := by
  obtain ⟨before,after,rfl⟩ := append_of_mem here
  have states : i.op.isNote = false := by
    generalize i.op = op at type
    cases op <;> first | rfl | cases type
  have first : i.references ⊆ results before := by simpa using (ordered_append.mp ordered).2.1 states
  rw [results_append] at unique
  obtain ⟨-,second,apart⟩ := nodup_append.mp unique
  have parts : i.references.map ((before ++ i :: after).foldl (Globals.declare m) g).shapes =
      i.references.map (before.foldl (Globals.declare m) g).shapes := by
    grind [map_congr_left,Globals.foldl_declare_of_not_mem]
  have later : x ∉ results after := by
    rw [results_cons,result] at second
    exact (nodup_cons.mp second).1
  rw [parts,foldl_append,foldl_cons,(Globals.foldl_declare_of_not_mem after later).1]
  have other : i.op ≠ .var ∧ i.op ≠ .constant ∧ i.op ≠ .constantComposite := by
    generalize i.op = op at type
    cases op <;> first | (cases type; done) | simp
  rw [Globals.declare,result]
  simp [other,type]

theorem Denotes.typed {t : Id} {kind : Scalar} (denotes : Denotes l t (.scalar kind)) :
    Typed l t kind := by
  cases denotes with
  | bool here => exact ⟨_,here,rfl⟩
  | int here => exact ⟨_,here,rfl⟩
  | uint here => exact ⟨_,here,rfl⟩
  | float here => exact ⟨_,here,rfl⟩

theorem Denotes.shape (unique : (results l).Nodup) (ordered : Ordered [] l)
    (denotes : Denotes l x ty) (g : Globals V) :
    (l.foldl (Globals.declare m) g).shapes x = ty.shape := by
  have declared {i : Instruction} {y : Id} (here : i ∈ l) (type : i.op.isType = true)
      (result : i.result? = some y) := shapes_declared (m := m) unique ordered here type result g
  induction denotes with
  | void here | bool here | int here | uint here | float here | sampler here =>
    rw [declared here rfl rfl]
    rfl
  | @vector _ _ k n here _ ih =>
    rw [declared here rfl rfl]
    exact congrArg (fun part => Shape.node .typeVector [.ofNat n] [part]) ih
  | @matrix _ _ c r here _ ih =>
    rw [declared here rfl rfl]
    exact congrArg (fun part => Shape.node .typeMatrix [.ofNat c] [part]) ih
  | @array _ _ _ n here _ ih =>
    rw [declared here rfl rfl]
    exact congrArg (fun part => Shape.node .typeArray [.ofNat n] [part]) ih

end Shapes

theorem Outline.Shaped.mem_outside (shaped : t.Shaped) (mem : i ∈ t.code)
    (declares : i.op.isDeclaration = true) : i ∈ t.outside := by
  rcases Outline.mem_code.mp mem with here | ⟨r,routine,here⟩
  · exact here
  · exfalso
    have inner : i = r.head ∨ i ∈ r.params ∨ i ∈ r.body.code ∨ i = ⟨.functionEnd,[]⟩ := by
      simpa [Routine.code] using here
    have proper := shaped.routines r routine
    rcases inner with rfl | param | body | rfl
    · rw [proper.head] at declares
      cases declares
    · rw [proper.params i param] at declares
      cases declares
    · have ordinary := proper.body.isBody i body
      generalize i.op = op at declares ordinary
      cases op <;> first | (cases declares; done) | cases ordinary
    · cases declares

theorem Denotes.outside (shaped : t.Shaped) (denotes : Denotes t.code x ty) :
    Denotes t.outside x ty := by
  refine denotes.rename (f := id) fun i here type => ?_
  rw [renameIds_id]
  exact shaped.mem_outside here (by simp [Opcode.isDeclaration,type])

theorem Outline.Valid.before (valid : t.Valid) :
    (results t.outside).Nodup ∧ Ordered [] t.outside := by
  have unique := valid.unique
  grind [Outline.Valid.ordered,Outline.code,results_append,ordered_append]

end Shading.Bytecode

namespace Shading.Lowering
open List Bytecode Typed Execution Pass

/-- What was written is part of the module. -/
structure State.Within (s : State) (t : Outline) : Prop where
  decls : s.decls.toList.Sublist t.outside
  code : s.code.toList.Sublist t.inside

section Evaluation

variable {V : Type} {m : Machine V} {t : Outline} {depth : Nat} {s : State} {place : VarRef → Cell × List V}
  {σ : Execution.State V} {x : Id}

def State.Older (s : State) (depth : Nat) (c : Cell) : Prop :=
  ∀ x, c = .frame depth x → x ∈ results s.written

/-- The state of a call in the module, where it knows constants and what was declared: variables may lie
anywhere in memory that was there before. -/
structure Enters (m : Machine V) (t : Outline) (depth : Nat) (s : State) (place : VarRef → Cell × List V)
    (σ : Execution.State V) : Prop where
  constants : ∀ {i x}, i ∈ t.outside → i.op = .constant → i.result? = some x →
    σ.env x = (t.globals m).data x
  vars : ∀ {v x storage}, s.directory.var? v = some (x, storage) → x ∈ results s.written ∧
    σ.env x = .pointer (place v).1 (place v).2 ∧ s.Older depth (place v).1

section Within

variable {s' : State} {b : Block}

theorem State.Within.subset (within : s'.Within t) : s'.written ⊆ t.code :=
  append_subset.mpr ⟨Subset.trans within.decls.subset (subset_append_left _ _),
    Subset.trans within.code.subset (subset_append_right _ _)⟩

theorem State.Within.nodup (within : s'.Within t) (valid : t.Valid)
    (added : s'.code.toList = s.code.toList ++ b.code) : (results b.code).Nodup := by
  have unique := valid.unique
  rw [Outline.code,results_append] at unique
  have code : (results s'.code.toList).Sublist (results t.inside) := within.code.filterMap _
  have nodup := (nodup_append.mp unique).2.1.sublist code
  rw [added,results_append] at nodup
  exact (nodup_append.mp nodup).2.1

theorem State.Within.fresh (within : s'.Within t) (valid : t.Valid) (more : s.Continues s')
    (added : s'.code.toList = s.code.toList ++ b.code) (here : x ∈ results b.code) :
    x ∉ results t.outside ∧ x ∉ results s.written := by
  have unique := valid.unique
  rw [Outline.code,results_append] at unique
  obtain ⟨-,inner,apart⟩ := nodup_append.mp unique
  have code : (results s'.code.toList).Sublist (results t.inside) := within.code.filterMap _
  have new : x ∈ results s'.code.toList := by
    rw [added,results_append]
    exact mem_append_right _ here
  have outside : x ∉ results t.outside := fun before => apart x before x (code.subset new) rfl
  refine ⟨outside,fun before => ?_⟩
  rw [State.written,results_append,mem_append] at before
  rcases before with before | before
  · obtain ⟨new,grown,-⟩ := more.decls
    have kept : (results s.decls.toList).Sublist (results t.outside) := by
      refine Sublist.filterMap _ (Sublist.trans ?_ within.decls)
      rw [grown]
      exact sublist_append_left _ _
    exact outside (kept.subset before)
  · have nodup := inner.sublist code
    rw [added,results_append] at nodup
    exact (nodup_append.mp nodup).2.2 x before x here rfl

end Within

theorem Enters.constant (enters : Enters m t depth s place σ) (shaped : t.Shaped) (valid : t.Valid)
    {c : Const} (constant : IsConstant t.code c x) : σ.env x = .value (m.scalar c) := by
  obtain ⟨unique,ordered⟩ := valid.before
  obtain ⟨ty,here,denotes⟩ := constant
  have here := shaped.mem_outside here rfl
  rw [enters.constants here rfl rfl]
  exact Known.datum unique ordered
    ⟨ty,c.bits,[],here,c.kind,(denotes.outside shaped).typed,c.ofBits_bits.symm⟩ _

/-- The code of an expression computes what evaluation gives, and does to the memory that was there before
what evaluation does. -/
theorem lowerExpr_evaluates (lawful : m.Lawful) {p : Program} {Γ : Env} {e : Expr} (typed : e.WellTyped Γ)
    (callFree : e.calls = []) {x : Id} {s' : State} (ran : (lowerExpr p e).run s = .ok (x, s'))
    (documented : s.Documented) (shaped : t.Shaped) (valid : t.Valid) (within : s'.Within t)
    (enters : Enters m t depth s place σ) (bound : Nat) :
    ∃ code b σ', s'.code.toList = s.code.toList ++ code ∧ Block.ofCode? code = some b ∧
      t.run m (bound + 1) depth b σ = some (.next, σ') ∧
      σ'.env x = .value (e.eval m place σ.memory).1 ∧
      (∀ c, s.Older depth c → σ'.memory c = (e.eval m place σ.memory).2 c) ∧
      ∀ y ∉ results code, σ'.env y = σ.env y := by
  obtain ⟨unique,ordered⟩ := valid.before
  let W : World V := {
    machine := m, code := t.code, shapes := (t.globals m).shapes, depth, directory := s.directory, place,
    lawful, shaped := fun denotes => (denotes.outside shaped).shape unique ordered _ }
  have produces : Produces W.code (· = W.directory) (lowerExpr p e) (Means W e) :=
    lowerExpr_means e typed callFree
  obtain ⟨-,-,b,added,means⟩ := produces.made ran documented rfl within.subset
  have fresh {y : Id} (here : y ∈ results b.code) :=
    within.fresh valid (produces.adds s x s' ran) added here
  have clean : W.Clean (results b.code) := by
    refine ⟨within.nodup valid added,fun y here => ⟨?_,?_⟩⟩
    · rintro (⟨c,ty,constant,-⟩ | ⟨v,storage,found⟩)
      · exact (fresh here).1 (mem_results.mpr ⟨_,shaped.mem_outside constant rfl,rfl⟩)
      · exact (fresh here).2 (enters.vars found).1
    · rintro ⟨v,⟨z,storage⟩,found,same⟩
      exact (fresh here).2 ((enters.vars found).2.2 y same.symm)
  have fits : W.Fits [] σ σ.memory := by
    refine ⟨fun constant => enters.constant shaped valid constant,fun found => (enters.vars found).2.1,
      fun c _ inside => ?_,fun c _ => rfl⟩
    obtain ⟨y,here,-⟩ := inside
    cases here
  obtain ⟨σ',ends,changes,given⟩ := means.runs clean [] σ σ.memory (by simp) fits
  have proper : b.Proper false := ends.calm.proper
  refine ⟨b.code,b,σ',added,Block.ofCode?_code proper,ends.exec _ _,
    given _ mem_cons_self,fun c older => changes.memory c ?_ ?_,changes.env⟩
  · rintro ⟨y,here,-⟩
    cases here
  · rintro ⟨y,here,same⟩
    exact (fresh here).2 (older y same)

end Evaluation

/-- Scalars, and vectors of them. -/
inductive Value where
  | scalar (c : Const)
  | vector (components : List Const)
  deriving DecidableEq

namespace Value

def truth : Value → Bool
  | .scalar c => c.toBool
  | .vector _ => false

def components : Value → List Const
  | .scalar c => [c]
  | .vector cs => cs

def ofComponents : List Const → Value
  | [c] => .scalar c
  | cs => .vector cs

def position : Value → Nat
  | .scalar (.int n) => n.toInt.toNat
  | _ => 0

def part (v : Value) : List Value → Value
  | [] => v
  | i :: _ => .scalar (v.components.getD i.position (.bool false))

def update (v : Value) : List Value → Value → Value
  | [], x => x
  | i :: _, .scalar c => ofComponents (v.components.set i.position c)
  | _ :: _, .vector _ => v

def binary (op : BinaryOp) (a b : Value) : Value :=
  match op with
  | .logicalAnd => if a.truth then b else a
  | .logicalOr => if a.truth then a else b
  | op => ofComponents (List.zipWith (fun x y => (Const.binary? op x y).getD (.bool false)) a.components b.components)

def unary (op : UnaryOp) (a : Value) : Value :=
  match op with
  | .not => .scalar (.bool !a.truth)
  | op => ofComponents (a.components.map fun x => (Const.unary? op x).getD (.bool false))

def construct (kind : Option Scalar) (arguments : List Value) : Value :=
  ofComponents ((arguments.flatMap components).map fun c => (kind.map c.cast).getD c)

theorem binary_scalar {op : BinaryOp} {b : Const} (computed : Const.binary? op a b = some c) :
    binary op (.scalar a) (.scalar b) = .scalar c := by
  unfold binary
  split
  case h_3 => simp [components,computed,ofComponents]
  all_goals
    cases a <;> cases b <;>
      simp [Const.binary?,Const.boolOp?,Const.intOp?,Const.uintOp?,Const.floatOp?,
        BinaryOp.isComparison,BinaryOp.isShift] at computed
    subst computed
    rename_i x y
    cases x <;> rfl

theorem unary_scalar {op : UnaryOp} (computed : Const.unary? op a = some c) :
    unary op (.scalar a) = .scalar c := by
  unfold unary
  split
  · cases a <;> cases computed
    rfl
  · simp [components,computed,ofComponents]

/-- A machine that knows vectors. -/
def machine : Machine Value where
  scalar := .scalar
  truth := truth
  apply op shape literals arguments :=
    match op, literals, arguments with
    | .binary, w :: _, [a, b] => ((BinaryOp.ofCode? w.toNat).map fun op => binary op a b).getD a
    | .unary, w :: _, [a] => ((UnaryOp.ofCode? w.toNat).map fun op => unary op a).getD a
    | .construct, _, arguments => construct shape.scalar? arguments
    | .swizzle, ws, [a] => ofComponents (ws.filterMap fun w => a.components[w.toNat]?)
    | .extract, _, [a, i] => a.part [i]
    | _, _, _ => .vector []
  unset _ := .vector []
  part := part
  update := update
  truth_scalar _ := rfl
  apply_binary operator computed _ := by simp [operator, binary_scalar computed]
  apply_unary operator computed _ := by simp [operator, unary_scalar computed]
  apply_construct typed := by simp [typed, construct, components, ofComponents]

theorem machine_lawful : machine.Lawful where
  part_nil _ := rfl
  update_nil _ _ := rfl
  extract _ _ _ := rfl
  logicalAnd _ _ _ := rfl
  logicalOr _ _ _ := rfl
  not _ _ := rfl

end Value

namespace Guarded

/-- `b && 0.0 < (v.zx.y += 1.0)`. -/
def expr : Expr :=
  .binary .logicalAnd (.var (.global "b") .bool) (.binary .lt (.const (.float ⟨0⟩))
      (.assign (some .add)
        (.swizzle (.swizzle (.var (.global "v") (.vector .float 4)) [2, 0] (.ofSize .float 2)) [1]
          (.ofSize .float 1))
        (.const (.float ⟨0x3f800000⟩))) .bool) .bool

def env : Env where
  var? v := if v = .global "b" then some (.bool, .plain) else
    if v = .global "v" then some (.vector .float 4, .plain) else none
  function? _ := none

/-- A function was begun, in a module with two variables. -/
def before : State where
  nextId := 11
  decls := #[⟨.typeVoid, [1]⟩, ⟨.typeFunction, [2, 1]⟩, ⟨.typeBool, [3]⟩, ⟨.typePointer, [4, 3, 3]⟩,
    ⟨.var, [4, 5, 3]⟩, ⟨.typeFloat, [6]⟩, ⟨.typeVector, [7, 6, 4]⟩, ⟨.typePointer, [8, 3, 7]⟩,
    ⟨.var, [8, 9, 3]⟩]
  code := #[⟨.function, [1, 10, 2]⟩]
  types := [(.vector .float 4, 7), (.float, 6), (.bool, 3), (.void, 1)]
  pointers := [((.priv, 7), 8), ((.priv, 3), 4)]
  globals := [("v", 9, .priv), ("b", 5, .priv)]

def block : Block :=
  .plain ⟨.var, [11, 12, 4]⟩ (.plain ⟨.load, [3, 13, 5]⟩ (.plain ⟨.store, [12, 13]⟩
    (.ifThen 13 (.plain ⟨.load, [7, 16, 9]⟩ (.plain ⟨.swizzle, [6, 17, 16, 0]⟩
      (.plain ⟨.binary, [6, 18, 0, 17, 15]⟩ (.plain ⟨.accessChain, [21, 22, 9, 20]⟩
        (.plain ⟨.store, [22, 18]⟩ (.plain ⟨.binary, [3, 23, 5, 14, 18]⟩
          (.plain ⟨.store, [12, 23]⟩ .done))))))) (.plain ⟨.load, [3, 24, 12]⟩ .done))))

/-- What is declared after the expression was lowered. -/
def declarations : List Instruction :=
  before.decls.toList ++ [⟨.typePointer, [11, 4, 3]⟩, ⟨.constant, [6, 14, 0]⟩,
    ⟨.constant, [6, 15, 0x3f800000]⟩, ⟨.typeInt, [19, 1]⟩, ⟨.constant, [19, 20, 0]⟩,
    ⟨.typePointer, [21, 3, 6]⟩]

/-- The module with the function, which returns then. -/
def outline : Outline :=
  ⟨⟨.entryPoint, [10]⟩ :: declarations, [⟨⟨.function, [1, 10, 2]⟩, [], block ++ .one ⟨.ret, []⟩⟩]⟩

def place : VarRef → Cell × List Value
  | .global "b" => (.shared 0, [])
  | _ => (.shared 1, [])

def contents (n : Nat) : Value :=
  if n = 0 then .scalar (.bool true) else .vector (List.replicate 4 (.float ⟨0x3f800000⟩))

theorem expr_wellTyped : expr.WellTyped env := by
  have whole : (Expr.var (.global "v") (.vector .float 4)).WellTyped env := .var rfl
  have pair : (Expr.swizzle _ [2,0] (.ofSize .float 2)).WellTyped env :=
    .swizzle whole rfl (by decide) (by decide) (by decide)
  have target : (Expr.swizzle _ [1] (.ofSize .float 1)).WellTyped env :=
    .swizzle pair rfl (by decide) (by decide) (by decide)
  exact .binary (.var rfl) (.binary .const (.assign target .const ⟨by decide,by decide,_,rfl⟩ rfl) rfl) rfl

theorem expr_lowered : ∃ after, (lowerExpr default expr).run before = .ok (24, after) ∧
    after.decls.toList = declarations ∧ after.code.toList = before.code.toList ++ block.code := by
  have found : ((lowerExpr default expr).run before).toOption.any (fun (x, after) =>
      x == 24 && after.decls.toList == declarations &&
        after.code.toList == before.code.toList ++ block.code) = true := by cbv
  obtain ⟨⟨x,after⟩,ran,same⟩ := Except.exists_of_any found
  simp only [Bool.and_eq_true,beq_iff_eq] at same
  exact ⟨after,same.1.1 ▸ ran,same.1.2,same.2⟩

theorem before_documented : before.Documented where
  types := by
    have float : Denotes before.decls.toList 6 .float := .float (by decide)
    have vector : Denotes before.decls.toList 7 (.vector .float 4) := .vector (by decide) float
    simpa [before] using ⟨vector,float,.bool (by decide),.void (by decide)⟩
  pointers := by decide
  constants found := by cases found

theorem outline_shaped : outline.Shaped := by
  refine ⟨by decide,forall_mem_singleton.mpr ⟨rfl,rfl,by simp,?_⟩⟩
  simp [block,Block.Proper,Block.one,Opcode.isPlain]

theorem outline_valid : outline.Valid :=
  ((Outline.findings_eq_nil_iff outline_shaped 25).mp (by decide)).1

theorem entered : Enters Value.machine outline 0 before place (outline.start Value.machine contents) where
  constants _ _ _ := rfl
  vars {v x storage} found := by
    have known : (v = .global "v" ∧ x = 9) ∨ (v = .global "b" ∧ x = 5) := by
      cases v with
      | global name =>
        grind [State.directory,Directory.var?,before]
      | local_ i => cases found
      | param i => cases found
    rcases known with ⟨rfl,rfl⟩ | ⟨rfl,rfl⟩
    · exact ⟨by decide,rfl,fun _ same => by cases same⟩
    · exact ⟨by decide,rfl,fun _ same => by cases same⟩

end Guarded

/-- The first component grows, for the flag is set. -/
theorem guarded_assignment_evaluates : Value.machine.Lawful ∧ Guarded.expr.WellTyped Guarded.env ∧
    Guarded.expr.calls = [] ∧ Guarded.before.Documented ∧ Guarded.outline.Shaped ∧ Guarded.outline.Valid ∧
    Enters Value.machine Guarded.outline 0 Guarded.before Guarded.place
      (Guarded.outline.start Value.machine Guarded.contents) ∧
    ∃ after code b σ', (lowerExpr default Guarded.expr).run Guarded.before = .ok (24, after) ∧
      after.Within Guarded.outline ∧ after.code.toList = Guarded.before.code.toList ++ code ∧
      Block.ofCode? code = some b ∧
      Guarded.outline.run Value.machine 1 0 b (Guarded.outline.start Value.machine Guarded.contents) =
        some (.next, σ') ∧
      σ'.env 24 = .value (.scalar (.bool true)) ∧
      σ'.memory (.shared 1) = .vector [.float ⟨0x40000000⟩, .float ⟨0x3f800000⟩, .float ⟨0x3f800000⟩,
        .float ⟨0x3f800000⟩] := by
  obtain ⟨after,ran,declared,added⟩ := Guarded.expr_lowered
  have within : after.Within Guarded.outline := by
    refine ⟨?_,?_⟩
    · rw [declared]
      exact sublist_cons_self _ _
    · rw [added]
      decide
  obtain ⟨code,b,σ',same,read,run,value,memory,-⟩ := lowerExpr_evaluates Value.machine_lawful
    Guarded.expr_wellTyped rfl ran Guarded.before_documented Guarded.outline_shaped Guarded.outline_valid
    within Guarded.entered 0
  refine ⟨Value.machine_lawful,Guarded.expr_wellTyped,rfl,Guarded.before_documented,
    Guarded.outline_shaped,Guarded.outline_valid,Guarded.entered,after,code,b,σ',ran,within,same,
    read,run,value.trans ?_,(memory (.shared 1) nofun).trans ?_⟩
  · exact congrArg Datum.value (by decide)
  · decide

end Shading.Lowering
