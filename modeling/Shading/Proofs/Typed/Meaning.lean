import Shading.Proofs.Bytecode.Execution
import Shading.Typed.Tree

/-! What expressions without calls of functions mean. Operands are evaluated from left to right, `&&`, `||`
and `?:` evaluate what they need only, and the target of an assignment is found before its value is
computed. Values and operations are those of a machine. -/
namespace Shading
open Bytecode Execution

namespace Ty

def scalarShape : Scalar → Shape
  | .bool => .node .typeBool [] []
  | .int => .node .typeInt [1] []
  | .uint => .node .typeInt [0] []
  | .float => .node .typeFloat [] []

def vectorShape (k : Scalar) (n : Nat) : Shape := .node .typeVector [.ofNat n] [scalarShape k]

/-- What a type is made of. -/
def shape : Ty → Shape
  | .void => .node .typeVoid [] []
  | .scalar k => scalarShape k
  | .vector k n => vectorShape k n
  | .matrix c r => .node .typeMatrix [.ofNat c] [vectorShape .float r]
  | .sampler s => .node .typeSampler [.ofNat s.dim.code, if s.shadow then 1 else 0, .ofNat s.kind.code] []
  | .array e n => .node .typeArray [.ofNat n] [e.shape]

end Ty

namespace Bytecode.Machine

variable {V : Type} (m : Machine V)

/-- The machine treats the whole of a value as a part of it, picks elements where it extracts, and knows
`&&`, `||` and `!`. -/
structure Lawful : Prop where
  part_nil : ∀ v, m.part v [] = v
  update_nil : ∀ v x, m.update v [] x = x
  extract : ∀ shape v i, m.apply .extract shape [] [v, i] = m.part v [i]
  logicalAnd : ∀ shape a b, m.apply .binary shape [.ofNat BinaryOp.logicalAnd.code] [a, b] =
    if m.truth a then b else a
  logicalOr : ∀ shape a b, m.apply .binary shape [.ofNat BinaryOp.logicalOr.code] [a, b] =
    if m.truth a then a else b
  not : ∀ shape a, m.truth (m.apply .unary shape [.ofNat UnaryOp.not.code] [a]) = !m.truth a

def binary (op : BinaryOp) (ty : Ty) (a b : V) : V := m.apply .binary ty.shape [.ofNat op.code] [a, b]

def unary (op : UnaryOp) (ty : Ty) (a : V) : V := m.apply .unary ty.shape [.ofNat op.code] [a]

def swizzle (ty : Ty) (components : List Nat) (a : V) : V :=
  m.apply .swizzle ty.shape (components.map UInt32.ofNat) [a]

def position (n : Nat) : V := m.scalar (.int (.ofNat n))

def component (single : Bool) (v : V) (n : Nat) : V := if single then v else m.part v [m.position n]

end Bytecode.Machine

namespace Typed

abbrev Memory (V : Type) := Cell → V

/-- What an expression that can be assigned to leads to: a part of a variable, or some components of it. -/
structure Location (V : Type) where
  cell : Cell
  path : List V
  selected : Option (List Nat) := none

namespace Location

variable {V : Type} (m : Machine V) (l : Location V)

def whole (μ : Memory V) : V := m.part (μ l.cell) l.path

def element (v : V) : Location V := { l with path := l.path ++ [v] }

@[simp] theorem element_cell (v : V) : (l.element v).cell = l.cell := rfl

@[simp] theorem element_path (v : V) : (l.element v).path = l.path ++ [v] := rfl

/-- Components of components are components. -/
def select (components : List Nat) : Location V :=
  { l with selected := some (match l.selected with
    | none => components
    | some outer => components.filterMap fun c => outer[c]?) }

def index (literal : Option Int) (v : V) : Location V :=
  match l.selected with
  | none => l.element v
  | some selected =>
    match literal.bind fun n => if 0 ≤ n then selected[n.toNat]? else none with
    | some component => { l.element (m.position component) with selected := none }
    | none => l

def read (ty : Ty) : StateM (Memory V) V := do
  let v := l.whole m (← get)
  return match l.selected with
    | none => v
    | some components => m.swizzle ty components v

def write (v : V) : StateM (Memory V) Unit :=
  modify fun μ c => if c = l.cell then m.update (μ c) l.path v else μ c

/-- Writes the components of a value from the given one on. -/
def writeComponents (single : Bool) (v : V) : Nat → List Nat → StateM (Memory V) Unit
  | _, [] => pure ()
  | i, component :: rest => do
    (l.element (m.position component)).write m (m.component single v i)
    writeComponents single v (i + 1) rest

def assign (v : V) : StateM (Memory V) Unit :=
  match l.selected with
  | none => l.write m v
  | some components => l.writeComponents m (components.length == 1) v 0 components

end Location

namespace Expr

variable {V : Type} (m : Machine V) (place : VarRef → Cell × List V)

def isPath : Expr → Bool
  | .var _ _ => true
  | .index base _ _ => base.isPath
  | _ => false

def literal? (e : Expr) : Option Int := e.const?.bind Const.integer?

mutual

/-- The value of an expression without calls of functions; variables are parts of memory. -/
def eval : Expr → StateM (Memory V) V
  | .const c => return m.scalar c
  | .var v ty => Location.read m ⟨(place v).1, (place v).2, none⟩ ty
  | .binary .logicalAnd l r _ => do
    let a ← eval l
    if m.truth a then eval r else return a
  | .binary .logicalOr l r _ => do
    let a ← eval l
    if m.truth a then return a else eval r
  | .binary op l r ty => do
    let a ← eval l
    let b ← eval r
    return m.binary op ty a b
  | .unary op e => do return m.unary op e.ty (← eval e)
  | .assign op target value => do
    let l ← locate target
    let v ← eval value
    let v ← match op with
      | none => pure v
      | some op => do pure (m.binary op target.ty (← l.read m target.ty) v)
    l.assign m v
    return v
  | .step up before target => do
    let l ← locate target
    let old ← l.read m target.ty
    let one := m.scalar ((Const.int 1).cast (target.ty.kind?.getD .int))
    let new := m.binary (if up then .add else .sub) target.ty old one
    l.assign m new
    return if before then new else old
  | .select c yes no => do
    if m.truth (← eval c) then eval yes else eval no
  | .construct args ty => do return m.apply .construct ty.shape [] (← evalList args)
  | .call _ _ _ => return nothing m
  | .builtin f args ty => do return m.apply .builtin ty.shape [.ofNat f.code] (← evalList args)
  | .swizzle e components ty => do return m.swizzle ty components (← eval e)
  | .index e i ty => do
    if e.isPath then
      let l ← locate e
      (l.index m i.literal? (← eval i)).read m ty
    else
      let v ← eval e
      let n ← eval i
      return m.part v [n]

/-- What an expression leads to, after all its indices are evaluated. -/
def locate : Expr → StateM (Memory V) (Location V)
  | .var v _ => return ⟨(place v).1, (place v).2, none⟩
  | .index e i _ => do
    let l ← locate e
    return l.index m i.literal? (← eval i)
  | .swizzle e components _ => do return (← locate e).select components
  | _ => return ⟨.shared 0, [], none⟩

def evalList : List Expr → StateM (Memory V) (List V)
  | [] => return []
  | e :: es => do
    let v ← eval e
    return v :: (← evalList es)

end

section Effects

variable {m : Machine V} {place : VarRef → Cell × List V}

theorem bind_apply {α β : Type} (x : StateM (Memory V) α) (f : α → StateM (Memory V) β) (μ : Memory V) :
    (x >>= f) μ = f (x μ).1 (x μ).2 := rfl

theorem pure_apply {α : Type} (a : α) (μ : Memory V) : (pure a : StateM (Memory V) α) μ = (a, μ) := rfl

theorem read_snd (l : Location V) (ty : Ty) (μ : Memory V) : (l.read m ty μ).2 = μ := rfl

theorem eval_binary (op : BinaryOp) (l r : Expr) (ty : Ty) : eval m place (.binary op l r ty) = do
    let a ← l.eval m place
    match op with
    | .logicalAnd => if m.truth a then r.eval m place else return a
    | .logicalOr => if m.truth a then return a else r.eval m place
    | _ => do return m.binary op ty a (← r.eval m place) := by
  cases op <;> rfl

mutual

theorem eval_snd : ∀ e : Expr, e.hasEffect = false → ∀ μ, (e.eval m place μ).2 = μ
  | .const _, _, _ | .var _ _, _, _ | .call _ _ _, _, _ => rfl
  | .binary op l r ty, calm, μ => by
    simp only [hasEffect,Bool.or_eq_false_iff] at calm
    have left := eval_snd l calm.1
    have right := eval_snd r calm.2
    rw [eval_binary,bind_apply]
    split
    · split
      · rw [right,left]
      · exact left μ
    · split
      · exact left μ
      · rw [right,left]
    · rw [bind_apply,pure_apply,right,left]
  | .unary op e, calm, μ => by
    rw [eval,bind_apply,pure_apply,eval_snd e calm]
  | .assign .., calm, _ | .step .., calm, _ => nomatch calm
  | .select c a b, calm, μ => by
    simp only [hasEffect,Bool.or_eq_false_iff] at calm
    rw [eval,bind_apply]
    split
    · rw [eval_snd a calm.1.2,eval_snd c calm.1.1]
    · rw [eval_snd b calm.2,eval_snd c calm.1.1]
  | .construct args ty, calm, μ => by
    rw [eval,bind_apply,pure_apply,evalList_snd args calm]
  | .builtin f args ty, calm, μ => by
    rw [eval,bind_apply,pure_apply,evalList_snd args calm]
  | .swizzle e components ty, calm, μ => by
    rw [eval,bind_apply,pure_apply,eval_snd e calm]
  | .index e i ty, calm, μ => by
    simp only [hasEffect,Bool.or_eq_false_iff] at calm
    rw [eval]
    split
    · rw [bind_apply,bind_apply,read_snd,eval_snd i calm.2,locate_snd e calm.1]
    · rw [bind_apply,bind_apply,pure_apply,eval_snd i calm.2,eval_snd e calm.1]

theorem locate_snd : ∀ e : Expr, e.hasEffect = false → ∀ μ, (e.locate m place μ).2 = μ
  | .var _ _, _, _ => rfl
  | .index e i _, calm, μ => by
    simp only [hasEffect,Bool.or_eq_false_iff] at calm
    rw [locate,bind_apply,bind_apply,pure_apply,eval_snd i calm.2,locate_snd e calm.1]
  | .swizzle e components _, calm, μ => by
    rw [locate,bind_apply,pure_apply,locate_snd e calm]
  | .const _, _, _ | .binary _ _ _ _, _, _ | .unary _ _, _, _ | .assign _ _ _, _, _ | .step _ _ _, _, _
  | .select _ _ _, _, _ | .construct _ _, _, _ | .call _ _ _, _, _ | .builtin _ _ _, _, _ => by
    rw [locate] <;> simp [pure,StateT.pure]

theorem evalList_snd : ∀ es : List Expr, anyEffect es = false → ∀ μ, (evalList m place es μ).2 = μ
  | [], _, _ => rfl
  | e :: es, calm, μ => by
    simp only [anyEffect,Bool.or_eq_false_iff] at calm
    rw [evalList,bind_apply,bind_apply,pure_apply,evalList_snd es calm.2,eval_snd e calm.1]

end

theorem eval_logical (isAnd : Bool) (l r : Expr) (ty : Ty) :
    eval m place (.binary (if isAnd then .logicalAnd else .logicalOr) l r ty) = do
      let a ← l.eval m place
      if m.truth a == isAnd then r.eval m place else return a := by
  funext μ
  rw [eval_binary,bind_apply,bind_apply]
  cases isAnd with
  | true => simp
  | false => cases m.truth (l.eval m place μ).1 <;> simp

theorem eval_binary_strict (lawful : m.Lawful) {op : BinaryOp} {l r : Expr} {ty : Ty}
    (strict : ((op == .logicalAnd || op == .logicalOr) && r.hasEffect) = false) :
    eval m place (.binary op l r ty) = do
      let a ← l.eval m place
      let b ← r.eval m place
      return m.binary op ty a b := by
  funext μ
  rw [eval_binary,bind_apply,bind_apply,bind_apply,pure_apply]
  split
  · have calm : ∀ μ, (r.eval m place μ).2 = μ := eval_snd r (by simpa using strict)
    rw [Machine.binary,lawful.logicalAnd,calm]
    split
    · exact Prod.ext rfl (calm _)
    · rfl
  · have calm : ∀ μ, (r.eval m place μ).2 = μ := eval_snd r (by simpa using strict)
    rw [Machine.binary,lawful.logicalOr,calm]
    split
    · rfl
    · exact Prod.ext rfl (calm _)
  · rfl

theorem eval_select_strict {c yes no : Expr} (strict : (yes.hasEffect || no.hasEffect) = false) :
    eval m place (.select c yes no) = do
      let a ← c.eval m place
      let x ← yes.eval m place
      let y ← no.eval m place
      return if m.truth a then x else y := by
  rw [Bool.or_eq_false_iff] at strict
  funext μ
  rw [eval,bind_apply,bind_apply,bind_apply,bind_apply,pure_apply]
  have first : ∀ μ, (yes.eval m place μ).2 = μ := eval_snd yes strict.1
  have second : ∀ μ, (no.eval m place μ).2 = μ := eval_snd no strict.2
  rw [second,first]
  split
  · exact Prod.ext rfl (first _)
  · exact Prod.ext rfl (second _)

end Effects

end Expr

end Typed

end Shading
