import Shading.Typed.Check

/-! Checked programs can be compared. -/
namespace Shading.Typed

namespace Expr

mutual

/-- The same tree. -/
def same : Expr → Expr → Bool
  | .const c, .const c' => c == c'
  | .var v t, .var v' t' => v == v' && t == t'
  | .binary op l r t, .binary op' l' r' t' => op == op' && l.same l' && r.same r' && t == t'
  | .unary op e, .unary op' e' => op == op' && e.same e'
  | .assign op t v, .assign op' t' v' => op == op' && t.same t' && v.same v'
  | .step up before t, .step up' before' t' => up == up' && before == before' && t.same t'
  | .select c a b, .select c' a' b' => c.same c' && a.same a' && b.same b'
  | .construct args t, .construct args' t' => sameIn args args' && t == t'
  | .call f args t, .call f' args' t' => f == f' && sameIn args args' && t == t'
  | .builtin f args t, .builtin f' args' t' => f == f' && sameIn args args' && t == t'
  | .swizzle e components t, .swizzle e' components' t' =>
    e.same e' && components == components' && t == t'
  | .index e i t, .index e' i' t' => e.same e' && i.same i' && t == t'
  | _, _ => false

def sameIn : List Expr → List Expr → Bool
  | [], [] => true
  | e :: es, e' :: es' => e.same e' && sameIn es es'
  | _, _ => false

end

mutual

theorem same_iff : ∀ {a b : Expr}, a.same b = true ↔ a = b
  | .const _, b | .var _ _, b => by cases b <;> simp [same]
  | .binary _ l r _, b => by cases b <;> simp [same,same_iff (a := l),same_iff (a := r),and_assoc]
  | .unary _ e, b | .step _ _ e, b | .swizzle e _ _, b => by
    cases b <;> simp [same,same_iff (a := e),and_assoc]
  | .assign _ t v, b => by cases b <;> simp [same,same_iff (a := t),same_iff (a := v),and_assoc]
  | .select c x y, b => by
    cases b <;> simp [same,same_iff (a := c),same_iff (a := x),same_iff (a := y),and_assoc]
  | .construct args _, b | .call _ args _, b | .builtin _ args _, b => by
    cases b <;> simp [same,sameIn_iff (a := args),and_assoc]
  | .index e i _, b => by cases b <;> simp [same,same_iff (a := e),same_iff (a := i),and_assoc]

theorem sameIn_iff : ∀ {a b : List Expr}, sameIn a b = true ↔ a = b
  | [], b => by cases b <;> simp [sameIn]
  | e :: es, b => by cases b <;> simp [sameIn,same_iff (a := e),sameIn_iff (a := es)]

end

instance : DecidableEq Expr := fun a b => decidable_of_iff (a.same b = true) same_iff

end Expr

namespace Stmt

mutual

/-- The same tree. -/
def same : Stmt → Stmt → Bool
  | .expr e, .expr e' => e == e'
  | .declare i init, .declare i' init' => i == i' && init == init'
  | .if_ c yes no, .if_ c' yes' no' => c == c' && sameIn yes yes' && sameIn no no'
  | .loop head cond step body, .loop head' cond' step' body' =>
    head == head' && cond == cond' && step == step' && sameIn body body'
  | .break_, .break_ | .continue_, .continue_ | .discard, .discard => true
  | .return_ v, .return_ v' => v == v'
  | .block body, .block body' => sameIn body body'
  | _, _ => false

def sameIn : List Stmt → List Stmt → Bool
  | [], [] => true
  | s :: ss, s' :: ss' => s.same s' && sameIn ss ss'
  | _, _ => false

end

mutual

theorem same_iff : ∀ {a b : Stmt}, a.same b = true ↔ a = b
  | .expr _, b | .declare _ _, b | .break_, b | .continue_, b | .discard, b | .return_ _, b => by
    cases b <;> simp [same]
  | .if_ _ yes no, b => by
    cases b <;> simp [same,sameIn_iff (a := yes),sameIn_iff (a := no),and_assoc]
  | .loop _ _ _ body, b | .block body, b => by
    cases b <;> simp [same,sameIn_iff (a := body),and_assoc]

theorem sameIn_iff : ∀ {a b : List Stmt}, sameIn a b = true ↔ a = b
  | [], b => by cases b <;> simp [sameIn]
  | s :: ss, b => by cases b <;> simp [sameIn,same_iff (a := s),sameIn_iff (a := ss)]

end

instance : DecidableEq Stmt := fun a b => decidable_of_iff (a.same b = true) same_iff

end Stmt

deriving instance DecidableEq for Global, Function, Program, Checked

end Shading.Typed
