import Shading.Typed.Conversion

/-! Which locals a checked tree may mention. A local is visible from its declaration to the end of the
block that declares it, and no two declarations of a body have one index. -/
namespace Shading.Typed

namespace Expr

mutual

/-- The locals that an expression mentions. -/
def locals : Expr → List Nat
  | .const _ => []
  | .var (.local_ i) _ => [i]
  | .var (.global _) _ | .var (.param _) _ => []
  | .binary _ l r _ => l.locals ++ r.locals
  | .unary _ e | .step _ _ e | .swizzle e _ _ => e.locals
  | .assign _ t v => t.locals ++ v.locals
  | .select c a b => c.locals ++ a.locals ++ b.locals
  | .construct args _ | .builtin _ args _ | .call _ args _ => localsIn args
  | .index e i _ => e.locals ++ i.locals

def localsIn : List Expr → List Nat
  | [] => []
  | e :: es => e.locals ++ localsIn es

end

end Expr

/-- `Scoped visible next body visible' next'`: where the locals `visible` may be mentioned, and indices
from `next` on are free, the body mentions visible locals only. After it, `visible'` are visible and
indices from `next'` on are free. -/
inductive Scoped : List Nat → Nat → List Stmt → List Nat → Nat → Prop where
  | nil {visible next next'} : next ≤ next' → Scoped visible next [] visible next'
  | expr {visible next e rest visible' next'} : e.locals ⊆ visible →
      Scoped visible next rest visible' next' →
      Scoped visible next (.expr e :: rest) visible' next'
  | declare {visible next i init rest visible' next'} : (∀ e ∈ init, e.locals ⊆ visible) →
      next ≤ i → Scoped (i :: visible) (i + 1) rest visible' next' →
      Scoped visible next (.declare i init :: rest) visible' next'
  | if_ {visible next c yes no rest inYes afterYes inNo afterNo visible' next'} :
      c.locals ⊆ visible → Scoped visible next yes inYes afterYes →
      Scoped visible afterYes no inNo afterNo → Scoped visible afterNo rest visible' next' →
      Scoped visible next (.if_ c yes no :: rest) visible' next'
  | loop {visible next head cond step body rest inBody afterBody visible' next'} :
      (∀ e ∈ cond, e.locals ⊆ visible) → (∀ e ∈ step, e.locals ⊆ visible) →
      Scoped visible next body inBody afterBody → Scoped visible afterBody rest visible' next' →
      Scoped visible next (.loop head cond step body :: rest) visible' next'
  | jump {visible next s rest visible' next'} : s ∈ [Stmt.break_, .continue_, .discard] →
      Scoped visible next rest visible' next' → Scoped visible next (s :: rest) visible' next'
  | return_ {visible next value rest visible' next'} : (∀ e ∈ value, e.locals ⊆ visible) →
      Scoped visible next rest visible' next' →
      Scoped visible next (.return_ value :: rest) visible' next'
  | block {visible next body rest inBody afterBody visible' next'} :
      Scoped visible next body inBody afterBody → Scoped visible afterBody rest visible' next' →
      Scoped visible next (.block body :: rest) visible' next'

namespace Scoped

variable {visible visible' visible'' : List Nat} {next next' next'' : Nat} {ss ts : List Stmt}

section

variable (valid : Scoped visible next ss visible' next')
include valid

theorem next_le : next ≤ next' := by
  induction valid with
  | nil le => exact le
  | declare _ free _ ih => omega
  | expr _ _ ih | jump _ _ ih | return_ _ _ ih => exact ih
  | if_ _ _ _ _ ih₁ ih₂ ih₃ => omega
  | loop _ _ _ _ ih₁ ih₂ | block _ _ ih₁ ih₂ => omega

theorem visible_subset : visible ⊆ visible' := by
  induction valid with
  | nil _ => simp
  | declare _ _ _ ih => exact List.Subset.trans (List.subset_cons_self _ _) ih
  | expr _ _ ih | jump _ _ ih | return_ _ _ ih | if_ _ _ _ _ _ _ ih | loop _ _ _ _ _ ih
  | block _ _ _ ih => exact ih

theorem weaken : ∀ {lower}, lower ≤ next → Scoped visible lower ss visible' next' := by
  induction valid with
  | nil le => exact fun h => .nil (Nat.le_trans h le)
  | expr e _ ih => exact fun h => .expr e (ih h)
  | declare init free rest _ => exact fun h => .declare init (Nat.le_trans h free) rest
  | if_ c _ no rest ih _ _ => exact fun h => .if_ c (ih h) no rest
  | loop cond step _ rest ih _ => exact fun h => .loop cond step (ih h) rest
  | jump s _ ih => exact fun h => .jump s (ih h)
  | return_ e _ ih => exact fun h => .return_ e (ih h)
  | block _ rest ih _ => exact fun h => .block (ih h) rest

end

theorem append (first : Scoped visible next ss visible' next')
    (second : Scoped visible' next' ts visible'' next'') :
    Scoped visible next (ss ++ ts) visible'' next'' := by
  induction first with
  | nil le => exact second.weaken le
  | expr e _ ih => exact .expr e (ih second)
  | declare init free _ ih => exact .declare init free (ih second)
  | if_ c yes no _ _ _ ih => exact .if_ c yes no (ih second)
  | loop cond step body _ _ ih => exact .loop cond step body (ih second)
  | jump s _ ih => exact .jump s (ih second)
  | return_ e _ ih => exact .return_ e (ih second)
  | block body _ _ ih => exact .block body (ih second)

end Scoped

/-- Locals are mentioned in the bodies that declare them only. -/
structure Program.Scoped (p : Program) : Prop where
  bodies : ∀ f ∈ p.functions, ∀ body ∈ f.body, ∃ visible next, Typed.Scoped [] 0 body visible next
  inits : ∀ g ∈ p.globals, ∀ e ∈ g.init, e.locals = []

end Shading.Typed
