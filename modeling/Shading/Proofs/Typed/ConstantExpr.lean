import Shading.Typed.CheckExpr

/-! Expressions that have a value, and constant expressions. The value comes from the branches of conditionals that
are taken; a branch that is passed over is not looked at, and may be no constant expression. -/
namespace Shading.Typed.Expr

/-- The branches of conditionals that evaluation passes over. -/
def passedOver : Expr → List Expr
  | .unary _ e | .construct [e] _ => e.passedOver
  | .binary _ l r _ => l.passedOver ++ r.passedOver
  | .select c a b =>
    c.passedOver ++
      match c.eval? with
      | some (.bool true) => b :: a.passedOver
      | some (.bool false) => a :: b.passedOver
      | _ => []
  | _ => []

mutual

theorem hasEffect_of_isConstant : ∀ {e : Expr}, e.isConstant = true → e.hasEffect = false
  | .const _, _ => rfl
  | .unary _ e, constant => hasEffect_of_isConstant (e := e) constant
  | .swizzle e _ _, constant => hasEffect_of_isConstant (e := e) constant
  | .binary _ l r _, constant => by
    rw [isConstant,Bool.and_eq_true] at constant
    rw [hasEffect,hasEffect_of_isConstant constant.1,hasEffect_of_isConstant constant.2,Bool.or_false]
  | .select c a b, constant => by
    rw [isConstant,Bool.and_eq_true,Bool.and_eq_true] at constant
    rw [hasEffect,hasEffect_of_isConstant constant.1.1,hasEffect_of_isConstant constant.1.2,
      hasEffect_of_isConstant constant.2,Bool.or_false,Bool.or_false]
  | .construct args _, constant => anyEffect_of_allConstant constant
  | .builtin f args _, constant => by
    rw [isConstant,Bool.and_eq_true] at constant
    exact anyEffect_of_allConstant constant.2
  | .index e i _, constant => by
    rw [isConstant,Bool.and_eq_true] at constant
    rw [hasEffect,hasEffect_of_isConstant constant.1,hasEffect_of_isConstant constant.2,Bool.or_false]

theorem anyEffect_of_allConstant : ∀ {es : List Expr}, allConstant es = true → anyEffect es = false
  | [], _ => rfl
  | e :: es, constant => by
    rw [allConstant,Bool.and_eq_true] at constant
    rw [anyEffect,hasEffect_of_isConstant constant.1,anyEffect_of_allConstant constant.2,Bool.or_false]

end

variable {e : Expr}

theorem passedOver_of_eval? {v : Const} (value : e.eval? = some v) :
    (e.isConstant = true ↔ ∀ x ∈ e.passedOver, x.isConstant = true) ∧
      (e.hasEffect = false ↔ ∀ x ∈ e.passedOver, x.hasEffect = false) := by
  fun_induction eval? e generalizing v with
  | case1 c => simp [isConstant,hasEffect,passedOver]
  | case2 op e scalar ih =>
    obtain ⟨w,operand,-⟩ := Option.bind_eq_some_iff.mp value
    exact ih operand
  | case4 op l r t scalar ihl ihr =>
    simp only [Option.bind_eq_bind,Option.bind_eq_some_iff] at value
    obtain ⟨a,left,b,right,-⟩ := value
    simp [isConstant,hasEffect,passedOver,ihl left,ihr right,or_imp,forall_and]
  | case6 c a b scalar cond ihc iha =>
    simp only [passedOver,cond]
    simp [isConstant,hasEffect,ihc cond,iha value,or_imp,forall_and,and_left_comm,and_comm]
  | case7 c a b scalar cond ihc ihb =>
    simp only [passedOver,cond]
    simp [isConstant,hasEffect,ihc cond,ihb value,or_imp,forall_and,and_assoc]
  | case10 e k scalar ih =>
    obtain ⟨w,operand,-⟩ := Option.map_eq_some_iff.mp value
    simpa [isConstant,allConstant,hasEffect,anyEffect,passedOver] using ih operand
  | _ => cases value

theorem isSome_eval?_of_sizeValue? (sized : e.sizeValue?.isSome = true) : e.eval?.isSome = true := by
  unfold sizeValue? at sized
  split at sized
  · cases value : e.eval? with
    | none => simp [value] at sized
    | some v => rfl
  · cases sized

/-- An expression that is accepted for its value is a constant expression if what was passed over is, and has no
effect if that has none. -/
theorem valued_constant (valued : e.eval?.isSome = true ∨ e.sizeValue?.isSome = true) :
    (e.isConstant = true ↔ ∀ x ∈ e.passedOver, x.isConstant = true) ∧
      (e.hasEffect = false ↔ ∀ x ∈ e.passedOver, x.hasEffect = false) ∧
      (e.isConstant = true → e.hasEffect = false) := by
  have valued : e.eval?.isSome = true := valued.elim id isSome_eval?_of_sizeValue?
  obtain ⟨v,value⟩ := Option.isSome_iff_exists.mp valued
  obtain ⟨constant,effect⟩ := passedOver_of_eval? value
  exact ⟨constant,effect,hasEffect_of_isConstant⟩

/-- The size `true ? 2 : 3 * 4`. -/
theorem chosen_size_constant :
    let e : Expr := .select (.const (.bool true)) (.const (.int 2))
      (.binary .mul (.const (.int 3)) (.const (.int 4)) .int)
    e.sizeValue? = some 2 ∧ e.isConstant = true ∧ e.hasEffect = false := by
  refine ⟨rfl,(valued_constant (.inr rfl)).1.mpr ?_,(valued_constant (.inr rfl)).2.1.mpr ?_⟩
  · exact List.forall_mem_singleton.mpr rfl
  · exact List.forall_mem_singleton.mpr rfl

/-- The size `true ? 2 : ++x`, as it is written. -/
def effectfulSize : Surface.Expr :=
  .ternary (.bool true default) (.int 2 default) (.step true true (.ident "x" default) default) default

/-- The checker takes a size that is no constant expression and has an effect. -/
theorem size_may_have_effect : ∃ s : State, ∀ u : WrittenUnit, ∃ e,
    (checkExpr u effectfulSize).run.run s = (.ok e, s) ∧
      (checkTy u ⟨"float", default⟩ [effectfulSize]).run.run s = (.ok (.array .float 2), s) ∧
      e.sizeValue? = some 2 ∧ e.isConstant = false ∧ e.hasEffect = true :=
  ⟨{ program := default
     scopes := { inner := [[("x", .variable (.local_ 0) .int)]] }
     frame := some { returnTy := .void, params := [], locals := [⟨"x",.int,false⟩] } },
    fun _ => ⟨.select (.const (.bool true)) (.const (.int 2)) (.step true true (.var (.local_ 0) .int)),
      rfl,rfl,rfl,rfl,rfl⟩⟩

end Shading.Typed.Expr
