import Shading.Lowering.Expr
import Shading.Proofs.Typed.Parts

/-! One walk over the code of expressions for all that is claimed of it. A calculus is a judgement of work
with rules for the steps of writing an expression; the rules lead to the judgement of whole expressions, of
the places that are read and written, and of the arguments of calls. -/
namespace Shading.Typed.Expr

def isSwizzle : Expr → Bool
  | .swizzle .. => true
  | _ => false

/-- Where a component of selected components is meant, a literal names it. -/
def direct : Expr → Bool
  | .index base position _ => (!base.isSwizzle || position.const?.isSome) && base.direct
  | .swizzle base _ _ => base.direct
  | _ => true

theorem root?_of_writable {Γ : Env} : ∀ {e : Expr}, e.Writable Γ → e.root?.isSome = true
  | .var _ _, _ => rfl
  | .swizzle base _ _, writable => root?_of_writable (e := base) writable.2
  | .index base _ _, writable => root?_of_writable (e := base) writable

end Shading.Typed.Expr

namespace Shading.Lowering
open List Bytecode Typed

def Place.base : Place → Id
  | .pointer ptr _ _ | .components ptr _ _ _ => ptr

def branch (c : Id) (yes : Lower Unit) : Lower Unit := do
  emit .ifThen [c]
  yes
  emit .endIf []

def choice (c : Id) (yes no : Lower Unit) : Lower Unit := do
  emit .ifThen [c]
  yes
  emit .orElse []
  no
  emit .endIf []

theorem lowerShortCircuit_eq (isAnd : Bool) (lhs rhs : Lower Id) :
    lowerShortCircuit isAnd lhs rhs = (do
      let tmp ← localVariable .bool
      let l ← lhs
      emit .store [tmp, l]
      let cond ← (if isAnd then pure l else value .unary .bool [.ofNat UnaryOp.not.code, l])
      branch cond (do
        let r ← rhs
        emit .store [tmp, r])
      value .load .bool [tmp]) := by
  simp only [lowerShortCircuit,branch,bind_assoc]
  cases isAnd <;> simp

theorem lowerChoice_eq (ty : Ty) (cond yes no : Lower Id) : lowerChoice ty cond yes no = (do
      let tmp ← localVariable ty
      let c ← cond
      choice c (do
        let a ← yes
        emit .store [tmp, a]) (do
        let b ← no
        emit .store [tmp, b])
      value .load ty [tmp]) := by
  simp [lowerChoice,choice,bind_assoc]

/-- `Computes op operands values`: the instruction computes a value from the values among its operands. -/
inductive Computes : Opcode → List UInt32 → List Id → Prop where
  | binary {code l r} : Computes .binary [code, l, r] [l, r]
  | unary {code x} : Computes .unary [code, x] [x]
  | construct {xs} : Computes .construct xs xs
  | swizzle {x components} : Computes .swizzle (x :: components) [x]
  | extract {x i} : Computes .extract [x, i] [x, i]
  | select {c x y} : Computes .select [c, x, y] [c, x, y]
  | builtin {code xs} : Computes .builtin (code :: xs) xs

/-- `Holds G work Q`: where `G` is known, the work is as it should be, and `Q` is known of what it gives.
What is known are facts about a world that last. -/
structure Calculus (p : Program) (Γ : Env) where
  World : Type
  Holds {α : Type} (G : World → Prop) (work : Lower α) (Q : α → World → Prop) : Prop
  /-- Whether expressions are well typed. -/
  Checked : Prop
  /-- Whether the work succeeds. -/
  Total : Prop
  checked : Total → Checked
  functions : Total → Γ.function? = p.functionTy?
  passes {f params t callee args} : Checked → Γ.function? f = some (params, t) →
    p.function? f = some callee → Expr.Passes Γ params args →
      Forall₂ (fun q e => q.passing ≠ .in_ → e.Writable Γ) callee.params args
  Mentions (x : Id) (w : World) : Prop
  Reads (x : Id) (w : World) : Prop
  Writes (x : Id) (w : World) : Prop
  mentions {x w} : Reads x w → Mentions x w
  reads {x w} : Writes x w → Reads x w
  /-- What the expression itself needs is there, its parts left aside. -/
  Has (e : Expr) (w : World) : Prop
  Calls (callee : Typed.Function) (f : Id) (w : World) : Prop
  of_pure {α G} {Q : α → World → Prop} {a} : (∀ w, G w → Q a w) → Holds G (pure a) Q
  of_throw {α G} {Q : α → World → Prop} {f : Fault} : (Total → ∀ w, ¬ G w) → Holds G (throw f) Q
  of_bind {α β G Q R} {work : Lower α} {next : α → Lower β} : Holds G work Q →
    (∀ a, Holds (fun w => G w ∧ Q a w) (next a) R) → Holds G (work >>= next) R
  imp {α G G' Q Q'} {work : Lower α} : Holds G work Q → (∀ w, G' w → G w) →
    (∀ a w, G' w → Q a w → Q' a w) → Holds G' work Q'
  of_constant {G} (c : Const) : Holds G (constantId c) Mentions
  of_compute {G op ty operands values} : Computes op operands values →
    (∀ w, G w → values.Forall (Mentions · w)) → Holds G (value op ty operands) Mentions
  of_load {G ty x} : (∀ w, G w → Reads x w) → Holds G (value .load ty [x]) Mentions
  of_store {G x y} : (∀ w, G w → Writes x w ∧ Mentions y w) → Holds G (emit .store [x, y]) fun _ _ => True
  of_local {G} (ty : Ty) : Holds G (localVariable ty) Writes
  of_access {G storage ty base index} : (∀ w, G w → Reads base w ∧ Mentions index w) →
    Holds G (accessChain storage ty base index) fun x w => Reads x w ∧ (Writes base w → Writes x w)
  of_branch {G c yes} : (∀ w, G w → Mentions c w) → Holds G yes (fun _ _ => True) →
    Holds G (branch c yes) fun _ _ => True
  of_choice {G c yes no} : (∀ w, G w → Mentions c w) → Holds G yes (fun _ _ => True) →
    Holds G no (fun _ _ => True) → Holds G (choice c yes no) fun _ _ => True
  of_variable {G v ty} : (∀ w, G w → Has (.var v ty) w) → Holds G (variableId v) fun r w =>
    Reads r.1 w ∧ ((Checked → (Expr.var v ty).Writable Γ) → Writes r.1 w)
  of_function {G f args ty callee} : (∀ w, G w → Has (.call f args ty) w) →
    p.function? f = some callee → Holds G (functionId f) (Calls callee)
  of_call {G callee f args ty} : (∀ w, G w → Calls callee f w ∧ (∀ x ∈ args, Mentions x w) ∧
    (Checked → Forall₂ (fun q x => q.passing ≠ .in_ → Writes x w) callee.params args)) →
      Holds G (value .call ty (f :: args)) Mentions

/-- The kind of the components is known. -/
def Place.Sized : Place → Prop
  | .pointer .. => True
  | .components _ base _ _ => base.kind?.isSome = true

def Place.Of (e : Expr) : Place → Prop
  | .pointer _ ty _ => ty = e.ty
  | .components _ _ _ selected => e.isSwizzle = true ∧ ∀ k n, e.ty = .vector k n → selected.length = n

namespace Calculus

section Facts

variable {p : Program} {Γ : Env} (L : Calculus p Γ)

/-- The expression is as it has to be, its parts left aside. -/
def Fine (e : Expr) (w : L.World) : Prop :=
  (L.Checked → e.WellTyped Γ) ∧ (L.Total → ∀ t ∈ e.written Γ.function?, t.direct = true) ∧ L.Has e w

def Knows (G : L.World → Prop) (es : List Expr) : Prop := ∀ w, G w → ∀ e ∈ es, L.Fine e w

/-- The place can be read, and what it stands for can be written there. -/
def Placed (e : Expr) (q : Place) (w : L.World) : Prop :=
  L.Reads q.base w ∧ ((L.Checked → e.Writable Γ) → L.Writes q.base w) ∧ (L.Total → q.Sized ∧ q.Of e)

/-- What the call has written can be stored where it belongs. -/
def Returns (b : WriteBack) (w : L.World) : Prop :=
  L.Reads b.tmp w ∧ L.Writes b.place.base w ∧ (L.Total → b.place.Sized)

/-- Where a call writes, its arguments have a place. -/
def Takes (qs : List Param) (es : List Expr) : Prop :=
  L.Checked → Forall₂ (fun q e => q.passing ≠ .in_ → e.Writable Γ ∧ (L.Total → e.direct = true)) qs es

end Facts

section Places

variable {p : Program} {Γ : Env} {L : Calculus p Γ} {G : L.World → Prop} {e i : Expr} {q : Place} {ty : Ty}
  {G' : L.World → Prop} {es : List Expr} {kind : Scalar} {stored : Id}

theorem knows_cons : L.Knows G (e :: es) ↔ (∀ w, G w → L.Fine e w) ∧ L.Knows G es := by
  simp only [Knows,forall_mem_cons,imp_and,forall_and]

theorem knows_append {es' : List Expr} : L.Knows G (es ++ es') ↔ L.Knows G es ∧ L.Knows G es' := by
  simp only [Knows,forall_mem_append,imp_and,forall_and]

theorem Knows.mono (known : L.Knows G es) (le : ∀ w, G' w → G w) :
    L.Knows G' es := fun w given => known w (le w given)

theorem componentKind_holds {base : Ty} (kind : ∀ w, G w → L.Total → base.kind?.isSome = true) :
    L.Holds G (componentKind base) fun _ _ => True := by
  unfold componentKind
  split
  · exact L.of_pure fun _ _ => trivial
  · rename_i none
    exact L.of_throw fun total w given => absurd (kind w given total) (by simp [none])

theorem load_holds (readable : ∀ w, G w → L.Reads q.base w) (sized : ∀ w, G w → L.Total → q.Sized) :
    L.Holds G (load q) L.Mentions := by
  cases q with
  | pointer ptr ty storage => exact L.of_load readable
  | components ptr base storage selected =>
    exact L.of_bind (componentKind_holds sized) fun _ => L.of_bind (L.of_load fun w given => readable w given.1)
      fun _ => L.of_compute .swizzle fun _ => And.right

theorem storeComponents_holds {ptr : Id} {storage : StorageClass} {scalar : Ty} {whole : Bool} :
    ∀ {G : L.World → Prop} (i : Nat) (selected : List Nat),
      (∀ w, G w → L.Writes ptr w ∧ L.Mentions stored w) →
        L.Holds G (storeComponents ptr storage scalar whole stored i selected) fun _ _ => True
  | _, _, [], _ => L.of_pure fun _ _ => trivial
  | _, i, component :: rest, known => by
    unfold storeComponents
    have after {G : L.World → Prop} (element : Id)
        (known : ∀ w, G w → (L.Writes ptr w ∧ L.Mentions stored w) ∧ L.Mentions element w) : L.Holds G (do
          let index ← constantId (.int (.ofNat component))
          let target ← accessChain storage scalar ptr index
          emit .store [target,element]
          storeComponents ptr storage scalar whole stored (i + 1) rest) fun _ _ => True :=
      L.of_bind (L.of_constant _) fun _ =>
        L.of_bind (L.of_access fun w given => ⟨L.reads (known w given.1).1.1,given.2⟩) fun _ =>
          L.of_bind (L.of_store fun w given => ⟨given.2.2 (known w given.1.1).1.1,(known w given.1.1).2⟩)
            fun _ => storeComponents_holds (i + 1) rest fun w given => (known w given.1.1.1).1
    cases whole with
    | true => exact after stored fun w given => ⟨known w given,(known w given).2⟩
    | false =>
      exact L.of_bind (L.of_constant _) fun _ =>
        L.of_bind (L.of_compute .extract fun w given =>
          ⟨(known w given.1).2,given.2⟩) fun element => after element fun w given => ⟨known w given.1.1,given.2⟩

theorem store_holds (writable : ∀ w, G w → L.Writes q.base w ∧ L.Mentions stored w)
    (sized : ∀ w, G w → L.Total → q.Sized) : L.Holds G (store q stored) fun _ _ => True := by
  cases q with
  | pointer ptr ty storage => exact L.of_store writable
  | components ptr base storage selected =>
    exact L.of_bind (componentKind_holds sized) fun _ => storeComponents_holds _ _ fun w given => writable w given.1

/-- A literal position in selected components names one of them. -/
theorem exists_component {selected : List Nat} (typed : (Expr.index e i ty).WellTyped Γ)
    (swizzle : e.isSwizzle = true) (size : ∀ k n, e.ty = .vector k n → selected.length = n)
    (literal : i.const?.isSome = true) :
    ((i.const?.bind Const.integer?).bind fun n => if 0 ≤ n then selected[n.toNat]? else none).isSome = true := by
  obtain ⟨c,literal⟩ := Option.isSome_iff_exists.mp literal
  have constant : i = .const c := by
    cases i <;> simp_all [Expr.const?]
  cases typed with
  | @index _ _ _ bound base _ _ element limit inside =>
    obtain ⟨z,integer,positive,below⟩ := inside c (by rw [constant]; rfl)
    have vector : ∃ k, e.ty = .vector k bound := by
      cases base with
      | @swizzle _ components kind _ _ _ _ _ _ =>
        simp only [Expr.ty,Ty.ofSize] at element limit ⊢
        split at limit
        · cases limit
        · cases limit
          rename_i many
          exact ⟨kind,by rw [if_neg many]⟩
      | _ => cases swizzle
    obtain ⟨k,vector⟩ := vector
    have := size k bound vector
    simp [literal,integer,positive]
    omega

theorem indexPlace_holds {index : Lower Id} (placed : ∀ w, G w → L.Placed e q w)
    (fine : ∀ w, G w → L.Fine (.index e i ty) w)
    (direct : ∀ w, G w → L.Total → (Expr.index e i ty).direct = true) (computed : L.Holds G index L.Mentions) :
    L.Holds G (indexPlace q i index ty) (L.Placed (.index e i ty)) := by
  have reached {G : L.World → Prop} {n ptr : Id} {storage : StorageClass}
      (known : ∀ w, G w → L.Reads ptr w ∧ ((L.Checked → e.Writable Γ) → L.Writes ptr w))
      (position : ∀ w, G w → L.Mentions n w) :
      L.Holds G (do return Place.pointer (← accessChain storage ty ptr n) ty storage)
        (L.Placed (.index e i ty)) := by
    refine L.of_bind (L.of_access fun w given => ⟨(known w given).1,position w given⟩) fun x =>
      L.of_pure fun w given => ⟨given.2.1,fun writable => given.2.2 ((known w given.1).2 writable),fun _ => ?_⟩
    exact ⟨trivial,rfl⟩
  cases q with
  | pointer ptr _ storage =>
    exact L.of_bind computed fun n =>
      reached (fun w given => ⟨(placed w given.1).1,(placed w given.1).2.1⟩) fun _ => And.right
  | components ptr _ storage selected =>
    unfold indexPlace
    dsimp only
    split
    · rename_i unnamed
      refine L.of_throw fun total w given => ?_
      obtain ⟨-,swizzle,size⟩ := (placed w given).2.2 total
      have literal : i.const?.isSome = true := by
        have := direct w given total
        simp_all [Expr.direct]
      have named := exists_component ((fine w given).1 (L.checked total)) swizzle size literal
      simp [unnamed] at named
    · exact L.of_bind (L.of_constant _) fun n =>
        reached (fun w given => ⟨(placed w given.1).1,(placed w given.1).2.1⟩) fun _ => And.right

theorem mapM_getElem?_of_lt {outer : List Nat} : ∀ {components : List Nat},
    (∀ c ∈ components, c < outer.length) →
      ∃ selected, components.mapM (fun c => outer[c]?) = some selected
  | [], _ => ⟨[],rfl⟩
  | c :: components, below => by
    rw [forall_mem_cons] at below
    obtain ⟨selected,found⟩ := mapM_getElem?_of_lt below.2
    refine ⟨outer[c] :: selected,?_⟩
    rw [mapM_cons,getElem?_eq_getElem below.1,found]
    rfl

theorem eq_of_ofSize_eq_vector {k : Scalar} {size n : Nat}
    (same : Ty.ofSize kind size = .vector k n) : size = n := by
  unfold Ty.ofSize at same
  split at same <;> cases same
  rfl

theorem selectPlace_holds {components : List Nat} (placed : ∀ w, G w → L.Placed e q w)
    (fine : ∀ w, G w → L.Fine (.swizzle e components ty) w) :
    L.Holds G (selectPlace q components) (L.Placed (.swizzle e components ty)) := by
  have whole (writable : L.Checked → (Expr.swizzle e components ty).Writable Γ) : L.Checked → e.Writable Γ :=
    fun checked => (writable checked).2
  cases q with
  | pointer ptr t storage =>
    refine L.of_pure fun w given =>
      ⟨(placed w given).1,fun writable => (placed w given).2.1 (whole writable),fun total => ?_⟩
    obtain ⟨-,same⟩ := (placed w given).2.2 total
    cases (fine w given).1 (L.checked total) with
    | swizzle _ vector _ _ _ =>
      have known : t = .vector _ _ := same.trans vector
      exact ⟨by rw [known]; rfl,rfl,fun _ _ => eq_of_ofSize_eq_vector⟩
  | components ptr t storage outer =>
    unfold selectPlace
    dsimp only
    split
    · rename_i selected found
      refine L.of_pure fun w given =>
        ⟨(placed w given).1,fun writable => (placed w given).2.1 (whole writable),fun total => ?_⟩
      obtain ⟨sized,-,-⟩ := (placed w given).2.2 total
      cases (fine w given).1 (L.checked total) with
      | swizzle _ vector _ _ _ =>
        exact ⟨sized,rfl,fun _ _ vector => (filterMap_of_mapM found).1.trans (eq_of_ofSize_eq_vector vector)⟩
    · rename_i missing
      refine L.of_throw fun total w given => ?_
      obtain ⟨-,-,size⟩ := (placed w given).2.2 total
      cases (fine w given).1 (L.checked total) with
      | swizzle _ vector inside _ _ =>
        obtain ⟨selected,found⟩ := mapM_getElem?_of_lt (size _ _ vector ▸ inside)
        simp [found] at missing

theorem stored_holds {work : Lower Id} {tmp : Id} (computed : L.Holds G work L.Mentions)
    (writable : ∀ w, G w → L.Writes tmp w) : L.Holds G (do
      let r ← work
      emit .store [tmp, r]) fun _ _ => True :=
  L.of_bind computed fun _ => L.of_store fun w given => ⟨writable w given.1,given.2⟩

theorem Holds.known {α : Type} {work : Lower α} {Q : α → L.World → Prop} (h : L.Holds G work Q)
    (le : ∀ w, G' w → G w) : L.Holds G' work Q := L.imp h le fun _ _ _ => id

theorem lowerShortCircuit_holds {isAnd : Bool} {lhs rhs : Lower Id} (left : L.Holds G lhs L.Mentions)
    (right : L.Holds G rhs L.Mentions) : L.Holds G (lowerShortCircuit isAnd lhs rhs) L.Mentions := by
  rw [lowerShortCircuit_eq]
  refine L.of_bind (L.of_local .bool) fun tmp => L.of_bind (Holds.known left fun _ => And.left) fun l =>
    L.of_bind (L.of_store fun w given => ⟨given.1.2,given.2⟩) fun _ => L.of_bind (Q := L.Mentions) ?_ fun cond =>
      L.of_bind (L.of_branch (fun _ => And.right) (stored_holds
        (Holds.known right fun w given => given.1.1.1.1) fun w given => given.1.1.1.2)) fun _ =>
          L.of_load fun w given => L.reads given.1.1.1.1.2
  cases isAnd with
  | true => exact L.of_pure fun w given => given.1.2
  | false => exact L.of_compute .unary fun w given => given.1.2

theorem lowerChoice_holds {cond yes no : Lower Id} (first : L.Holds G cond L.Mentions)
    (second : L.Holds G yes L.Mentions) (third : L.Holds G no L.Mentions) :
    L.Holds G (lowerChoice ty cond yes no) L.Mentions := by
  rw [lowerChoice_eq]
  exact L.of_bind (L.of_local ty) fun tmp => L.of_bind (Holds.known first fun _ => And.left) fun c =>
    L.of_bind (L.of_choice (fun _ => And.right)
      (stored_holds (Holds.known second fun w given => given.1.1) fun w given => given.1.2)
      (stored_holds (Holds.known third fun w given => given.1.1) fun w given => given.1.2)) fun _ =>
        L.of_load fun w given => L.reads given.1.1.2

section

variable (writable : ∀ w, G w → L.Writes q.base w) (sized : ∀ w, G w → L.Total → q.Sized)
include writable sized

theorem lowerStep_holds {up before : Bool} :
    L.Holds G (lowerStep up before ty kind q) L.Mentions := by
  refine L.of_bind (load_holds (fun w given => L.reads (writable w given)) sized) fun old =>
    L.of_bind (L.of_constant _) fun one => L.of_bind (L.of_compute .binary fun w given => ⟨given.1.2,given.2⟩)
      fun new => L.of_bind (store_holds (fun w given => ⟨writable w given.1.1.1,given.2⟩)
        fun w given => sized w given.1.1.1) fun _ => L.of_pure fun w given => ?_
  cases before with
  | true => exact given.1.2
  | false => exact given.1.1.1.2

theorem passPlace_holds {passing : Passing} : L.Holds G (passPlace passing ty q)
      fun r w => L.Writes r.1 w ∧ ∀ b ∈ r.2, L.Returns b w := by
  cases q with
  | pointer ptr _ _ => exact L.of_pure fun w given => ⟨writable w given,by simp⟩
  | components ptr base storage selected =>
    have passed {G' : L.World → Prop} {tmp : Id} (le : ∀ w, G' w → G w ∧ L.Writes tmp w) :
        L.Holds G' (pure (tmp, [⟨.components ptr base storage selected,tmp,ty⟩]))
          fun r w => L.Writes r.1 w ∧ ∀ b ∈ r.2, L.Returns b w :=
      L.of_pure fun w given => ⟨(le w given).2,forall_mem_singleton.mpr
        ⟨L.reads (le w given).2,writable w (le w given).1,sized w (le w given).1⟩⟩
    refine L.of_bind (L.of_local ty) fun tmp => ?_
    dsimp only
    split
    · exact L.of_bind (load_holds (fun w given => L.reads (writable w given.1)) fun w given => sized w given.1)
        fun _ => L.of_bind (L.of_store fun w given => ⟨given.1.2,given.2⟩) fun _ =>
          passed fun w given => given.1.1
    · exact passed fun _ => id

end

theorem writeBacks_holds : ∀ {G : L.World → Prop} (bs : List WriteBack),
    (∀ w, G w → ∀ b ∈ bs, L.Returns b w) → L.Holds G (bs.forM writeBack) fun _ _ => True
  | _, [], _ => L.of_pure fun _ _ => trivial
  | _, b :: bs, known => by
    have one w given := (forall_mem_cons.mp (known w given)).1
    exact L.of_bind (L.of_bind (L.of_load fun w given => (one w given).1) fun _ =>
      store_holds (fun w given => ⟨(one w given.1).2.1,given.2⟩) fun w given => (one w given.1).2.2) fun _ =>
        writeBacks_holds bs fun w given => (forall_mem_cons.mp (known w given.1)).2

end Places

section Expressions

variable {p : Program} {Γ : Env} {L : Calculus p Γ} {G : L.World → Prop} {w : L.World} {e : Expr}
  {f : String}

theorem Fine.target (fine : L.Fine e w) {t : Expr} (written : t ∈ e.written Γ.function?) :
    (L.Checked → t.Writable Γ) ∧ (L.Total → t.root?.isSome = true ∧ t.direct = true) :=
  have writable checked := (fine.1 checked).written t written
  ⟨writable,fun total => ⟨Expr.root?_of_writable (writable (L.checked total)),fine.2.1 total t written⟩⟩

variable {args : List Expr} {t : Ty}

theorem Fine.callee (fine : L.Fine (.call f args t) w) (total : L.Total) :
    (p.function? f).isSome = true := by
  cases fine.1 (L.checked total) with
  | call _ known _ =>
    rw [L.functions total,Program.functionTy?] at known
    simpa using congrArg Option.isSome known

theorem Fine.takes {callee : Typed.Function} (fine : L.Fine (.call f args t) w)
    (found : p.function? f = some callee) : L.Takes callee.params args := by
  intro checked
  cases fine.1 checked with
  | call _ known passes =>
    obtain ⟨same,writable⟩ := forall₂_iff_zip.mp (L.passes checked known found passes)
    refine forall₂_iff_zip.mpr ⟨same,fun {q x} pair out => ⟨writable pair out,fun total => ?_⟩⟩
    refine fine.2.1 total x ?_
    simp only [Expr.written,L.functions total,Program.functionTy?,found,Option.map_some,Option.getD_some]
    refine mem_filterMap.mpr ⟨((q.ty, q.passing), x),?_,if_neg out⟩
    rw [Function.ty,zip_map_left]
    exact mem_map.mpr ⟨(q, x),pair,rfl⟩

theorem keepsPointer_access : ∀ {e : Expr}, keepsPointer e = true →
    e.root?.isSome = true ∧ e.direct = true ∧ e.isSwizzle = false
  | .var _ _, _ => ⟨rfl,rfl,rfl⟩
  | .index base _ _, keeps => by
    obtain ⟨root,direct,plain⟩ := keepsPointer_access (e := base) keeps
    exact ⟨root,by simp [Expr.direct,plain,direct],rfl⟩

mutual

/-- The rules lead to the judgement of an expression whose parts are as they have to be. -/
theorem lowerExpr_holds : ∀ {G : L.World → Prop} (e : Expr), L.Knows G e.parts →
    L.Holds G (lowerExpr p e) L.Mentions
  | _, .const c, _ => by
    rw [lowerExpr]
    exact L.of_constant c
  | _, .var v ty, known => by
    simp only [Expr.parts,knows_cons] at known
    rw [lowerExpr]
    exact L.of_bind (L.of_variable fun w given => (known.1 w given).2.2) fun r =>
      load_holds (fun w given => given.2.1) fun _ _ _ => trivial
  | _, .binary op l r ty, known => by
    simp only [Expr.parts,knows_cons,knows_append] at known
    have left := lowerExpr_holds l known.2.1
    have right := lowerExpr_holds r known.2.2
    rw [lowerExpr]
    split
    · exact lowerShortCircuit_holds left right
    · exact L.of_bind left fun _ => L.of_bind (Holds.known right fun _ => And.left) fun _ =>
        L.of_compute .binary fun w given => ⟨given.1.2,given.2⟩
  | _, .unary op e, known => by
    simp only [Expr.parts,knows_cons] at known
    rw [lowerExpr]
    exact L.of_bind (lowerExpr_holds e known.2) fun _ => L.of_compute .unary fun _ => And.right
  | G, .assign op t v, known => by
    simp only [Expr.parts,knows_cons,knows_append] at known
    have target w given := (known.1 w given).target (t := t) (by simp [Expr.written])
    rw [lowerExpr]
    refine L.of_bind (lowerPlace_holds t known.2.1 fun w given => (target w given).2) fun place =>
      L.of_bind (lowerExpr_holds v (known.2.2.mono fun _ => And.left)) fun y => ?_
    have written {G' : L.World → Prop} (y : Id)
        (le : ∀ w, G' w → (G w ∧ L.Placed t place w) ∧ L.Mentions y w) : L.Holds G' (do
          store place y
          return y) L.Mentions :=
      L.of_bind (store_holds (fun w given => ⟨(le w given).1.2.2.1 (target w (le w given).1.1).1,(le w given).2⟩)
        fun w given total => ((le w given).1.2.2.2 total).1) fun _ => L.of_pure fun w given => (le w given.1).2
    cases op with
    | none => exact written y fun _ => id
    | some op =>
      exact L.of_bind (load_holds (fun w given => given.1.2.1) fun w given total => (given.1.2.2.2 total).1)
        fun _ => L.of_bind (L.of_compute .binary fun w given => ⟨given.2,given.1.2⟩) fun y =>
          written y fun w given => ⟨given.1.1.1,given.2⟩
  | _, .step up before t, known => by
    simp only [Expr.parts,knows_cons] at known
    have target w given := (known.1 w given).target (t := t) (by simp [Expr.written])
    rw [lowerExpr]
    split
    · rename_i none
      refine L.of_throw fun total w given => ?_
      cases (known.1 w given).1 (L.checked total) with
      | step _ _ numeric => simp [Ty.isNumeric,none] at numeric
    · exact L.of_bind (lowerPlace_holds t known.2 fun w given => (target w given).2) fun place =>
        lowerStep_holds (fun w given => given.2.2.1 (target w given.1).1) fun w given total =>
          (given.2.2.2 total).1
  | _, .select c a b, known => by
    simp only [Expr.parts,knows_cons,knows_append] at known
    have cond := lowerExpr_holds c known.2.1.1
    have yes := lowerExpr_holds a known.2.1.2
    have no := lowerExpr_holds b known.2.2
    rw [lowerExpr]
    split
    · exact lowerChoice_holds cond yes no
    · exact L.of_bind cond fun _ => L.of_bind (Holds.known yes fun _ => And.left) fun _ =>
        L.of_bind (Holds.known no fun w given => given.1.1) fun _ =>
          L.of_compute .select fun w given => ⟨given.1.1.2,given.1.2,given.2⟩
  | _, .construct args ty, known | _, .builtin _ args ty, known => by
    simp only [Expr.parts,knows_cons] at known
    rw [lowerExpr]
    exact L.of_bind (lowerExprs_hold args known.2) fun _ =>
      L.of_compute (by constructor) fun w given => forall_iff_forall_mem.mpr given.2
  | _, .call f args ty, known => by
    simp only [Expr.parts,knows_cons] at known
    rw [lowerExpr]
    split
    · rename_i none
      exact L.of_throw fun total w given => absurd ((known.1 w given).callee total) (by simp [none])
    · rename_i callee found
      exact L.of_bind (L.of_function (fun w given => (known.1 w given).2.2) found) fun id =>
        L.of_bind (lowerArgs_hold callee.params args (known.2.mono fun _ => And.left) fun w given =>
          (known.1 w given.1).takes found) fun r =>
            L.of_bind (L.of_call fun w given => ⟨given.1.2,given.2.1,given.2.2.1⟩) fun _ =>
              L.of_bind (writeBacks_holds r.2 fun w given => given.1.2.2.2) fun _ =>
                L.of_pure fun w given => given.1.2
  | _, .swizzle e components _, known => by
    simp only [Expr.parts,knows_cons] at known
    rw [lowerExpr]
    exact L.of_bind (lowerExpr_holds e known.2) fun _ => L.of_compute .swizzle fun _ => And.right
  | _, .index e i ty, known => by
    simp only [Expr.parts,knows_cons,knows_append] at known
    have position := lowerExpr_holds i known.2.2
    rw [lowerExpr]
    split
    · rename_i keeps
      obtain ⟨root,direct,plain⟩ := keepsPointer_access keeps
      exact L.of_bind (lowerPlace_holds e known.2.1 fun _ _ _ => ⟨root,direct⟩) fun base =>
        L.of_bind (indexPlace_holds (fun _ => And.right) (fun w given => known.1 w given.1)
          (fun _ _ _ => (keepsPointer_access (e := .index e i ty) keeps).2.1)
          (Holds.known position fun _ => And.left)) fun q =>
            load_holds (fun w given => given.2.1) fun w given total => (given.2.2.2 total).1
    · exact L.of_bind (lowerExpr_holds e known.2.1) fun _ =>
        L.of_bind (Holds.known position fun _ => And.left) fun _ =>
          L.of_compute .extract fun w given => ⟨given.1.2,given.2⟩

theorem lowerPlace_holds : ∀ {G : L.World → Prop} (e : Expr), L.Knows G e.parts →
    (∀ w, G w → L.Total → e.root?.isSome = true ∧ e.direct = true) →
      L.Holds G (lowerPlace p e) (L.Placed e)
  | _, .var v ty, known, _ => by
    simp only [Expr.parts,knows_cons] at known
    rw [lowerPlace]
    exact L.of_bind (L.of_variable fun w given => (known.1 w given).2.2) fun r =>
      L.of_pure fun w given => ⟨given.2.1,given.2.2,fun _ => ⟨trivial,rfl⟩⟩
  | _, .index e i ty, known, located => by
    simp only [Expr.parts,knows_cons,knows_append] at known
    have whole w given total : e.root?.isSome = true ∧ e.direct = true :=
      ⟨(located w given total).1,(Bool.and_eq_true_iff.mp (located w given total).2).2⟩
    rw [lowerPlace]
    exact L.of_bind (lowerPlace_holds e known.2.1 whole) fun base =>
      indexPlace_holds (fun _ => And.right) (fun w given => known.1 w given.1)
        (fun w given total => (located w given.1 total).2)
        (lowerExpr_holds i (known.2.2.mono fun _ => And.left))
  | _, .swizzle e components ty, known, located => by
    simp only [Expr.parts,knows_cons] at known
    rw [lowerPlace]
    exact L.of_bind (lowerPlace_holds e known.2 located) fun base =>
      selectPlace_holds (fun _ => And.right) fun w given => known.1 w given.1
  | _, .const _, _, located | _, .binary .., _, located | _, .unary .., _, located | _, .assign .., _, located
  | _, .step .., _, located | _, .select .., _, located | _, .construct .., _, located
  | _, .call .., _, located | _, .builtin .., _, located => by
    rw [lowerPlace]
    · exact L.of_throw fun total w given => by simpa [Expr.root?] using located w given total
    all_goals simp

theorem lowerExprs_hold : ∀ {G : L.World → Prop} (es : List Expr), L.Knows G (Expr.partsIn es) →
    L.Holds G (lowerExprs p es) fun xs w => ∀ x ∈ xs, L.Mentions x w
  | _, [], _ => by
    rw [lowerExprs]
    exact L.of_pure fun _ _ => by simp
  | _, e :: es, known => by
    simp only [Expr.partsIn,knows_append] at known
    rw [lowerExprs]
    exact L.of_bind (lowerExpr_holds e known.1) fun _ =>
      L.of_bind (lowerExprs_hold es (known.2.mono fun _ => And.left)) fun _ =>
        L.of_pure fun w given => forall_mem_cons.mpr ⟨given.1.2,given.2⟩

theorem lowerArgs_hold : ∀ {G : L.World → Prop} (qs : List Param) (es : List Expr),
    L.Knows G (Expr.partsIn es) → (∀ w, G w → L.Takes qs es) →
      L.Holds G (lowerArgs p qs es) fun r w => (∀ x ∈ r.1, L.Mentions x w) ∧
        (L.Checked → Forall₂ (fun q x => q.passing ≠ .in_ → L.Writes x w) qs r.1) ∧
          ∀ b ∈ r.2, L.Returns b w
  | G, q :: qs, e :: es, known, taken => by
    simp only [Expr.partsIn,knows_append] at known
    have others {G' : L.World → Prop} (r : Id × List WriteBack) (le : ∀ w, G' w → G w)
        (first : ∀ w, G' w → L.Mentions r.1 w ∧ (q.passing ≠ .in_ → L.Writes r.1 w) ∧
          ∀ b ∈ r.2, L.Returns b w) : L.Holds G' (do
          let (xs, ws) ← lowerArgs p qs es
          return (r.1 :: xs, r.2 ++ ws)) fun r w => (∀ x ∈ r.1, L.Mentions x w) ∧
            (L.Checked → Forall₂ (fun q x => q.passing ≠ .in_ → L.Writes x w) (q :: qs) r.1) ∧
              ∀ b ∈ r.2, L.Returns b w := by
      refine L.of_bind (lowerArgs_hold qs es (known.2.mono le) fun w given checked =>
        (forall₂_cons.mp (taken w (le w given) checked)).2) fun rest => L.of_pure ?_
      rintro w ⟨start,mentioned,accepted,returned⟩
      obtain ⟨mentions,writes,returns⟩ := first w start
      exact ⟨forall_mem_cons.mpr ⟨mentions,mentioned⟩,fun checked => .cons writes (accepted checked),
        forall_mem_append.mpr ⟨returns,returned⟩⟩
    rw [lowerArgs]
    split
    · rename_i byValue
      exact L.of_bind (lowerExpr_holds e known.1) fun x => others (x, []) (fun _ => And.left) fun w given =>
        ⟨given.2,fun out => absurd (beq_iff_eq.mp byValue) out,by simp⟩
    · rename_i byPointer
      have target w given checked := (forall₂_cons.mp (taken w given checked)).1 (by simpa using byPointer)
      have writable {place : Place} w (given : G w ∧ L.Placed e place w) : L.Writes place.base w :=
        given.2.2.1 fun checked => (target w given.1 checked).1
      exact L.of_bind (lowerPlace_holds e known.1 fun w given total =>
          have known := target w given (L.checked total)
          ⟨Expr.root?_of_writable known.1,known.2 total⟩) fun place =>
        L.of_bind (passPlace_holds writable fun w given total => (given.2.2.2 total).1) fun r =>
          others r (fun w given => given.1.1) fun w given =>
            ⟨L.mentions (L.reads given.2.1),fun _ => given.2.1,given.2.2⟩
  | _, [], _, _, _ => by
    rw [lowerArgs]
    · exact L.of_pure fun _ _ => ⟨by simp,fun _ => .nil,by simp⟩
    · simp
  | _, _ :: _, [], _, taken => by
    rw [lowerArgs]
    · exact L.of_pure fun w given => ⟨by simp,fun checked => (nomatch taken w given checked),by simp⟩
    · simp

end

end Expressions

end Calculus

end Shading.Lowering
