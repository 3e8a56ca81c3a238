import Shading.Proofs.Lowering.Coherence
import Shading.Proofs.Lowering.Growth
import Shading.Proofs.Lowering.StmtCode

/-! What work on a program writes, seen from the module that it ends in: a block after what was written,
whose instructions mention ids that the module declares as the types and constants they stand for. Claims
about the block and about what the work gives are put together from those about smaller work. -/
namespace Shading.Lowering
open List Bytecode Typed

def IsConstant (code : List Instruction) (c : Const) (x : Id) : Prop :=
  ∃ t, ⟨.constant, [t, x, c.bits]⟩ ∈ code ∧ Denotes code t c.ty

theorem IsConstant.mono {code code' : List Instruction} {c : Const} {x : Id}
    (constant : IsConstant code c x) (more : code ⊆ code') : IsConstant code' c x := by
  obtain ⟨t,here,denotes⟩ := constant
  exact ⟨t,more here,denotes.mono more⟩

/-- The tables give ids for what the declarations say of them. -/
structure State.Documented (s : State) : Prop extends s.Described where
  constants : ∀ {c : Const} {x : Id}, s.constants.lookup (c.kind, c.bits) = some x →
    IsConstant s.decls.toList c x

theorem State.Documented.enters {s t : State} (entered : s.Enters t) (documented : s.Documented) : t.Documented := by
  have described := documented.toDescribed.enters entered
  have more : s.decls.toList ⊆ t.decls.toList := by
    obtain ⟨i,-,-,declared⟩ := entered.line
    simp [declared]
  refine ⟨described,fun {c x} found => ?_⟩
  cases entered with
  | @constant c' ty typed =>
    change List.lookup _ (((c'.kind, c'.bits), s.nextId) :: s.constants) = _ at found
    rw [lookup_cons] at found
    split at found
    · obtain rfl : c = c' := by grind [Const.ofBits_bits]
      cases found
      exact ⟨ty,by simp [State.declared],described.types _ typed⟩
    · exact (documented.constants found).mono more
  | type | pointer | signature => exact (documented.constants found).mono more

theorem State.Continues.written {s t : State} (more : s.Continues t) : s.written ⊆ t.written :=
  append_subset.mpr ⟨Subset.trans more.declared (subset_append_left _ _),
    Subset.trans more.code.subset (subset_append_right _ _)⟩

theorem State.Continues.documented {s t : State} (more : s.Continues t)
    (constants : t.constants = s.constants) (documented : s.Documented) : t.Documented where
  toDescribed := more.described documented.toDescribed
  constants found := (documented.constants (constants ▸ found)).mono more.declared

/-- The work only adds to what was written. It writes one block, and if all that was written in the end is
part of `full`, then `S` holds of the block and of what the work gives. `I` is kept of the ids of variables
and functions. -/
structure Produces {α : Type} (full : List Instruction) (I : Directory → Prop) (work : Lower α)
    (S : Block → α → Prop) : Prop where
  adds : Adds work
  made : ∀ {s a s'}, work.run s = .ok (a, s') → s.Documented → I s.directory → s'.written ⊆ full →
    s'.Documented ∧ I s'.directory ∧ ∃ b : Block, s'.code.toList = s.code.toList ++ b.code ∧ S b a

section Work

variable {α β : Type} {full : List Instruction} {I : Directory → Prop} {work : Lower α}
  {R S : Block → α → Prop}

namespace Produces

theorem of_pure {a : α} (given : S .done a) : Produces full I (pure a) S where
  adds := .of_pure
  made ran documented known _ := by
    cases ran
    exact ⟨documented,known,.done,by simp [Block.code],given⟩

theorem of_throw {e : Fault} : Produces full I (throw e) S where
  adds := .of_throw
  made ran := nomatch ran

theorem imp (h : Produces full I work R) (weaker : ∀ b a, R b a → S b a) : Produces full I work S where
  adds := h.adds
  made ran documented known inside := by
    grind [made]

theorem bind {next : α → Lower β} {T : Block → β → Prop} (first : Produces full I work R)
    (second : ∀ a, Produces full I (next a) fun b' c => ∀ b, R b a → T (b ++ b') c) :
    Produces full I (work >>= next) T where
  adds := .bind first.adds fun a => (second a).adds
  made {s c s'} ran documented known inside := by
    obtain ⟨a,t,ranFirst,ranSecond⟩ := Lower.run_bind_eq_ok.mp ran
    have upTo := ((second a).adds t c s' ranSecond).written
    obtain ⟨documented',known',b,code,given⟩ :=
      first.made ranFirst documented known (Subset.trans upTo inside)
    obtain ⟨documented'',known'',b',code',given'⟩ :=
      (second a).made ranSecond documented' known' inside
    exact ⟨documented'',known'',b ++ b',by simp [code',code],given' b given⟩

theorem of_get {next : State → Lower α} (adds : ∀ s, Adds (next s))
    (h : ∀ s, I s.directory → Produces full I (next s) S) : Produces full I (get >>= next) S where
  adds := .bind .of_get adds
  made {s _ _} ran documented known inside := (h s known).made ran documented known inside

theorem of_finds {P : α → State → Prop} (finds : ∀ s, Finds s work P)
    (given : ∀ {a s}, s.Documented → s.decls.toList ⊆ full → P a s → S .done a) :
    Produces full I work S where
  adds := .of_finds finds
  made {s a s'} ran documented known inside := by
    obtain ⟨b,t,ran',steps,found⟩ := finds s
    cases ran.symm.trans ran'
    have same := steps.tabulated
    have documented' := steps.keeps State.Documented.enters documented
    have kept : s'.directory = s.directory := by
      simp [State.directory,same.globals,same.functions,same.frame]
    exact ⟨documented',kept ▸ known,.done,by simp [same.code,Block.code],
      given documented' (Subset.trans (subset_append_left _ _) inside) found⟩

/-- Work that changes nothing but names and the next id. -/
theorem of_silent (silent : ∀ {s a s'}, work.run s = .ok (a, s') →
      s.names.toList <+: s'.names.toList ∧ s' = { s with names := s'.names, nextId := s'.nextId })
    (given : ∀ {s a s'}, work.run s = .ok (a, s') → I s.directory → S .done a) : Produces full I work S where
  adds s a s' ran := by
    obtain ⟨names,same⟩ := silent ran
    rw [same]
    exact .of_same prefix_rfl names ⟨rfl,rfl,rfl,rfl,rfl,rfl⟩
  made {s a s'} ran documented known _ := by
    obtain ⟨-,same⟩ := silent ran
    rw [same]
    exact ⟨⟨⟨documented.types,documented.pointers⟩,documented.constants⟩,known,.done,by simp [Block.code],
      given ran known⟩

end Produces

/-- The block is one instruction that gives a value of the type. -/
def Computed (full : List Instruction) (op : Opcode) (ty : Ty) (operands : List UInt32) (b : Block)
    (x : Id) : Prop :=
  ∃ t, Denotes full t ty ∧ ⟨op, t :: x :: operands⟩ ∈ full ∧ b = .one ⟨op, t :: x :: operands⟩

/-- The block is one instruction that gives a pointer to a value of the type. -/
def Addressed (full : List Instruction) (op : Opcode) (storage : StorageClass) (ty : Ty)
    (operands : List UInt32) (b : Block) (x : Id) : Prop :=
  ∃ p, Points full p storage ty ∧ ⟨op, p :: x :: operands⟩ ∈ full ∧ b = .one ⟨op, p :: x :: operands⟩

theorem tyId_produces (t : Ty) :
    Produces full I (tyId t) fun b id => b = .done ∧ Denotes full id t :=
  .of_finds (fun _ => tyId_finds t) fun documented inside found =>
    ⟨rfl,(documented.types _ found).mono inside⟩

theorem pointerTo_produces (storage : StorageClass) (t : Ty) :
    Produces full I (pointerTo storage t) fun b id => b = .done ∧ Points full id storage t :=
  .of_finds (fun _ => pointerTo_finds storage t) fun documented inside found => by
    obtain ⟨pointee,typed,pointed⟩ := found
    exact ⟨rfl,pointee,inside (documented.pointers _ pointed),(documented.types _ typed).mono inside⟩

theorem constantId_produces (c : Const) : Produces full I (constantId c)
    fun b id => b = .done ∧ IsConstant full c id :=
  .of_finds (fun _ => constantId_finds c) fun documented inside found =>
    ⟨rfl,(documented.constants found).mono inside⟩

theorem fresh_produces : Produces full I fresh fun b _ => b = .done :=
  .of_silent (fun ran => by cases ran; exact ⟨prefix_rfl,rfl⟩) fun _ _ => rfl

theorem addName_produces (target : Id) (text : String) :
    Produces full I (addName target text) fun b _ => b = .done := by
  refine .of_silent (fun {s a s'} ran => ?_) fun _ _ => rfl
  unfold addName at ran
  split at ran
  · cases ran
    exact ⟨prefix_rfl,rfl⟩
  · cases ran
    exact ⟨by simp,rfl⟩

theorem variableId_produces (v : VarRef) : Produces full I (variableId v)
    fun b r => b = .done ∧ ∃ d, I d ∧ d.var? v = some r :=
  .of_silent (fun ran => by obtain ⟨rfl,-⟩ := variableId_eq_ok ran; exact ⟨prefix_rfl,rfl⟩)
    fun ran known => ⟨rfl,_,known,(variableId_eq_ok ran).2⟩

theorem functionId_produces (signature : String) : Produces full I (functionId signature)
    fun b f => b = .done ∧ ∃ d, I d ∧ d.functions.lookup signature = some f :=
  .of_silent (fun ran => by obtain ⟨rfl,-⟩ := functionId_eq_ok ran; exact ⟨prefix_rfl,rfl⟩)
    fun ran known => ⟨rfl,_,known,(functionId_eq_ok ran).2⟩

theorem emit_produces (op : Opcode) (operands : List UInt32) : Produces full I (emit op operands)
    fun b _ => b = .one ⟨op, operands⟩ ∧ ⟨op, operands⟩ ∈ full where
  adds := .emit op operands
  made {s a s'} ran documented known inside := by
    have more := Adds.emit op operands s a s' ran
    cases emit_eq_ok ran
    refine ⟨more.documented rfl documented,known,.one ⟨op,operands⟩,by simp [Block.one,Block.code],rfl,
      inside ?_⟩
    simp [State.written]

theorem value_produces (op : Opcode) (ty : Ty) (operands : List UInt32) :
    Produces full I (value op ty operands) (Computed full op ty operands) := by
  refine .bind (tyId_produces ty) fun t => .bind fresh_produces fun id =>
    .bind (emit_produces _ _) fun _ => .of_pure ?_
  rintro b ⟨rfl,here⟩ b' rfl b'' ⟨rfl,denotes⟩
  exact ⟨t,denotes,here,rfl⟩

theorem address_produces (op : Opcode) (storage : StorageClass) (ty : Ty) (operands : List UInt32) :
    Produces full I (do
      let p ← pointerId storage (← tyId ty)
      let id ← fresh
      emit op (p :: id :: operands)
      return id) (Addressed full op storage ty operands) := by
  rw [← bind_assoc]
  refine .bind (pointerTo_produces storage ty) fun p => .bind fresh_produces fun id =>
    .bind (emit_produces _ _) fun _ => .of_pure ?_
  rintro b ⟨rfl,here⟩ b' rfl b'' ⟨rfl,points⟩
  exact ⟨p,points,here,rfl⟩

theorem localVariable_produces (ty : Ty) : Produces full I (localVariable ty)
    (Addressed full .var .function ty [.ofNat StorageClass.function.code]) :=
  address_produces _ _ _ _

theorem accessChain_produces (storage : StorageClass) (ty : Ty) (base index : Id) :
    Produces full I (accessChain storage ty base index)
      (Addressed full .accessChain storage ty [base, index]) :=
  address_produces _ _ _ _

/-- The block reads the value of a place. -/
def Loaded (full : List Instruction) : Place → Block → Id → Prop
  | .pointer ptr ty _, b, x => Computed full .load ty [ptr] b x
  | .components ptr base _ selected, b, x => ∃ kind whole b₁ b₂, base.kind? = some kind ∧
      Computed full .load base [ptr] b₁ whole ∧
      Computed full .swizzle (Ty.ofSize kind selected.length) (whole :: selected.map UInt32.ofNat) b₂ x ∧
      b = b₁ ++ b₂

theorem componentKind_produces (base : Ty) : Produces full I (componentKind base)
    fun b kind => b = .done ∧ base.kind? = some kind := by
  unfold componentKind
  split
  · rename_i known
    exact .of_pure ⟨rfl,known⟩
  · exact .of_throw

theorem load_produces : ∀ p : Place, Produces full I (load p) (Loaded full p)
  | .pointer ptr ty _ => value_produces _ _ _
  | .components ptr base _ selected => by
    refine .bind (componentKind_produces base) fun kind => .bind (value_produces _ _ _) fun whole =>
      (value_produces _ _ _).imp ?_
    rintro b₂ x read b₁ loaded _ ⟨rfl,known⟩
    exact ⟨kind,whole,b₁,b₂,known,loaded,read,rfl⟩

/-- The block stores the components of a value from the given one on, each by itself. -/
def StoredComponents (full : List Instruction) (ptr : Id) (storage : StorageClass) (scalar : Ty)
    (whole : Bool) (stored : Id) : Nat → List Nat → Block → Prop
  | _, [], b => b = .done
  | i, component :: rest, b => ∃ element index target b₁ b₂ b₃,
      (if whole then element = stored ∧ b₁ = .done
        else ∃ j, IsConstant full (.int (.ofNat i)) j ∧
          Computed full .extract scalar [stored, j] b₁ element) ∧
      IsConstant full (.int (.ofNat component)) index ∧
      Addressed full .accessChain storage scalar [ptr, index] b₂ target ∧
      StoredComponents full ptr storage scalar whole stored (i + 1) rest b₃ ∧
      b = b₁ ++ (b₂ ++ (.one ⟨.store, [target, element]⟩ ++ b₃))

def Stored (full : List Instruction) (stored : Id) : Place → Block → Prop
  | .pointer ptr _ _, b => b = .one ⟨.store, [ptr, stored]⟩
  | .components ptr base storage selected, b => ∃ kind, base.kind? = some kind ∧
      StoredComponents full ptr storage (.scalar kind) (selected.length == 1) stored 0 selected b

theorem storeComponents_produces (ptr : Id) (storage : StorageClass) (scalar : Ty) (whole : Bool)
    (stored : Id) : ∀ (i : Nat) (selected : List Nat), Produces full I
      (storeComponents ptr storage scalar whole stored i selected)
      fun b _ => StoredComponents full ptr storage scalar whole stored i selected b
  | _, [] => .of_pure rfl
  | i, component :: rest => by
    have after (element : Id) : Produces full I (do
        let index ← constantId (.int (.ofNat component))
        let target ← accessChain storage scalar ptr index
        emit .store [target,element]
        storeComponents ptr storage scalar whole stored (i + 1) rest)
        fun b _ => ∀ b₁, (if whole then element = stored ∧ b₁ = .done
          else ∃ j, IsConstant full (.int (.ofNat i)) j ∧
            Computed full .extract scalar [stored,j] b₁ element) →
          StoredComponents full ptr storage scalar whole stored i (component :: rest) (b₁ ++ b) := by
      refine .bind (constantId_produces _) fun index => .bind (accessChain_produces _ _ _ _) fun target =>
        .bind (emit_produces _ _) fun _ =>
          (storeComponents_produces ptr storage scalar whole stored (i + 1) rest).imp ?_
      rintro b₃ - others _ ⟨rfl,-⟩ b₂ chain _ ⟨rfl,selected⟩ b₁ read
      exact ⟨element,index,target,b₁,b₂,b₃,read,selected,chain,others,rfl⟩
    unfold storeComponents
    cases whole with
    | true => exact .bind (R := fun b element => element = stored ∧ b = .done) (.of_pure ⟨rfl,rfl⟩) after
    | false =>
      refine .bind (constantId_produces _) fun j => .bind (value_produces _ _ _) fun element =>
        (after element).imp ?_
      rintro b - made b₁ read _ ⟨rfl,constant⟩
      exact made b₁ ⟨j,constant,read⟩

theorem store_produces (stored : Id) : ∀ p : Place, Produces full I (store p stored)
    fun b _ => Stored full stored p b
  | .pointer ptr _ _ => (emit_produces _ _).imp fun _ _ h => h.1
  | .components ptr base storage selected => by
    refine .bind (componentKind_produces base) fun kind => (storeComponents_produces _ _ _ _ _ _ _).imp ?_
    rintro b - made _ ⟨rfl,known⟩
    exact ⟨kind,known,made⟩

def literalComponent? (position : Typed.Expr) (selected : List Nat) : Option Nat :=
  (position.const?.bind Const.integer?).bind fun n => if 0 ≤ n then selected[n.toNat]? else none

/-- The block leads to an element of a place, by what computes the index. -/
def Indexed (full : List Instruction) (position : Typed.Expr) (ty : Ty) (index : Block → Id → Prop) :
    Place → Block → Place → Prop
  | .pointer ptr _ storage, b, q => ∃ i x b₁ b₂, index b₁ i ∧
      Addressed full .accessChain storage ty [ptr, i] b₂ x ∧ q = .pointer x ty storage ∧ b = b₁ ++ b₂
  | .components ptr _ storage selected, b, q => ∃ component i x,
      literalComponent? position selected = some component ∧ IsConstant full (.int (.ofNat component)) i ∧
      Addressed full .accessChain storage ty [ptr, i] b x ∧ q = .pointer x ty storage

theorem indexPlace_produces {position : Typed.Expr} {index : Lower Id} {ty : Ty} {R : Block → Id → Prop}
    (indexed : Produces full I index R) : ∀ base : Place, Produces full I
      (indexPlace base position index ty) (Indexed full position ty R base)
  | .pointer ptr _ storage => by
    refine .bind indexed fun i => .bind (accessChain_produces _ _ _ _) fun x => .of_pure ?_
    intro b₂ chain b₁ computed
    exact ⟨i,x,b₁,b₂,computed,chain,rfl,by simp⟩
  | .components ptr _ storage selected => by
    unfold indexPlace
    dsimp only
    split
    · exact .of_throw
    · rename_i component found
      refine .bind (constantId_produces _) fun i => .bind (accessChain_produces _ _ _ _) fun x => .of_pure ?_
      rintro b₂ chain _ ⟨rfl,constant⟩
      exact ⟨component,i,x,found,constant,by simpa using chain,rfl⟩

def Selected (components : List Nat) : Place → Place → Prop
  | .pointer ptr ty storage, q => q = .components ptr ty storage components
  | .components ptr ty storage outer, q => ∃ selected,
      (components.mapM fun c => outer[c]?) = some selected ∧ q = .components ptr ty storage selected

theorem selectPlace_produces (components : List Nat) : ∀ base : Place, Produces full I
    (selectPlace base components) fun b q => b = .done ∧ Selected components base q
  | .pointer ptr ty storage => .of_pure ⟨rfl,rfl⟩
  | .components ptr ty storage outer => by
    unfold selectPlace
    dsimp only
    split
    · rename_i selected found
      exact .of_pure ⟨rfl,selected,found,rfl⟩
    · exact .of_throw

theorem branch_produces {c : Id} {yes : Lower Unit} {R : Block → Unit → Prop}
    (made : Produces full I yes R) : Produces full I (branch c yes)
      fun b _ => ∃ b₁, R b₁ () ∧ b = .ifThen c b₁ .done ∧ ⟨.ifThen, [c]⟩ ∈ full where
  adds := .bind (.emit _ _) fun _ => .bind made.adds fun _ => .emit _ _
  made {s a s'} ran documented known inside := by
    obtain ⟨s₂,ranYes,rfl⟩ := run_branch ran
    have started := (Adds.emit .ifThen [c] s _ _ rfl).documented
    have ended := Adds.emit .endIf [] s₂ _ _ rfl
    have first := (made.adds _ _ s₂ ranYes).written
    obtain ⟨documented',known',b,code,given⟩ := made.made ranYes (started rfl documented) known
      (Subset.trans ended.written inside)
    refine ⟨ended.documented rfl documented',known',.ifThen c b .done,?_,b,given,rfl,
      inside (ended.written (first ?_))⟩
    · simp [code,Block.code]
    · simp [State.written]

theorem choice_produces {c : Id} {yes no : Lower Unit} {R R' : Block → Unit → Prop}
    (made : Produces full I yes R) (made' : Produces full I no R') : Produces full I (choice c yes no)
      fun b _ => ∃ b₁ b₂, R b₁ () ∧ R' b₂ () ∧ b = .ifElse c b₁ b₂ .done ∧ ⟨.ifThen, [c]⟩ ∈ full where
  adds := .bind (.emit _ _) fun _ => .bind made.adds fun _ => .bind (.emit _ _) fun _ =>
    .bind made'.adds fun _ => .emit _ _
  made {s a s'} ran documented known inside := by
    obtain ⟨s₂,s₄,ranYes,ranNo,rfl⟩ := run_parts ran
    have started := (Adds.emit .ifThen [c] s _ _ rfl).documented
    have between := Adds.emit .orElse [] s₂ _ _ rfl
    have ended := Adds.emit .endIf [] s₄ _ _ rfl
    have first := (made.adds _ _ s₂ ranYes).written
    have second := (made'.adds _ _ s₄ ranNo).written
    have rest : s₂.written ⊆ full := Subset.trans between.written
      (Subset.trans second (Subset.trans ended.written inside))
    obtain ⟨documented',known',b,code,given⟩ := made.made ranYes (started rfl documented) known rest
    obtain ⟨documented'',known'',b',code',given'⟩ := made'.made ranNo
      (between.documented rfl documented') known' (Subset.trans ended.written inside)
    refine ⟨ended.documented rfl documented'',known'',.ifElse c b b' .done,?_,b,b',given,given',rfl,
      rest (first ?_)⟩
    · simp [code',code,Block.code]
    · simp [State.written]

end Work

end Shading.Lowering
