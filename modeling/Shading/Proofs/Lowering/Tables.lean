import Shading.Lowering.Function
import Shading.Proofs.Outcome

/-! Ids of types and constants are kept in tables. Work that asks for one of them never fails: it enters what
is missing, one declaration after the other, and finds the id in its table. -/
namespace Shading.Lowering
open List Bytecode Typed

section Runs

variable {α β : Type} {work : Lower α} {next : α → Lower β} {s s' : State} {a : α} {b : β}

theorem Lower.run_bind_eq_ok : (work >>= next).run s = .ok (b, s') ↔
    ∃ a t, work.run s = .ok (a, t) ∧ (next a).run t = .ok (b, s') := by
  rw [StateT.run_bind,Except.bind_eq_ok]
  simp

theorem Lower.run_bind_of_ok {t : State} (ran : work.run s = .ok (a, t)) :
    (work >>= next).run s = (next a).run t := by
  rw [StateT.run_bind,ran]
  rfl

theorem Lower.run_get_bind {next : State → Lower β} : (get >>= next).run s = (next s).run s := rfl

end Runs

/-- The ids by which code mentions variables and functions. -/
structure Directory where
  globals : List (String × Id × StorageClass)
  functions : List (String × Id)
  frame : Frame

def State.directory (s : State) : Directory := ⟨s.globals, s.functions, s.frame⟩

/-- The id of a variable, and where it lives. -/
def Directory.var? (d : Directory) : VarRef → Option (Id × StorageClass)
  | .global name => d.globals.lookup name
  | .local_ i => (d.frame.locals.lookup i).map fun id => (id, .function)
  | .param i => d.frame.params[i]?.map fun id => (id, .function)

theorem variableId_eq_ok {v : VarRef} {s s' : State} {r : Id × StorageClass}
    (ran : (variableId v).run s = .ok (r, s')) : s' = s ∧ s.directory.var? v = some r := by
  rw [variableId,Lower.run_get_bind] at ran
  cases v with
  | global name | local_ i | param i =>
    dsimp only at ran
    split at ran
    · rename_i found
      cases ran
      exact ⟨rfl,by simp [Directory.var?,State.directory,found]⟩
    · cases ran

theorem functionId_eq_ok {signature : String} {s s' : State} {id : Id}
    (ran : (functionId signature).run s = .ok (id, s')) :
    s' = s ∧ s.functions.lookup signature = some id := by
  rw [functionId,Lower.run_get_bind] at ran
  split at ran
  · rename_i found
    cases ran
    exact ⟨rfl,found⟩
  · cases ran

/-- How a type is declared, where the table has the types that it is made of. -/
inductive TyLine (types : List (Ty × Id)) : Ty → Opcode → List UInt32 → Prop where
  | void : TyLine types .void .typeVoid []
  | bool : TyLine types .bool .typeBool []
  | int : TyLine types .int .typeInt [1]
  | uint : TyLine types .uint .typeInt [0]
  | float : TyLine types .float .typeFloat []
  | vector {e : Id} {k : Scalar} {n : Nat} : (.scalar k, e) ∈ types →
      TyLine types (.vector k n) .typeVector [e, .ofNat n]
  | matrix {e : Id} {c r : Nat} : (.vector .float r, e) ∈ types →
      TyLine types (.matrix c r) .typeMatrix [e, .ofNat c]
  | sampler {s : Sampler} : TyLine types (.sampler s) .typeSampler
      [.ofNat s.dim.code, if s.shadow then 1 else 0, .ofNat s.kind.code]
  | array {e : Id} {t : Ty} {n : Nat} : (t, e) ∈ types → TyLine types (.array t n) .typeArray [e, .ofNat n]

def State.declared (s : State) (op : Opcode) (operands : List UInt32) : State :=
  { s with nextId := s.nextId + 1, decls := s.decls.push ⟨op, operands⟩ }

@[simp] theorem State.declared_decls (s : State) (op : Opcode) (operands : List UInt32) :
    (s.declared op operands).decls = s.decls.push ⟨op, operands⟩ := rfl

/-- The next id is declared, and kept in a table. -/
inductive State.Enters (s : State) : State → Prop where
  | type {t : Ty} {op : Opcode} {operands : List UInt32} : TyLine s.types t op operands →
      s.Enters { s.declared op (s.nextId :: operands) with types := (t, s.nextId) :: s.types }
  | pointer {t : Ty} {pointee : Id} {storage : StorageClass} : (t, pointee) ∈ s.types →
      s.Enters { s.declared .typePointer [s.nextId, .ofNat storage.code, pointee] with
        pointers := ((storage, pointee), s.nextId) :: s.pointers }
  | signature {types : List Id} : types ≠ [] →
      types ⊆ s.types.map Prod.snd ++ s.pointers.map Prod.snd →
      s.Enters { s.declared .typeFunction (s.nextId :: types) with
        functionTypes := (types, s.nextId) :: s.functionTypes }
  | constant {c : Const} {t : Id} : (c.ty, t) ∈ s.types →
      s.Enters { s.declared .constant [t, s.nextId, c.bits] with
        constants := ((c.kind, c.bits), s.nextId) :: s.constants }

abbrev State.Tabulates : State → State → Prop := Relation.ReflTransGen State.Enters

theorem TyLine.isType {types : List (Ty × Id)} {t : Ty} {op : Opcode} {operands : List UInt32}
    (line : TyLine types t op operands) : op.isType = true := by
  cases line <;> rfl

/-- What stays when tables grow. -/
structure State.Tabulated (s t : State) : Prop where
  code : t.code = s.code
  frame : t.frame = s.frame
  globals : t.globals = s.globals
  functions : t.functions = s.functions
  names : t.names = s.names
  decorations : t.decorations = s.decorations
  types : s.types ⊆ t.types
  pointers : s.pointers ⊆ t.pointers
  decls : ∃ new, t.decls.toList = s.decls.toList ++ new ∧
    ∀ i ∈ new, i.op.isDeclaration = true

section Tables

variable {s t : State}

theorem State.Enters.line (entered : s.Enters t) : ∃ i : Instruction, i.op.isDeclaration = true ∧
    i.result? = some s.nextId ∧ t.decls = s.decls.push i := by
  cases entered with
  | @type _ op operands line =>
    refine ⟨⟨op,s.nextId :: operands⟩,by simp [Opcode.isDeclaration,line.isType],?_,rfl⟩
    cases line <;> rfl
  | pointer | signature | constant => exact ⟨_,rfl,rfl,rfl⟩

theorem State.Tabulates.tabulated (steps : s.Tabulates t) : s.Tabulated t := by
  induction steps with
  | refl => exact ⟨rfl,rfl,rfl,rfl,rfl,rfl,Subset.refl _,Subset.refl _,[],by simp,by simp⟩
  | @tail t u _ entered ih =>
    obtain ⟨new,declared,declares⟩ := ih.decls
    obtain ⟨i,declares',-,more⟩ := entered.line
    have line : ∃ new, u.decls.toList = s.decls.toList ++ new ∧
        ∀ i ∈ new, i.op.isDeclaration = true := by
      refine ⟨new ++ [i],by simp [more,declared],?_⟩
      exact forall_mem_append.mpr ⟨declares,forall_mem_singleton.mpr declares'⟩
    cases entered with
    | type => exact { ih with types := subset_cons_of_subset _ ih.types, decls := line }
    | pointer => exact { ih with pointers := subset_cons_of_subset _ ih.pointers, decls := line }
    | signature | constant => exact { ih with decls := line }

theorem State.Tabulates.keeps {P : State → Prop} (steps : s.Tabulates t)
    (one : ∀ {s t}, s.Enters t → P s → P t) (start : P s) : P t := by
  induction steps with
  | refl => exact start
  | tail _ entered ih => exact one entered ih

/-- The work grows tables, and gives what is to be found in them. -/
def Finds {α : Type} (s : State) (work : Lower α) (found : α → State → Prop) : Prop :=
  ∃ a t, work.run s = .ok (a, t) ∧ s.Tabulates t ∧ found a t

namespace Finds

variable {α β : Type} {work : Lower α} {P P' : α → State → Prop} {Q : β → State → Prop}

theorem of_pure {a : α} (found : P a s) : Finds s (pure a) P := ⟨a,s,rfl,.refl,found⟩

theorem bind {next : α → Lower β} (first : Finds s work P)
    (second : ∀ a t, s.Tabulates t → P a t → Finds t (next a) Q) : Finds s (work >>= next) Q := by
  obtain ⟨a,t,ran,steps,found⟩ := first
  obtain ⟨b,u,ran',steps',found'⟩ := second a t steps found
  exact ⟨b,u,(Lower.run_bind_of_ok ran).trans ran',steps.trans steps',found'⟩

theorem imp (h : Finds s work P) (weaker : ∀ a t, s.Tabulates t → P a t → P' a t) : Finds s work P' := by
  obtain ⟨a,t,ran,steps,found⟩ := h
  exact ⟨a,t,ran,steps,weaker a t steps found⟩

variable {κ : Type} {f : State → List (κ × Id)} {key : κ}

theorem lookup [BEq κ] {make : Lower Id}
    (made : Finds s make fun id t => (f t).lookup key = some id) : Finds s (do
      match (f (← get)).lookup key with
      | some id => return id
      | none => make) fun id t => (f t).lookup key = some id := by
  cases known : (f s).lookup key with
  | some id => exact ⟨id,s,by rw [Lower.run_get_bind,known]; rfl,.refl,known⟩
  | none =>
    obtain ⟨id,t,ran,found⟩ := made
    exact ⟨id,t,by rw [Lower.run_get_bind,known]; exact ran,found⟩

theorem enter [BEq κ] [LawfulBEq κ] {op : Opcode} {o : Id → List UInt32} {r : Id → State → State}
    (entered : s.Enters (r s.nextId (s.declared op (o s.nextId))))
    (kept : f (r s.nextId (s.declared op (o s.nextId))) = (key, s.nextId) :: f s) : Finds s (do
      let id ← fresh
      declare op (o id)
      modify (r id)
      return id) fun id t => (f t).lookup key = some id :=
  ⟨s.nextId,r s.nextId (s.declared op (o s.nextId)),rfl,.single entered,by simp [kept]⟩

end Finds

theorem mem_of_lookup {κ β : Type} [BEq κ] [LawfulBEq κ] {k : κ} {b : β} {l : List (κ × β)}
    (found : l.lookup k = some b) : (k, b) ∈ l := by
  obtain ⟨before,after,split,-⟩ := lookup_eq_some_iff.mp found
  simp [split]

theorem cachedTy_finds {t : Ty} {make : Lower (Opcode × List UInt32)}
    (made : Finds s make fun r u => TyLine u.types t r.1 r.2) :
    Finds s (cachedTy t make) fun id u => (t, id) ∈ u.types := by
  have found : Finds s (cachedTy t make) fun id u => u.types.lookup t = some id := by
    refine .lookup (f := State.types) (made.bind fun r u _ line => ?_)
    exact .enter (o := fun id => id :: r.2) (r := fun id s => { s with types := (t, id) :: s.types })
      (.type line) rfl
  exact found.imp fun _ _ _ => mem_of_lookup

theorem scalarId_finds (k : Scalar) : Finds s (scalarId k) fun id u => (.scalar k, id) ∈ u.types := by
  refine cachedTy_finds (.of_pure ?_)
  cases k with
  | bool => exact .bool
  | int => exact .int
  | uint => exact .uint
  | float => exact .float

theorem vectorId_finds (k : Scalar) (n : Nat) :
    Finds s (vectorId k n) fun id u => (.vector k n, id) ∈ u.types :=
  cachedTy_finds ((scalarId_finds k).bind fun _ _ _ found => .of_pure (.vector found))

theorem tyId_finds (t : Ty) : Finds s (tyId t) fun id u => (t, id) ∈ u.types := by
  induction t generalizing s with
  | void => exact cachedTy_finds (.of_pure .void)
  | scalar k => exact scalarId_finds k
  | vector k n => exact vectorId_finds k n
  | matrix c r => exact cachedTy_finds ((vectorId_finds .float r).bind fun _ _ _ found => .of_pure (.matrix found))
  | sampler k => exact cachedTy_finds (.of_pure .sampler)
  | array e n ih => exact cachedTy_finds (ih.bind fun _ _ _ found => .of_pure (.array found))

/-- A pointer type whose id is in its table, and so is that of the type it points to. -/
def State.Pointer (s : State) (storage : StorageClass) (t : Ty) (id : Id) : Prop :=
  ∃ pointee, (t, pointee) ∈ s.types ∧ ((storage, pointee), id) ∈ s.pointers

def pointerTo (storage : StorageClass) (t : Ty) : Lower Id := do pointerId storage (← tyId t)

theorem State.Pointer.tabulates {storage : StorageClass} {ty : Ty} {id : Id} (known : s.Pointer storage ty id)
    (steps : s.Tabulates t) : t.Pointer storage ty id := by
  obtain ⟨pointee,typed,pointed⟩ := known
  exact ⟨pointee,steps.tabulated.types typed,steps.tabulated.pointers pointed⟩

theorem pointerTo_finds (storage : StorageClass) (t : Ty) :
    Finds s (pointerTo storage t) fun id u => u.Pointer storage t id := by
  refine (tyId_finds t).bind fun pointee u _ typed => ?_
  have found : Finds u (pointerId storage pointee) fun id v => v.pointers.lookup (storage, pointee) = some id :=
    .lookup (f := State.pointers) (.enter (r := fun id s =>
      { s with pointers := ((storage, pointee), id) :: s.pointers }) (.pointer typed) rfl)
  exact found.imp fun id v steps known => ⟨pointee,steps.tabulated.types typed,mem_of_lookup known⟩

/-- The ids of the types in the head of a function: of what it returns, of its parameters, and its own. -/
def headTys (f : Typed.Function) : Lower (Id × List Id × Id) := do
  let returnTy ← tyId f.returnTy
  let paramTys ← f.params.mapM fun q => pointerTo .function q.ty
  let ty ← functionTyId (returnTy :: paramTys)
  return (returnTy, paramTys, ty)

theorem pointersTo_finds (qs : List Param) : Finds s (qs.mapM fun q => pointerTo .function q.ty) fun ids u =>
    Forall₂ (fun q id => u.Pointer .function q.ty id) qs ids := by
  induction qs generalizing s with
  | nil =>
    rw [mapM_nil]
    exact .of_pure .nil
  | cons q qs ih =>
    rw [mapM_cons]
    refine (pointerTo_finds .function q.ty).bind fun id t _ first => ih.bind fun ids u steps others => .of_pure ?_
    exact .cons (first.tabulates steps) others

/-- What the tables have for the head of a function. -/
structure State.Head (s : State) (f : Typed.Function) (returnTy : Id) (paramTys : List Id) (ty : Id) : Prop where
  returns : (f.returnTy, returnTy) ∈ s.types
  params : Forall₂ (fun q id => s.Pointer .function q.ty id) f.params paramTys
  type : (returnTy :: paramTys, ty) ∈ s.functionTypes

theorem headTys_finds (f : Typed.Function) : Finds s (headTys f) fun r u => u.Head f r.1 r.2.1 r.2.2 := by
  refine (tyId_finds f.returnTy).bind fun returnTy t _ returns =>
    (pointersTo_finds f.params).bind fun paramTys u steps params => ?_
  have returns' : (f.returnTy, returnTy) ∈ u.types := steps.tabulated.types returns
  have known : returnTy :: paramTys ⊆ u.types.map Prod.snd ++ u.pointers.map Prod.snd := by
    refine cons_subset.mpr ⟨mem_append_left _ (mem_map_of_mem returns'),fun id mem => ?_⟩
    obtain ⟨q,-,pointee,-,pointed⟩ := exists_of_forall₂ params.flip mem
    exact mem_append_right _ (mem_map_of_mem pointed)
  have found : Finds u (functionTyId (returnTy :: paramTys)) fun id v =>
      v.functionTypes.lookup (returnTy :: paramTys) = some id :=
    .lookup (f := State.functionTypes) (.enter (o := fun id => id :: returnTy :: paramTys) (r := fun id s =>
      { s with functionTypes := (returnTy :: paramTys, id) :: s.functionTypes }) (.signature (by simp) known) rfl)
  refine found.bind fun ty v steps' known => .of_pure ⟨steps'.tabulated.types returns',?_,mem_of_lookup known⟩
  exact params.imp fun q id pointer => pointer.tabulates steps'

theorem constantId_finds (c : Const) :
    Finds s (constantId c) fun id u => u.constants.lookup (c.kind, c.bits) = some id := by
  refine .lookup (f := State.constants) ((tyId_finds c.ty).bind fun t u _ typed => ?_)
  exact .enter (o := fun id => [t,id,c.bits]) (r := fun id s =>
    { s with constants := ((c.kind, c.bits), id) :: s.constants }) (.constant typed) rfl

end Tables

end Shading.Lowering
