import Shading.Emission.Block
import Shading.Emission.Declaration
import Shading.Search

/-! Statements of a function. A value that is used once waits until the text that uses it is written; a
value that is used more often gets a name. Before a store, a call or the end of a block all values that
wait get names, in their order, so that nothing is read too late. -/
namespace Shading.Emission
open Bytecode

/-- A value that waits for its use. -/
structure Pending where
  id : Id
  term : Term
  isCall : Bool := false
  deriving Repr

/-- What a function is written from. -/
structure Scene extends Context where
  globalTerms : Table Term
  functionNames : Table String
  /-- The ids that its body mentions, as often as it does. -/
  mentioned : List Id

def Scene.uses (s : Scene) (id : Id) : Nat := s.mentioned.count id

structure Writer where
  used : List String
  /-- Variables, named values and the places that pointers denote. -/
  terms : Table Term := []
  pending : List Pending := []
  extensions : List String := []
  /-- The statements of the block that is being written, the newest first. -/
  written : List Stmt := []

abbrev Write := StateT Writer (Except Fault)

def push (s : Stmt) : Write Unit := modify fun w => { w with written := s :: w.written }

/-- Work whose statements are given back in place of being written. -/
def apart {α : Type} (work : Write α) : Write (List Stmt × α) := do
  let saved := (← get).written
  modify fun w => { w with written := [] }
  let a ← work
  let block := (← get).written.reverse
  modify fun w => { w with written := saved }
  return (block, a)

def setTerm (id : Id) (term : Term) : Write Unit :=
  modify fun w => { w with terms := (id, term) :: w.terms }

def takeName (id : Id) (known : Option String) : Write String := do
  let name := freshName (← get).used id known
  modify fun w => { w with used := name :: w.used }
  return name

/-- The term of an id that is no constant. A value that waits is taken. -/
def takeTerm (s : Scene) (id : Id) : Write Term := do
  let w ← get
  match w.pending.find? fun p => p.id == id with
  | some p =>
    modify fun w => { w with pending := w.pending.eraseP fun p => p.id == id }
    return p.term
  | none => require (.undefined id) ((w.terms.lookup id).or (s.globalTerms.lookup id))

theorem mem_of_lookup {α : Type} {t : Table α} {id : Id} {a : α} (h : t.lookup id = some a) :
    ∃ p ∈ t, p.1 = id := by
  induction t with
  | nil => simp at h
  | cons p t ih =>
    by_cases e : id = p.1
    · exact ⟨p,by simp,e.symm⟩
    · rw [List.lookup_cons,beq_false_of_ne e] at h
      obtain ⟨q,hq,he⟩ := ih h
      exact ⟨q,by simp [hq],he⟩

mutual

def operandIn (s : Scene) (path : List Id) (id : Id) : Write Term :=
  match s.tables.constants.lookup id with
  | some c => return .literal c
  | none =>
    match _known : s.tables.composites.lookup id with
    | none => takeTerm s id
    | some (ty, parts) =>
      if _fresh : id ∈ path then throw (.undefined id)
      else do
        let type ← s.tables.ty ty
        return .apply type.text (← operandsIn s (id :: path) parts)
termination_by (Search.unseen Prod.fst s.tables.composites path, 0)
decreasing_by exact Prod.Lex.left _ _ (Search.unseen_lt (mem_of_lookup _known) _fresh)

def operandsIn (s : Scene) (path : List Id) : List Id → Write (List Term)
  | [] => return []
  | id :: ids => do
    let t ← operandIn s path id
    return t :: (← operandsIn s path ids)
termination_by ids => (Search.unseen Prod.fst s.tables.composites path, ids.length)
decreasing_by all_goals exact Prod.Lex.right _ (by simp)

end

def operand (s : Scene) (id : Id) : Write Term := operandIn s [] id

def operands (s : Scene) (ids : List Id) : Write (List Term) := operandsIn s [] ids

def nameValue (s : Scene) (id : Id) (term : Term) : Write Unit := do
  let ty ← s.tables.valueTy id
  let name ← takeName id none
  push (.value id ty name term)
  setTerm id (.name name)

def settle (s : Scene) : Write Unit := do
  let waiting := (← get).pending
  modify fun w => { w with pending := [] }
  waiting.forM fun p => nameValue s p.id p.term

def wait (p : Pending) : Write Unit := modify fun w => { w with pending := w.pending ++ [p] }

def keepValue (s : Scene) (id : Id) (term : Term) : Write Unit :=
  match s.uses id with
  | 0 => pure ()
  | 1 => wait { id, term }
  | _ => nameValue s id term

def elementOf (s : Scene) (composite : Ty) (base : Term) (index : Id) : Write Term := do
  match composite.isVector, (s.tables.constants.lookup index).bind Const.integer? with
  | true, some n =>
    let suffix ← require .badVectorIndex (if 0 ≤ n then Phrase.swizzle? [n.toNat] else none)
    return .select base suffix
  | _, _ => return .element base (← operand s index)

/-- A pointer may be used later, so an index that waits gets a name now, after the calls before it. -/
def settleIndex (s : Scene) (index : Id) : Write Unit := do
  let pending := (← get).pending
  match pending.find? fun p => p.id == index with
  | none => return
  | some p =>
    let before := pending.takeWhile fun q => q.id != index
    if p.isCall || before.any Pending.isCall then settle s
    else
      modify fun w => { w with pending := w.pending.eraseP fun q => q.id == index }
      nameValue s p.id p.term

def indexChain (s : Scene) : Ty → Term → List Id → Write Term
  | _, term, [] => return term
  | ty, term, index :: rest => do
    settleIndex s index
    let next ← elementOf s ty term index
    let element ← require (.notIndexable ty) ty.element?
    indexChain s element next rest

/-- A store right after the declaration of its variable becomes the declared value. -/
def writeStore (s : Scene) (pointer value : Id) : Write Unit := do
  let t ← operand s pointer
  let v ← operand s value
  settle s
  modify fun w =>
    match w.written with
    | .local_ l none :: before =>
      if l.id = pointer then
        { w with written := .local_ { l with name := t.text } (some v) :: before }
      else { w with written := .act (.assign pointer t v) :: w.written }
    | _ => { w with written := .act (.assign pointer t v) :: w.written }

def writeDeclaration (s : Scene) (id : Id) : Write Unit := do
  let ty ← s.tables.pointee id
  let name ← takeName id (s.tables.names.lookup id)
  push (.local_ ⟨id, ty, name⟩ none)
  setTerm id (.name name)

def binaryTerm [Beyond] (s : Scene) (i : Instruction) : Write Term := do
  let op ← require .badBinary (BinaryOp.ofCode? (i.operand 2).toNat)
  if op.isIntegerOnly && s.target.isLegacy then throw (.noOperator op.symbol s.target)
  let l ← operand s (i.operand 3)
  let r ← operand s (i.operand 4)
  return .binary op l r

def unaryTerm [Beyond] (s : Scene) (i : Instruction) : Write Term := do
  let op ← require .badUnary (UnaryOp.ofCode? (i.operand 2).toNat)
  if op == .bitNot && s.target.isLegacy then throw (.noOperator op.symbol s.target)
  return .unary op (← operand s (i.operand 3))

def constructTerm [Beyond] (s : Scene) (i : Instruction) : Write Term := do
  let ty ← s.tables.ty (i.operand 0)
  if ty.isArray && s.target.isLegacy && s.target.es then throw (.arrayConstructor s.target)
  return .apply ty.text (← operands s (i.operandsFrom 2))

def swizzleTerm [Beyond] (s : Scene) (i : Instruction) : Write Term := do
  let baseTy ← s.tables.valueTy (i.operand 2)
  let base ← operand s (i.operand 2)
  let components := (i.operandsFrom 3).map UInt32.toNat
  if baseTy.isScalar then
    if components.length = 1 then return base
    else return .apply (← s.tables.ty (i.operand 0)).text [base]
  else return .select base (← require .badComponent (Phrase.swizzle? components))

def extractTerm [Beyond] (s : Scene) (i : Instruction) : Write Term := do
  let composite ← s.tables.valueTy (i.operand 2)
  let base ← operand s (i.operand 2)
  elementOf s composite base (i.operand 3)

def selectTerm [Beyond] (s : Scene) (i : Instruction) : Write Term := do
  let c ← operand s (i.operand 2)
  let a ← operand s (i.operand 3)
  let b ← operand s (i.operand 4)
  return .ternary c a b

def samplerOf? (s : Scene) (id : Option Id) : Option Sampler :=
  match id.map s.tables.valueTy with
  | some (.ok (.sampler t)) => some t
  | _ => none

def builtinTerm [Beyond] (s : Scene) (i : Instruction) : Write Term := do
  let f ← require .badFunction (Builtin.Func.ofCode? (i.operand 2).toNat)
  let (name, suffix) ← ofTarget (s.target.funcName f (samplerOf? s i.operands[3]?) s.stage)
  if let some e := s.target.funcExtension? f s.stage then
    modify fun w => { w with extensions := e :: w.extensions }
  let call := Term.apply name (← operands s (i.operandsFrom 3))
  return if suffix.isEmpty then call else .select call suffix

def valueTerm [Beyond] (s : Scene) (i : Instruction) : Write Term :=
  match i.op with
  | .load => do return .load (i.operand 1) (← operand s (i.operand 2))
  | .binary => binaryTerm s i
  | .unary => unaryTerm s i
  | .construct => constructTerm s i
  | .swizzle => swizzleTerm s i
  | .extract => extractTerm s i
  | .select => selectTerm s i
  | .builtin => builtinTerm s i
  | op => throw (.unexpected op)

/-- A call is written where it stands; only its result may wait. -/
def writeCall [Beyond] (s : Scene) (i : Instruction) : Write Unit := do
  let name ← require (.unknownFunction (i.operand 2)) (s.functionNames.lookup (i.operand 2))
  let args ← operands s (i.operandsFrom 3)
  settle s
  let id := i.operand 1
  let call := Term.call id name args
  match s.uses id with
  | 0 => push (.act (.run call))
  | 1 => wait ⟨id, call, true⟩
  | _ => nameValue s id call

def writeInstruction [Beyond] (s : Scene) (i : Instruction) : Write Unit :=
  match i.op with
  | .nop => return
  | .var => writeDeclaration s (i.operand 1)
  | .store => writeStore s (i.operand 0) (i.operand 1)
  | .accessChain => do
    let ty ← s.tables.pointee (i.operand 2)
    let base ← operand s (i.operand 2)
    setTerm (i.operand 1) (← indexChain s ty base (i.operandsFrom 3))
  | .call => writeCall s i
  | .ret => do
    settle s
    push (.return_ none)
  | .retValue => do
    let v ← operand s (i.operand 0)
    settle s
    push (.return_ (some v))
  | .kill => do
    settle s
    push .discard
  | .breakLoop => do
    settle s
    push .break_
  | .continueLoop => do
    settle s
    push .continue_
  | _ => do keepValue s (i.operand 1) (← valueTerm s i)

/-- Takes the declaration right before a loop that tests at its head, if its variable is used in the
loop only. -/
def takeLoopInit (s : Scene) (node : Node) : Write (Option (Local × Term)) := do
  let w ← get
  match w.written, node with
  | .local_ l (some v) :: before, .loop false .. =>
    if s.uses l.id = 1 + node.mentions l.id then
      modify fun w => { w with written := before }
      return some (l, v)
    else return none
  | _, _ => return none

def takeFlag : Write String := do
  let name := freshFlag (← get).used
  modify fun w => { w with used := name :: w.used }
  return name

/-- The statements and conditions of a loop. -/
structure LoopParts where
  tail : Bool
  header : List Stmt
  cond : Option Term
  body : List Stmt
  continuing : List Stmt
  tailCond : Option Term

def exitUnless (cond : Option Term) : List Stmt := (cond.map Stmt.exit).toList

/-- One turn of an endless loop. What runs before the next turn is done at the start of every turn but
the first, which a flag tells apart. -/
def LoopParts.turn (l : LoopParts) (flag : Option String) : List Stmt :=
  (match flag with
    | none => []
    | some f => [.resume f (l.continuing ++ exitUnless l.tailCond), .raise f]) ++
  l.header ++ exitUnless l.cond ++ l.body

def writeFlagged (l : LoopParts) : Write Unit :=
  if l.continuing.isEmpty && l.tailCond.isNone then push (.loop none none [] (l.turn none))
  else do
    let flag ← takeFlag
    push (.flag flag)
    push (.loop none none [] (l.turn (some flag)))

def Stmt.action? : Stmt → Option Action
  | .act a => some a
  | _ => none

def LoopParts.steps? (l : LoopParts) : Option (List Action) :=
  if !l.tail && l.header.isEmpty then l.continuing.mapM Stmt.action? else none

/-- The plainest form that a loop can have: `while` or `for`, `do`, or an endless loop with exits. -/
def writeLoop (init : Option (Local × Term)) (l : LoopParts) : Write Unit :=
  match l.steps? with
  | some steps => push (.loop init l.cond steps l.body)
  | none => do
    if let some (v, value) := init then push (.local_ v (some value))
    if l.tail && l.continuing.isEmpty then
      match l.tailCond with
      | none => throw .tailWithoutCondition
      | some c => push (.doWhile l.body c)
    else writeFlagged l

mutual

def writeNode [Beyond] (s : Scene) : Node → Write Unit
  | .plain i => writeInstruction s i
  | .if_ cond yes no => do
    let c ← operand s cond
    settle s
    let (yes, _) ← apart do
      writeNodes s yes
      settle s
    if no.isEmpty then push (.if_ c yes)
    else do
      let (no, _) ← apart do
        writeNodes s no
        settle s
      push (.ifElse c yes no)
  | .loop tail header cond body continuing tailCond => do
    settle s
    let init ← takeLoopInit s (.loop tail header cond body continuing tailCond)
    let (header, c) ← apart do
      writeNodes s header
      cond.mapM (operand s)
    let (body, _) ← apart do
      settle s
      writeNodes s body
      settle s
    let (continuing, d) ← apart do
      writeNodes s continuing
      let d ← tailCond.mapM (operand s)
      settle s
      pure d
    writeLoop init ⟨tail, header, c, body, continuing, d⟩

def writeNodes [Beyond] (s : Scene) : List Node → Write Unit
  | [] => return
  | n :: ns => do
    writeNode s n
    writeNodes s ns

end

end Shading.Emission
