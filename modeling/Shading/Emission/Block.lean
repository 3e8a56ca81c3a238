import Shading.Emission.Fault

/-! The control structure of a function body, as a tree. -/
namespace Shading.Emission
open Bytecode

inductive Node where
  | plain (i : Instruction)
  | if_ (cond : Id) (yes no : List Node)
  /-- A loop that is meant to be tested after its body (`tail`) or before it. `header` computes the
  first condition, `continuing` runs before the next turn and computes the last one. -/
  | loop (tail : Bool) (header : List Node) (cond : Option Id) (body continuing : List Node)
      (tailCond : Option Id)
  deriving Repr

mutual

def Node.mentions (id : Id) : Node → Nat
  | .plain i => (i.references.drop (if i.op.hasResultType then 1 else 0)).count id
  | .if_ cond yes no => (if cond = id then 1 else 0) + mentionsIn id yes + mentionsIn id no
  | .loop _ header cond body continuing tailCond =>
    (if cond = some id then 1 else 0) + (if tailCond = some id then 1 else 0) +
      mentionsIn id header + mentionsIn id body + mentionsIn id continuing

def mentionsIn (id : Id) : List Node → Nat
  | [] => 0
  | n :: ns => n.mentions id + mentionsIn id ns

end

/-- A construct whose end was not met yet, with its finished parts. -/
inductive Open where
  | ifThen (cond : Id)
  | orElse (cond : Id) (yes : List Node)
  /-- Before any condition. -/
  | loop (tail : Bool)
  /-- After the condition at the head. -/
  | turn (tail : Bool) (header : List Node) (cond : Id)
  | continuing (tail : Bool) (header : List Node) (cond : Option Id) (body : List Node)
  /-- After the condition at the tail. -/
  | closing (tail : Bool) (header : List Node) (cond : Option Id) (body continuing : List Node)
      (tailCond : Id)
  deriving Repr

def Open.wanted : Open → Opcode
  | .ifThen _ | .orElse _ _ => .endIf
  | .loop _ | .turn .. => .loopContinue
  | .continuing .. | .closing .. => .endLoop

/-- What a control instruction makes of an open construct and its current block: another open
construct, or a finished node. -/
def Open.next [Beyond] (o : Open) (block : List Node) (i : Instruction) : Except Fault (Open ⊕ Node) :=
  match o, i.op with
  | .ifThen c, .orElse => .ok (.inl (.orElse c block))
  | .ifThen c, .endIf => .ok (.inr (.if_ c block []))
  | .orElse c yes, .endIf => .ok (.inr (.if_ c yes block))
  | .loop t, .loopCondition => .ok (.inl (.turn t block (i.operand 0)))
  | .loop t, .loopContinue => .ok (.inl (.continuing t [] none block))
  | .turn t header c, .loopContinue => .ok (.inl (.continuing t header (some c) block))
  | .continuing t header c body, .loopCondition =>
    .ok (.inl (.closing t header c body block (i.operand 0)))
  | .continuing t header c body, .endLoop => .ok (.inr (.loop t header c body block none))
  | .closing t header c body after d, .endLoop =>
    .ok (.inr (.loop t header c body after (some d)))
  | o, op => .error (.expected o.wanted (some op))

def Open.isClosing : Open → Bool
  | .closing .. => true
  | _ => false

def endsBlock : Opcode → Bool
  | .orElse | .endIf | .loopCondition | .loopContinue | .endLoop => true
  | _ => false

def opens? [Beyond] (i : Instruction) : Option Open :=
  match i.op with
  | .ifThen => some (.ifThen (i.operand 0))
  | .loop => some (.loop (i.operand 0 != 0))
  | _ => none

/-- Reads code into the block that is innermost; the stack has the open constructs around it, each with
what stands before it in its own block. -/
def buildBlock [Beyond] (function : String) :
    List (Open × List Node) → List Node → List Instruction → Except Fault (List Node)
  | [], block, [] => .ok block
  | (o, _) :: _, _, [] => .error (.expected o.wanted none)
  | [], block, i :: rest =>
    if endsBlock i.op then .error (.unbalanced function)
    else
      match opens? i with
      | some o => buildBlock function [(o, block)] [] rest
      | none => buildBlock function [] (block ++ [.plain i]) rest
  | (o, before) :: stack, block, i :: rest =>
    if endsBlock i.op || o.isClosing then
      match o.next block i with
      | .error f => .error f
      | .ok (.inl o) => buildBlock function ((o, before) :: stack) [] rest
      | .ok (.inr node) => buildBlock function stack (before ++ [node]) rest
    else
      match opens? i with
      | some inner => buildBlock function ((inner, block) :: (o, before) :: stack) [] rest
      | none => buildBlock function ((o, before) :: stack) (block ++ [.plain i]) rest

def controlTree [Beyond] (function : String) (body : List Instruction) : Except Fault (List Node) :=
  buildBlock function [] [] body

end Shading.Emission
