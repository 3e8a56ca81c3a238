import Shading.Const
import Shading.Proofs.Bytecode.Parts

/-! What modules do. A machine says what values are and what the operations without effects compute; it
agrees with the arithmetic of constants where that is defined. Structured code runs on a memory, with a
bound on the turns of loops and the calls that are open; a larger bound changes no run that has ended, so
every module behaves in exactly one way. -/
namespace Shading.Bytecode

namespace Instruction

def literals (i : Instruction) : List UInt32 :=
  (i.operands.zipIdx.filter fun (_, p) => !i.refersAt p && i.resultPosition? != some p).map Prod.fst

def arguments (i : Instruction) : List Id := if i.op.hasResultType then i.mentions.tail else i.mentions

end Instruction

/-- A type with all that it is made of. -/
inductive Shape where
  | node (op : Opcode) (literals : List UInt32) (parts : List Shape)

namespace Shape

def unknown : Shape := .node .nop [] []

def scalar? : Shape → Option Scalar
  | .node .typeBool _ _ => some .bool
  | .node .typeFloat _ _ => some .float
  | .node .typeInt (sign :: _) _ => some (if sign ≠ 0 then .int else .uint)
  | _ => none

end Shape

/-- Values and what is computed with them. Only what constants fix is fixed. -/
structure Machine (V : Type) where
  scalar : Const → V
  truth : V → Bool
  /-- The value of an operation: its result's type, the operands that are no ids, and its arguments. -/
  apply : Opcode → Shape → List UInt32 → List V → V
  /-- What a variable holds before anything is stored in it. -/
  unset : Shape → V
  /-- The part of a value that a path of indices leads to. -/
  part : V → List V → V
  /-- The value with that part replaced. -/
  update : V → List V → V → V
  truth_scalar : ∀ b, truth (scalar (.bool b)) = b
  apply_binary : ∀ {shape w rest op a b c}, BinaryOp.ofCode? w.toNat = some op →
    Const.binary? op a b = some c → shape.scalar? = some c.kind →
      apply .binary shape (w :: rest) [scalar a, scalar b] = scalar c
  apply_unary : ∀ {shape w rest op a c}, UnaryOp.ofCode? w.toNat = some op →
    Const.unary? op a = some c → shape.scalar? = some c.kind →
      apply .unary shape (w :: rest) [scalar a] = scalar c
  apply_construct : ∀ {shape kind a}, shape.scalar? = some kind →
    apply .construct shape [] [scalar a] = scalar (a.cast kind)

namespace Execution

variable {V : Type} (m : Machine V)

/-- What memory consists of: the variables of the module in their order, and those of the calls that are
open. -/
inductive Cell where
  | shared (n : Nat)
  | frame (depth : Nat) (id : Id)
  deriving DecidableEq, Repr

/-- What an id stands for. -/
inductive Datum (V : Type) where
  | value (v : V)
  | pointer (cell : Cell) (path : List V)

/-- How a piece of code was left. -/
inductive Flow (V : Type) where
  | next
  | broke
  | continued
  | returned (d : Datum V)
  | killed

structure State (V : Type) where
  env : Id → Datum V
  memory : Cell → V

abbrev Result (V : Type) := Option (Flow V × State V)

def nothing : V := m.unset .unknown

namespace Datum

def get (d : Datum V) : V :=
  match d with
  | .value v => v
  | .pointer _ _ => nothing m

def holds (d : Datum V) : Bool := m.truth (d.get m)

end Datum

namespace State

variable (s : State V)

def bind (x : Id) (d : Datum V) : State V := { s with env := fun y => if y = x then d else s.env y }

def set (c : Cell) (v : V) : State V := { s with memory := fun c' => if c' = c then v else s.memory c' }

theorem bind_env_self (x : Id) (d : Datum V) : (s.bind x d).env x = d := if_pos rfl

theorem bind_env_of_ne {x y : Id} (other : y ≠ x) (d : Datum V) : (s.bind x d).env y = s.env y :=
  if_neg other

theorem set_memory_self (c : Cell) (v : V) : (s.set c v).memory c = v := if_pos rfl

theorem set_memory_of_ne {c c' : Cell} (other : c' ≠ c) (v : V) : (s.set c v).memory c' = s.memory c' :=
  if_neg other

def give (i : Instruction) (d : Datum V) : State V :=
  match i.result? with
  | some r => s.bind r d
  | none => s

def data (i : Instruction) : List (Datum V) := i.arguments.map s.env

end State

/-- The value of an operation without effects. -/
def compute (shape : Shape) (memory : Cell → V) (i : Instruction) (arguments : List (Datum V)) : Datum V :=
  match i.op with
  | .load =>
    match arguments with
    | [.pointer c path] => .value (m.part (memory c) path)
    | _ => .value (nothing m)
  | .accessChain =>
    match arguments with
    | .pointer c path :: indices => .pointer c (path ++ indices.map (Datum.get m))
    | _ => .value (nothing m)
  | .select =>
    match arguments with
    | [cond, yes, no] => if cond.holds m then yes else no
    | _ => .value (nothing m)
  | op => .value (m.apply op shape i.literals (arguments.map (Datum.get m)))

namespace Flow

def after : Flow V → Flow V
  | .killed => .killed
  | _ => .next

def result (flow : Flow V) : Datum V :=
  match flow with
  | .returned d => d
  | _ => .value (nothing m)

end Flow

def resume (i : Instruction) : Flow V × State V → Flow V × State V
  | (flow, s) => (flow.after, s.give i (flow.result m))

/-- What a plain instruction does. -/
def step (shapes : Id → Shape) (depth : Nat) (call : Id → List (Datum V) → State V → Result V)
    (i : Instruction) (s : State V) : Result V :=
  let shape := (i.resultType?.map shapes).getD .unknown
  match i.op with
  | .store =>
    match s.data i with
    | [.pointer c path, d] => some (.next, s.set c (m.update (s.memory c) path (d.get m)))
    | _ => some (.next, s)
  | .var =>
    match i.result? with
    | some r => some (.next, (s.set (.frame depth r) (m.unset shape)).bind r (.pointer (.frame depth r) []))
    | none => some (.next, s)
  | .call =>
    match i.callee? with
    | some f => (call f (s.data i) s).map (resume m i)
    | none => some (.next, s.give i (.value (nothing m)))
  | .loopCondition =>
    match s.data i with
    | [d] => some (if d.holds m then .next else .broke, s)
    | _ => some (.next, s)
  | .breakLoop => some (.broke, s)
  | .continueLoop => some (.continued, s)
  | .ret => some (.returned (.value (nothing m)), s)
  | .retValue =>
    match s.data i with
    | [d] => some (.returned d, s)
    | _ => some (.returned (.value (nothing m)), s)
  | .kill => some (.killed, s)
  | _ => some (.next, s.give i (compute m shape s.memory i (s.data i)))

namespace Result

def andThen (r : Result V) (k : State V → Result V) : Result V :=
  match r with
  | some (.next, s) => k s
  | r => r

/-- What follows in the loop runs if the end was reached, or a jump to it. -/
def onward (r : Result V) (k : State V → Result V) : Result V :=
  match r with
  | some (.next, s) => k s
  | some (.continued, s) => k s
  | r => r

def leave (r : Result V) : Result V :=
  match r with
  | some (.broke, s) => some (.next, s)
  | r => r

end Result

open Result

def exec (step : Instruction → State V → Result V) (again : Block → State V → Result V) :
    Block → State V → Result V
  | .done, s => some (.next, s)
  | .plain i rest, s => andThen (step i s) (exec step again rest)
  | .ifThen c yes rest, s =>
    andThen (if (s.env c).holds m then exec step again yes s else some (.next, s))
      (exec step again rest)
  | .ifElse c yes no rest, s =>
    andThen (if (s.env c).holds m then exec step again yes s else exec step again no s)
      (exec step again rest)
  | .loop t body continuing rest, s =>
    andThen (leave (onward (onward (exec step again body s) (exec step again continuing))
      (again (.loop t body continuing .done)))) (exec step again rest)

/-- What ids of the module stand for. -/
structure Globals (V : Type) where
  shapes : Id → Shape
  data : Id → Datum V
  /-- How many variables there are. -/
  count : Nat

namespace Globals

def empty : Globals V := ⟨fun _ => .unknown, fun _ => .value (nothing m), 0⟩

def bind (g : Globals V) (x : Id) (d : Datum V) : Globals V :=
  { g with data := fun y => if y = x then d else g.data y }

/-- The value of a constant. -/
def constant (g : Globals V) (i : Instruction) : V :=
  let shape := (i.resultType?.map g.shapes).getD .unknown
  match i.op, shape.scalar?, i.literals with
  | .constant, some kind, w :: _ => m.scalar (.ofBits kind w)
  | op, _, literals => m.apply op shape literals (i.arguments.map fun x => (g.data x).get m)

def declare (g : Globals V) (i : Instruction) : Globals V :=
  match i.result? with
  | none => g
  | some r =>
    match i.op with
    | .var => { g.bind r (.pointer (.shared g.count) []) with count := g.count + 1 }
    | .constant | .constantComposite => g.bind r (.value (g.constant m i))
    | op =>
      match op.isType with
      | true =>
        let shape := .node op i.literals (i.references.map g.shapes)
        { g with shapes := fun y => if y = r then shape else g.shapes y }
      | false => g

end Globals

/-- A parameter stands for the variable that a pointer leads to, or for a variable of its own that holds
the value that is passed. -/
def receive (depth : Nat) (p : Instruction) (argument : Option (Datum V)) (s : State V) : State V :=
  match p.result?, argument with
  | none, _ => s
  | some r, some (.pointer c path) => s.bind r (.pointer c path)
  | some r, some (.value v) => (s.set (.frame depth r) v).bind r (.pointer (.frame depth r) [])
  | some r, none => (s.set (.frame depth r) (nothing m)).bind r (.pointer (.frame depth r) [])

def enter (depth : Nat) : List Instruction → List (Datum V) → State V → State V
  | [], _, s => s
  | p :: params, arguments, s => enter depth params arguments.tail (receive m depth p arguments.head? s)

end Execution

open Execution

namespace Outline

variable {V : Type} (t : Outline) (m : Machine V)

def globals : Globals V := t.outside.foldl (Globals.declare m) (.empty m)

def routine? (f : Id) : Option Routine := t.routines.find? fun r => r.id == f

/-- A call of a function, by what its body does. -/
def call (depth : Nat) (run : Block → State V → Result V) (f : Id) (arguments : List (Datum V))
    (s : State V) : Result V :=
  match t.routine? f with
  | none => some (.next, s)
  | some r =>
    (run r.body (enter m depth r.params arguments ⟨(t.globals m).data, s.memory⟩)).map
      fun (flow, s') => (flow, { s with memory := s'.memory })

/-- What a block does, if the bound is not reached. -/
def run : Nat → Nat → Block → State V → Result V
  | 0, _, _, _ => none
  | bound + 1, depth, b, s =>
    exec m (step m (t.globals m).shapes depth (t.call m (depth + 1) (run bound (depth + 1))))
      (run bound depth) b s

def mainId? : Option Id :=
  (t.outside.find? fun i => i.op == .entryPoint).bind fun i => i.operands.head?

def main? : Option Routine := t.mainId?.bind t.routine?

end Outline

namespace Execution

/-- How a module is left. -/
inductive Ending where
  | returned
  | killed
  deriving DecidableEq, Repr

/-- What is seen of a run: its end and what the variables of the module hold then. -/
inductive Behavior (V : Type) where
  | ends (how : Ending) (contents : Nat → V)
  | diverges

def Flow.ending : Flow V → Ending
  | .killed => .killed
  | _ => .returned

def State.contents (s : State V) (n : Nat) : V := s.memory (.shared n)

end Execution

namespace Outline

variable {V : Type} (t : Outline) (m : Machine V)

/-- Where the variables of the module hold what they are given. -/
def start (init : Nat → V) : State V :=
  ⟨(t.globals m).data, fun c =>
    match c with
    | .shared n => init n
    | .frame _ _ => nothing m⟩

/-- The end of a run of a function from a state, if the bound is not reached. -/
def outcome (r : Routine) (s : State V) (bound : Nat) : Option (Ending × (Nat → V)) :=
  (t.run m bound 0 r.body (enter m 0 r.params [] s)).map fun (flow, s') => (flow.ending, s'.contents)

/-- The module with the given contents of its variables behaves so. -/
def Behaves (init : Nat → V) (seen : Behavior V) : Prop :=
  ∃ r, t.main? = some r ∧
    match seen with
    | .ends how contents => ∃ bound, t.outcome m r (t.start m init) bound = some (how, contents)
    | .diverges => ∀ bound, t.outcome m r (t.start m init) bound = none

end Outline

namespace Execution

variable {V : Type} {m : Machine V} {call : Id → List (Datum V) → State V → Result V} {depth : Nat}

def Result.Le (r r' : Result V) : Prop := ∀ x, r = some x → r' = some x

namespace Result

variable {r r' : Result V} {k k' : State V → Result V}

theorem Le.andThen (first : Le r r') (second : ∀ s, Le (k s) (k' s)) :
    Le (andThen r k) (andThen r' k') := by
  intro x ends
  match r, first with
  | none, _ => cases ends
  | some (flow, s), first =>
    rw [first _ rfl]
    cases flow with
    | next => exact second s x ends
    | _ => exact ends

theorem Le.onward (first : Le r r') (second : ∀ s, Le (k s) (k' s)) :
    Le (onward r k) (onward r' k') := by
  intro x ends
  match r, first with
  | none, _ => cases ends
  | some (flow, s), first =>
    rw [first _ rfl]
    cases flow with
    | next => exact second s x ends
    | continued => exact second s x ends
    | _ => exact ends

theorem Le.leave (first : Le r r') : Le (leave r) (leave r') := by
  intro x ends
  match r, first with
  | none, _ => cases ends
  | some (flow, s), first =>
    rw [first _ rfl]
    exact ends

end Result

open Result

theorem exec_le {step step' : Instruction → State V → Result V}
    {again again' : Block → State V → Result V} (steps : ∀ i s, Le (step i s) (step' i s))
    (turns : ∀ b s, Le (again b s) (again' b s)) (b : Block) :
    ∀ s, Le (exec m step again b s) (exec m step' again' b s) := by
  induction b with
  | done => exact fun _ _ ends => ends
  | plain i rest ih => exact fun s => Le.andThen (steps i s) ih
  | ifThen c yes rest ihYes ih =>
    intro s
    apply Le.andThen _ ih
    split
    · exact ihYes s
    · exact fun _ ends => ends
  | ifElse c yes no rest ihYes ihNo ih =>
    intro s
    apply Le.andThen _ ih
    split
    · exact ihYes s
    · exact ihNo s
  | loop t body continuing rest ihBody ihContinuing ih =>
    exact fun s => Le.andThen (Le.leave (Le.onward (Le.onward (ihBody s) ihContinuing) (turns _))) ih

variable {shapes : Id → Shape}

theorem step_le {call' : Id → List (Datum V) → State V → Result V}
    (calls : ∀ f arguments s, Le (call f arguments s) (call' f arguments s)) (i : Instruction)
    (s : State V) : Le (step m shapes depth call i s) (step m shapes depth call' i s) := by
  intro x ends
  by_cases op : i.op = .call
  · simp only [step,op] at ends ⊢
    split at ends
    · rename_i f called
      obtain ⟨y,result,rfl⟩ := Option.map_eq_some_iff.mp ends
      rw [calls f _ s y result]
      rfl
    · exact ends
  · rw [← ends]
    unfold step
    split <;> first | rfl | exact absurd ‹_› op

theorem step_of_isPure {i : Instruction} {s : State V} (pure : i.op.isPure = true) :
    step m shapes depth call i s =
      some (.next, s.give i (compute m ((i.resultType?.map shapes).getD .unknown) s.memory i
        (s.data i))) := by
  obtain ⟨op,operands⟩ := i
  cases op <;> first | rfl | cases pure

end Execution

namespace Outline

variable {r : Routine}

open Result

variable {V : Type} {t : Outline} {m : Machine V}

theorem run_le_succ (bound : Nat) : ∀ depth b s, Le (t.run m bound depth b s) (t.run m (bound + 1) depth b s) := by
  induction bound with
  | zero => exact fun _ _ _ _ ends => nomatch ends
  | succ bound ih =>
    intro depth b s
    refine exec_le (step_le fun f arguments s => ?_) (ih depth) b s
    intro x ends
    unfold call at ends ⊢
    split at ends
    · exact ends
    · obtain ⟨y,result,rfl⟩ := Option.map_eq_some_iff.mp ends
      rw [ih _ _ _ y result]
      rfl

theorem outcome_le {s : State V} {bound bound' : Nat} (le : bound ≤ bound')
    {seen : Ending × (Nat → V)} (ends : t.outcome m r s bound = some seen) :
    t.outcome m r s bound' = some seen := by
  induction le with
  | refl => exact ends
  | step _ ih =>
    obtain ⟨y,result,rfl⟩ := Option.map_eq_some_iff.mp ih
    rw [outcome,run_le_succ _ _ _ _ y result]
    rfl

theorem behaves_unique (main : t.main? = some r) (init : Nat → V) :
    ∃ seen, ∀ seen', t.Behaves m init seen' ↔ seen' = seen := by
  have runs : ∀ seen, t.Behaves m init seen ↔
      match seen with
      | .ends how contents => ∃ bound, t.outcome m r (t.start m init) bound = some (how, contents)
      | .diverges => ∀ bound, t.outcome m r (t.start m init) bound = none := by
    simp [Behaves,main]
  by_cases stops : ∃ bound seen, t.outcome m r (t.start m init) bound = some seen
  · obtain ⟨bound,⟨how,contents⟩,ends⟩ := stops
    refine ⟨.ends how contents,fun seen' => ?_⟩
    rw [runs]
    cases seen' with
    | ends how' contents' =>
      constructor
      · rintro ⟨bound',ends'⟩
        have first := outcome_le (Nat.le_max_left bound bound') ends
        have second := outcome_le (Nat.le_max_right bound bound') ends'
        rw [first] at second
        cases second
        rfl
      · rintro ⟨⟩
        exact ⟨bound,ends⟩
    | diverges =>
      refine ⟨fun never => ?_,fun same => nomatch same⟩
      rw [never bound] at ends
      cases ends
  · have never : ∀ bound, t.outcome m r (t.start m init) bound = none := by
      intro bound
      rw [Option.eq_none_iff_forall_ne_some]
      exact fun seen ends => stops ⟨bound,seen,ends⟩
    refine ⟨.diverges,fun seen' => ?_⟩
    grind

end Outline

end Shading.Bytecode
