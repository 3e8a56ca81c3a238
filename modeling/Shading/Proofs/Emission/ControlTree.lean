import Shading.Emission.Block

/-! The control structure of a function has the instructions of its body, in their order. -/
namespace Shading.Emission
open Bytecode

variable {i : Instruction} {function : String}

mutual

def Node.plains : Node → List Instruction
  | .plain i => [i]
  | .if_ _ yes no => plainsOf yes ++ plainsOf no
  | .loop _ header _ body continuing _ => plainsOf header ++ (plainsOf body ++ plainsOf continuing)

def plainsOf : List Node → List Instruction
  | [] => []
  | n :: ns => n.plains ++ plainsOf ns

end

@[simp] theorem plainsOf_nil : plainsOf [] = [] := by rw [plainsOf]

@[simp] theorem plainsOf_cons (n : Node) (ns : List Node) :
    plainsOf (n :: ns) = n.plains ++ plainsOf ns := by rw [plainsOf]

@[simp] theorem plainsOf_append (a b : List Node) : plainsOf (a ++ b) = plainsOf a ++ plainsOf b := by
  induction a with
  | nil => simp
  | cons n a ih => simp [ih]

/-- The instructions in the finished parts of a construct. -/
def Open.plains : Open → List Instruction
  | .ifThen _ | .loop _ => []
  | .orElse _ yes => plainsOf yes
  | .turn _ header _ => plainsOf header
  | .continuing _ header _ body => plainsOf header ++ plainsOf body
  | .closing _ header _ body after _ => plainsOf header ++ (plainsOf body ++ plainsOf after)

def stackPlains : List (Open × List Node) → List Instruction
  | [] => []
  | (o, before) :: stack => stackPlains stack ++ (plainsOf before ++ o.plains)

variable {o : Open} {block : List Node}

theorem Open.next_plains {r : Open ⊕ Node} (next : o.next block i = .ok r) :
    (r.elim Open.plains Node.plains).Sublist (o.plains ++ plainsOf block) := by
  unfold Open.next at next
  split at next <;> cases next <;> simp [Open.plains,Node.plains]

theorem opens?_plains (opened : opens? i = some o) : o.plains = [] := by
  unfold opens? at opened
  split at opened <;> cases opened <;> rfl

/-- Each step puts an instruction into the tree or drops it. -/
theorem buildBlock_plains {stack : List (Open × List Node)} {nodes : List Node}
    {code : List Instruction} (built : buildBlock function stack block code = .ok nodes) :
    (plainsOf nodes).Sublist (stackPlains stack ++ (plainsOf block ++ code)) := by
  induction code generalizing stack block with
  | nil =>
    cases stack with
    | nil =>
      cases built
      simp [stackPlains]
    | cons top stack => cases built
  | cons i code ih =>
    have skip {p q : List Instruction} : (p ++ (q ++ code)).Sublist (p ++ (q ++ i :: code)) :=
      ((List.sublist_cons_self i code).append_left q).append_left p
    cases stack with
    | nil =>
      rw [buildBlock] at built
      split at built
      case isTrue => cases built
      case isFalse =>
        split at built
        case h_1 o opened =>
          refine (ih built).trans (.trans ?_ skip)
          simp [stackPlains,opens?_plains opened]
        case h_2 =>
          refine (ih built).trans ?_
          simp [stackPlains,Node.plains]
    | cons top stack =>
      obtain ⟨o,before⟩ := top
      rw [buildBlock] at built
      split at built
      case isTrue =>
        split at built
        case h_1 => cases built
        case h_2 o' next =>
          refine (ih built).trans (.trans ?_ skip)
          simpa [stackPlains] using (Open.next_plains next).append_right code
        case h_3 node next =>
          refine (ih built).trans (.trans ?_ skip)
          simpa [stackPlains] using (Open.next_plains next).append_right code
      case isFalse =>
        split at built
        case h_1 inner opened =>
          refine (ih built).trans (.trans ?_ skip)
          simp [stackPlains,opens?_plains opened]
        case h_2 =>
          refine (ih built).trans ?_
          simp [stackPlains,Node.plains]

theorem controlTree_plains {body : List Instruction} {nodes : List Node}
    (built : controlTree function body = .ok nodes) : (plainsOf nodes).Sublist body :=
  buildBlock_plains built

end Shading.Emission
