import Shading.Bytecode.Pass.Basic
import Shading.Search

/-! Deletes the functions that the entry point does not reach. -/
namespace Shading.Bytecode.Pass

def FunctionCode.callees (f : FunctionCode) : List Id := f.code.filterMap Instruction.callee?

def calleesOf (functions : List FunctionCode) (id : Id) : List Id :=
  match (functions.filter fun f => f.id == id).getLast? with
  | some f => f.callees
  | none => []

/-- The functions that are reached from those to be visited, with those that were. -/
def reachable (functions : List FunctionCode) (live : List Id) : List Id → List Id
  | [] => live
  | id :: work =>
    if _fresh : id ∈ live then reachable functions live work
    else if _known : id ∈ functions.map FunctionCode.id then
      reachable functions (id :: live) (calleesOf functions id ++ work)
    else reachable functions live work
termination_by work => (Search.unseen FunctionCode.id functions live, work.length)
decreasing_by
  · exact Prod.Lex.right _ (by simp)
  · exact Prod.Lex.left _ _ (Search.unseen_lt (by simpa using _known) _fresh)
  · exact Prod.Lex.right _ (by simp)

def entry? (code : List Instruction) : Option Id :=
  (code.find? fun i => i.op == .entryPoint).bind fun i => i.operands.head?

def dropDeadFunctions (code : List Instruction) : Result :=
  match entry? code with
  | none => .error .noEntry
  | some entry => do
    let ps ← parts code
    let live := reachable (ps.filterMap Part.function?) [] [entry]
    let (kept, removed) := ps.partition fun p => p.function?.all fun f => live.contains f.id
    if removed.isEmpty then return { code }
    else return ⟨dropStaleAnnotations (kept.flatMap Part.code),
      some ("removed " ++ toString removed.length ++ " unreachable functions")⟩

end Shading.Bytecode.Pass
