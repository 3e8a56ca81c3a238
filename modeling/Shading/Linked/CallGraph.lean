import Shading.Linked.Fault
import Shading.Search

/-! Which functions call which: every called function has a body and none calls itself through others,
so that all can be ordered with callees first. -/
namespace Shading.Linked
open Typed

def body? (p : Program) (signature : String) : Option Function :=
  (p.function? signature).filter fun f => f.body.isSome

theorem mem_of_function? {p : Program} {s : String} {f : Function} (h : p.function? s = some f) :
    ∃ g ∈ p.functions, g.signature = s :=
  ⟨f,List.mem_of_find?_eq_some h,by simpa using List.find?_some h⟩

/-- Follows the calls of the function on top of the path, in their order. The result has every function
that was left, the latest one first. -/
def follow (p : Program) (path : List String) :
    (calls finished : List String) → Except Fault (List String)
  | [], finished => .ok finished
  | callee :: rest, finished =>
    let caller := path.headD ""
    if _fresh : callee ∈ path then .error ⟨p.file, 0, .recursion caller callee⟩
    else if callee ∈ finished then follow p path rest finished
    else
      match _known : p.function? callee with
      | none => .error ⟨p.file, ((p.function? caller).map Function.line).getD 0, .noBody callee⟩
      | some f =>
        if f.body.isNone then
          .error ⟨p.file, ((p.function? caller).map Function.line).getD 0, .noBody callee⟩
        else
          match follow p (callee :: path) f.callees finished with
          | .error e => .error e
          | .ok finished => follow p path rest (callee :: finished)
termination_by calls => (Search.unseen Function.signature p.functions path, calls.length)
decreasing_by
  · exact Prod.Lex.right _ (by simp)
  · exact Prod.Lex.left _ _ (Search.unseen_lt (mem_of_function? _known) _fresh)
  · exact Prod.Lex.right _ (by simp)

/-- Follows all calls from the given functions. -/
def followAll (p : Program) : List Function → List String → Except Fault (List String)
  | [], finished => .ok finished
  | f :: fs, finished =>
    if f.signature ∈ finished then followAll p fs finished
    else
      match follow p [f.signature] f.callees finished with
      | .error e => .error e
      | .ok finished => followAll p fs (f.signature :: finished)

def roots (p : Program) : List Function :=
  p.entry?.toList ++ p.functions.filter fun f => f.body.isSome

def checkCalls (p : Program) : Except Fault Unit :=
  match followAll p (roots p) [] with
  | .ok _ => .ok ()
  | .error e => .error e

/-- A step of a walk over the call graph. -/
inductive Step where
  | enter (f : Function)
  | leave (f : Function)

def walk (p : Program) (visited : List String) : List Step → List Function
  | [] => []
  | .leave f :: rest => f :: walk p visited rest
  | .enter f :: rest =>
    if _fresh : f.signature ∈ visited then walk p visited rest
    else if _known : f.signature ∈ p.functions.map Function.signature then
      walk p (f.signature :: visited)
        ((f.callees.filterMap (body? p)).map Step.enter ++ Step.leave f :: rest)
    else walk p visited rest
termination_by steps => (Search.unseen Function.signature p.functions visited, steps.length)
decreasing_by
  · exact Prod.Lex.right _ (by simp)
  · exact Prod.Lex.right _ (by simp)
  · exact Prod.Lex.left _ _ (Search.unseen_lt (by simpa using _known) _fresh)
  · exact Prod.Lex.right _ (by simp)

def calleesFirst (p : Program) : List Function := walk p [] ((roots p).map Step.enter)

end Shading.Linked
