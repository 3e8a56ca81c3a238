import Shading.Surface.Outline
import Shading.Typed.Tree

/-! Checked programs as bracketed outlines, in which every expression is followed by its type. -/
namespace Shading.Typed
open Surface (node)

def constWords : Const → List String
  | .bool b => ["bool", if b then "true" else "false"]
  | .int n => ["int", toString n.toInt]
  | .uint n => ["uint", toString n.toNat]
  | .float x => ["float", Bytes.hex 8 x.bits.toNat]

def VarRef.words : VarRef → List String
  | .global name => ["global", name]
  | .local_ i => ["local", toString i]
  | .param i => ["param", toString i]

mutual

def Expr.outline : Expr → String
  | .const c => node (constWords c) ++ ":" ++ c.ty.text
  | .var v t => node v.words ++ ":" ++ t.text
  | .binary op l r t => node ["bin", op.symbol, l.outline, r.outline] ++ ":" ++ t.text
  | .unary op e => node ["un", op.symbol, e.outline] ++ ":" ++ e.ty.text
  | .assign op t v =>
    node ["asg", (op.map BinaryOp.symbol).getD "" ++ "=", t.outline, v.outline] ++ ":" ++ t.ty.text
  | .step up before e =>
    node [(if before then "pre" else "post") ++ (if up then "++" else "--"), e.outline] ++ ":" ++
      e.ty.text
  | .select c a b => node ["select", c.outline, a.outline, b.outline] ++ ":" ++ a.ty.text
  | .construct args t => node ("construct" :: exprOutlines args) ++ ":" ++ t.text
  | .call f args t => node ("call" :: f :: exprOutlines args) ++ ":" ++ t.text
  | .builtin f args t => node ("builtin" :: f.name :: exprOutlines args) ++ ":" ++ t.text
  | .swizzle e cs t =>
    node ["swizzle", e.outline, String.join (cs.map toString)] ++ ":" ++ t.text
  | .index e i t => node ["index", e.outline, i.outline] ++ ":" ++ t.text

def exprOutlines : List Expr → List String
  | [] => []
  | e :: es => e.outline :: exprOutlines es

end

def optionOutline (e : Option Expr) : String := (e.map Expr.outline).getD "-"

def braced (body : List String) : String := "\x7b" ++ " ".intercalate body ++ "\x7d"

mutual

def Stmt.outline : Stmt → String
  | .expr e =>
    node ["expr" ++ (if e.hasEffect then "!" else "") ++ (if e.isAccess then "&" else ""), e.outline]
  | .declare i init => node ["declare", toString i, optionOutline init]
  | .if_ c yes no => node ["if", c.outline, braced (stmtOutlines yes), braced (stmtOutlines no)]
  | .loop head cond step body =>
    node ["loop", if head then "head" else "tail", optionOutline cond, optionOutline step,
      braced (stmtOutlines body)]
  | .block body => node ["block", braced (stmtOutlines body)]
  | .return_ v => node ("return" :: (v.map Expr.outline).toList)
  | .break_ => node ["break"]
  | .continue_ => node ["continue"]
  | .discard => node ["discard"]

def stmtOutlines : List Stmt → List String
  | [] => []
  | s :: ss => s.outline :: stmtOutlines ss

end

def Global.outline (g : Global) : String :=
  " ".intercalate ([g.storage.text, g.name, g.ty.text, "line=" ++ toString g.line] ++
    (g.location.map fun n => "location=" ++ toString n).toList ++
    (g.binding.map fun n => "binding=" ++ toString n).toList ++
    (g.interpolation.map Interpolation.text).toList ++
    (if g.invariant then ["invariant"] else []) ++
    (g.builtin.map fun v => "builtin=" ++ toString v.code).toList ++
    (if g.readOnly then ["readonly"] else []) ++
    (g.init.map fun e => "= " ++ e.outline).toList)

def Param.outline (p : Param) : String :=
  (if p.readOnly then "const " else "") ++ p.passing.text ++ " " ++ p.ty.text ++ " " ++ p.name

def Local.outline (l : Local) : String :=
  (if l.readOnly then "const " else "") ++ l.ty.text ++ " " ++ l.name

/-- A heading, and a line for each statement. -/
def Function.outline (f : Function) : List String :=
  (f.returnTy.text ++ " " ++ f.signature ++ " line=" ++ toString f.line ++
    " params=[" ++ ", ".intercalate (f.params.map Param.outline) ++
    "] locals=[" ++ ", ".intercalate (f.locals.map Local.outline) ++
    "] calls=[" ++ " ".intercalate f.callees ++ "]") ::
  match f.body with
  | some body => (stmtOutlines body).map ("  " ++ ·)
  | none => ["  <prototype>"]

end Shading.Typed
