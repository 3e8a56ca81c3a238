import Shading.Bytes
import Shading.Surface.Tree

/-! Written programs as bracketed outlines, in which every node is followed by its range. -/
namespace Shading.Surface

/-- A tree as bracketed words. -/
def node (words : List String) : String := "(" ++ " ".intercalate words ++ ")"

def spanned (span : Span) (s : String) : String :=
  s ++ "@" ++ toString span.start ++ "-" ++ toString span.stop

def bitsText (w : UInt32) : String := Bytes.hex 8 w.toNat

mutual

def Expr.outline : Expr → String
  | .int n s => spanned s (node ["int", toString n.toNat])
  | .uint n s => spanned s (node ["uint", toString n.toNat])
  | .float x s => spanned s (node ["float", bitsText x.bits])
  | .bool b s => spanned s (node ["bool", if b then "true" else "false"])
  | .ident name s => spanned s (node ["id", name])
  | .binary op l r s => spanned s (node ["bin", op.symbol, l.outline, r.outline])
  | .unary op e s => spanned s (node ["un", op.symbol, e.outline])
  | .assign op t v s =>
    spanned s (node ["asg", (op.map BinaryOp.symbol).getD "" ++ "=", t.outline, v.outline])
  | .step up before e s =>
    spanned s (node [(if before then "pre" else "post") ++ (if up then "++" else "--"), e.outline])
  | .ternary c a b s => spanned s (node ["?:", c.outline, a.outline, b.outline])
  | .call name args s => spanned s (node ("call" :: name :: outlines args))
  | .field e name s => spanned s (node ["field", e.outline, name])
  | .index e i s => spanned s (node ["index", e.outline, i.outline])

def outlines : List Expr → List String
  | [] => []
  | e :: es => e.outline :: outlines es

end

def LayoutEntry.outline (e : LayoutEntry) : String :=
  spanned e.span (e.name ++ (match e.value with
    | some v => "=" ++ v.outline
    | none => ""))

def layoutOutline (entries : List LayoutEntry) : String :=
  node ("layout" :: entries.map LayoutEntry.outline)

def Qualifiers.outline (q : Qualifiers) : List String :=
  (q.storage.map StorageQualifier.text).toList ++
    (if q.layout.isEmpty then [] else [layoutOutline q.layout]) ++
    (q.interpolation.map Interpolation.text).toList ++
    (if q.invariant then ["invariant"] else [])

def TypeName.outline (t : TypeName) : String := spanned t.span t.name

def sizesOutline (sizes : List Expr) : List String := sizes.map fun e => "[" ++ e.outline ++ "]"

def Declarator.outline (d : Declarator) : String :=
  spanned d.span (node (d.name :: sizesOutline d.sizes ++ (match d.init with
    | some e => ["=", e.outline]
    | none => [])))

def Declaration.outline (d : Declaration) : String :=
  spanned d.span (node ("decl" :: d.qualifiers.outline ++ [d.type.outline] ++
    d.declarators.map Declarator.outline))

def Param.outline (p : Param) : String :=
  spanned p.span (node (["param", p.passing.text] ++ (if p.isConst then ["const"] else []) ++
    [p.type.outline, p.name.getD "_"] ++ sizesOutline p.sizes))

def Prototype.outline (p : Prototype) : String :=
  spanned p.span (node ("proto" :: p.returnType.outline :: p.name :: p.params.map Param.outline))

def absent : String := "-"

mutual

def Stmt.outline : Stmt → String
  | .declare d s => spanned s (node ["local", d.outline])
  | .expr e s => spanned s (node ["expr", e.outline])
  | .block body s => spanned s (node ("block" :: stmtOutlines body))
  | .if_ c yes none s => spanned s (node ["if", c.outline, yes.outline])
  | .if_ c yes (some no) s => spanned s (node ["if", c.outline, yes.outline, no.outline])
  | .for_ none cond step body s =>
    spanned s (node ["for", absent, (cond.map Expr.outline).getD absent,
      (step.map Expr.outline).getD absent, body.outline])
  | .for_ (some init) cond step body s =>
    spanned s (node ["for", init.outline, (cond.map Expr.outline).getD absent,
      (step.map Expr.outline).getD absent, body.outline])
  | .while_ c body s => spanned s (node ["while", c.outline, body.outline])
  | .do_ body c s => spanned s (node ["do", body.outline, c.outline])
  | .return_ v s => spanned s (node ("return" :: (v.map Expr.outline).toList))
  | .break_ s => spanned s (node ["break"])
  | .continue_ s => spanned s (node ["continue"])
  | .discard s => spanned s (node ["discard"])
  | .empty s => spanned s (node ["empty"])

def stmtOutlines : List Stmt → List String
  | [] => []
  | s :: ss => s.outline :: stmtOutlines ss

end

def Item.outline : Item → String
  | .variables d => d.outline
  | .function f => spanned f.span (node ("function" :: f.proto.outline :: stmtOutlines f.body))
  | .prototype p => p.outline
  | .localSize entries s => spanned s (node ["local_size", layoutOutline entries])

end Shading.Surface
