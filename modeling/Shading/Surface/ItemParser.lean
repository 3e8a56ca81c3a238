import Shading.Surface.ExprParser
import Shading.Surface.Lexer

/-! Reading declarations, statements and whole programs. -/
namespace Shading.Surface
open Cursor

def storage? : Token → Option StorageQualifier
  | .keyword .const => some .const
  | .keyword .uniform => some .uniform
  | .keyword .in_ => some .in_
  | .keyword .out => some .out
  | .keyword .inout => some .inout
  | .keyword .attribute => some .attribute
  | .keyword .varying => some .varying
  | _ => none

def interpolation? : Token → Option Interpolation
  | .keyword .flat => some .flat
  | .keyword .smooth => some .smooth
  | .keyword .noperspective => some .noperspective
  | .keyword .centroid => some .centroid
  | _ => none

def atDeclaration (s : Cursor) : Bool :=
  s.peek.startsDeclaration ||
    match s.peek, s.second with
    | .ident name, .ident _ => (Ty.ofName? name).isSome
    | _, _ => false

/-- A default precision behind its keyword. It has no effect. -/
def precisionRest (s : Cursor) : Except Fault (After s) := do
  match s.accept? (fun t => if t.isPrecision then some () else none) with
  | none => throw (s.fault .precisionQualifier)
  | some (_, ⟨s₁, h₁⟩) =>
    let (_, ⟨s₂, h₂⟩) ← s₁.identifier .typeName
    let ⟨s₃, h₃⟩ ← s₂.expect (.symbol .semicolon)
    have typed := size_lt_trans h₁ h₂
    return ⟨s₃, size_lt_trans typed h₃⟩

/-- The entries of a layout up to its closing bracket. -/
def layoutEntries (s : Cursor) : Except Fault (List LayoutEntry × After s) := do
  let (name, ⟨s₁, h₁⟩) ← s.identifier .layoutIdentifier
  let span := s₁.previous
  let (value, ⟨s₂, h₂⟩) ← (match s₁.eat? (.symbol .assign) with
    | some ⟨t, h⟩ => do
      let (e, ⟨u, h'⟩) ← conditional t
      have past := size_lt_trans h h'
      return (some e, ⟨u, size_le_of_lt past⟩)
    | none => return (none, Onward.refl s₁) : Except Fault (Option Expr × Onward s₁))
  let entry : LayoutEntry := ⟨name, value, span⟩
  have valued := size_lt_of_lt_of_le h₁ h₂
  match s₂.eat? (.symbol .comma) with
  | some ⟨s₃, h₃⟩ =>
    have further := size_lt_trans valued h₃
    let (entries, ⟨s₄, h₄⟩) ← layoutEntries s₃
    return (entry :: entries, ⟨s₄, size_lt_trans further h₄⟩)
  | none =>
    let ⟨s₃, h₃⟩ ← s₂.expect (.symbol .rightParen)
    return ([entry], ⟨s₃, size_lt_trans valued h₃⟩)
termination_by s.size
decreasing_by exact further

/-- Any number of qualifiers; storage is given at most once, and the last interpolation counts. -/
def qualifiersFrom (q : Qualifiers) (s : Cursor) : Except Fault (Qualifiers × Onward s) := do
  match s.next? with
  | none => return (q, Onward.refl s)
  | some (l, ⟨s₁, h₁⟩) =>
    match storage? l.token, interpolation? l.token with
    | some storage, _ =>
      if q.storage.isSome then throw (s.fault .typeName)
      let (q', ⟨s₂, h₂⟩) ← qualifiersFrom { q with storage := some storage } s₁
      have past := size_lt_of_lt_of_le h₁ h₂
      return (q', ⟨s₂, size_le_of_lt past⟩)
    | none, some i =>
      let (q', ⟨s₂, h₂⟩) ← qualifiersFrom { q with interpolation := some i } s₁
      have past := size_lt_of_lt_of_le h₁ h₂
      return (q', ⟨s₂, size_le_of_lt past⟩)
    | none, none =>
      if l.token = .keyword .layout then
        let ⟨s₂, h₂⟩ ← s₁.expect (.symbol .leftParen)
        let (entries, ⟨s₃, h₃⟩) ← layoutEntries s₂
        have opened := size_lt_trans h₁ h₂
        have closed := size_lt_trans opened h₃
        let (q', ⟨s₄, h₄⟩) ← qualifiersFrom { q with layout := q.layout ++ entries } s₃
        have past := size_lt_of_lt_of_le closed h₄
        return (q', ⟨s₄, size_le_of_lt past⟩)
      else if l.token = .keyword .invariant then
        let (q', ⟨s₂, h₂⟩) ← qualifiersFrom { q with invariant := true } s₁
        have past := size_lt_of_lt_of_le h₁ h₂
        return (q', ⟨s₂, size_le_of_lt past⟩)
      else if l.token.isPrecision then
        let (q', ⟨s₂, h₂⟩) ← qualifiersFrom q s₁
        have past := size_lt_of_lt_of_le h₁ h₂
        return (q', ⟨s₂, size_le_of_lt past⟩)
      else return (q, Onward.refl s)
termination_by s.size
decreasing_by all_goals first | exact h₁ | exact closed

def qualifiers (s : Cursor) : Except Fault (Qualifiers × Onward s) := qualifiersFrom {} s

def typeName (s : Cursor) : Except Fault (TypeName × After s) :=
  match s.peek with
  | .keyword .struct => .error ⟨.unsupported .struct, s.here⟩
  | _ => do
    let (name, t) ← s.identifier .typeName
    return (⟨name, t.1.previous⟩, t)

def arraySizes (s : Cursor) : Except Fault (List Expr × Onward s) := do
  match s.eat? (.symbol .leftBracket) with
  | none => return ([], Onward.refl s)
  | some ⟨s₁, h₁⟩ =>
    if s₁.peek = .symbol .rightBracket then
      throw ⟨.unsupported .implicitlySizedArray, s₁.previous⟩
    let (size, ⟨s₂, h₂⟩) ← conditional s₁
    let ⟨s₃, h₃⟩ ← s₂.expect (.symbol .rightBracket)
    have sized := size_lt_trans h₁ h₂
    have closed := size_lt_trans sized h₃
    let (sizes, ⟨s₄, h₄⟩) ← arraySizes s₃
    have past := size_lt_of_lt_of_le closed h₄
    return (size :: sizes, ⟨s₄, size_le_of_lt past⟩)
termination_by s.size
decreasing_by exact closed

def initializer (s : Cursor) : Except Fault (Option Expr × Onward s) := do
  match s.eat? (.symbol .assign) with
  | none => return (none, Onward.refl s)
  | some ⟨s₁, h₁⟩ =>
    let (e, ⟨s₂, h₂⟩) ← assignment s₁
    have past := size_lt_trans h₁ h₂
    return (some e, ⟨s₂, size_le_of_lt past⟩)

def declarators (name : String) (nameSpan : Span) (s : Cursor) :
    Except Fault (List Declarator × After s) := do
  let (sizes, ⟨s₁, h₁⟩) ← arraySizes s
  let (init, ⟨s₂, h₂⟩) ← initializer s₁
  let d : Declarator := ⟨name, sizes, init, nameSpan.merge s₂.previous⟩
  match s₂.eat? (.symbol .comma) with
  | some ⟨s₃, h₃⟩ =>
    let (next, ⟨s₄, h₄⟩) ← s₃.identifier .identifier
    let (ds, ⟨s₅, h₅⟩) ← declarators next s₄.previous s₄
    return (d :: ds, ⟨s₅, by omega⟩)
  | none =>
    let ⟨s₃, h₃⟩ ← s₂.expect (.symbol .semicolon)
    return ([d], ⟨s₃, by omega⟩)
termination_by s.size
decreasing_by omega

def declarationRest (q : Qualifiers) (type : TypeName) (name : String) (start : Span) (s : Cursor) :
    Except Fault (Declaration × After s) := do
  let (ds, ⟨s₁, h₁⟩) ← declarators name s.previous s
  return (⟨q, type, ds, start.merge s₁.previous⟩, ⟨s₁, h₁⟩)

def simpleStatement (s : Cursor) : Except Fault (Stmt × After s) := do
  if atDeclaration s then
    let (q, ⟨s₁, h₁⟩) ← qualifiers s
    let (type, ⟨s₂, h₂⟩) ← typeName s₁
    let (name, ⟨s₃, h₃⟩) ← s₂.identifier .identifier
    let (d, ⟨s₄, h₄⟩) ← declarationRest q type name s.here s₃
    have typed := size_lt_of_le_of_lt h₁ h₂
    have named := size_lt_trans typed h₃
    return (.declare d d.span, ⟨s₄, size_lt_trans named h₄⟩)
  else
    let (e, ⟨s₁, h₁⟩) ← expression s
    let ⟨s₂, h₂⟩ ← s₁.expect (.symbol .semicolon)
    return (.expr e (s.here.merge s₂.previous), ⟨s₂, size_lt_trans h₁ h₂⟩)

/-- A condition in brackets. -/
def condition (s : Cursor) : Except Fault (Expr × After s) := do
  let ⟨s₁, h₁⟩ ← s.expect (.symbol .leftParen)
  let (e, ⟨s₂, h₂⟩) ← expression s₁
  let ⟨s₃, h₃⟩ ← s₂.expect (.symbol .rightParen)
  have read := size_lt_trans h₁ h₂
  return (e, ⟨s₃, size_lt_trans read h₃⟩)

def optionalExpression (close : Token) (s : Cursor) : Except Fault (Option Expr × After s) := do
  match s.eat? close with
  | some s₁ => return (none, s₁)
  | none =>
    let (e, ⟨s₁, h₁⟩) ← expression s
    let ⟨s₂, h₂⟩ ← s₁.expect close
    return (some e, ⟨s₂, size_lt_trans h₁ h₂⟩)

/-- What a loop does first, with its semicolon. -/
def forInit (s : Cursor) : Except Fault (Option Stmt × After s) := do
  match s.eat? (.symbol .semicolon) with
  | some s₁ => return (none, s₁)
  | none =>
    let (init, s₁) ← simpleStatement s
    return (some init, s₁)

mutual

def statement (s : Cursor) : Except Fault (Stmt × After s) := do
  match s.next? with
  | none => simpleStatement s
  | some (l, ⟨s₁, h₁⟩) =>
    match l.token with
    | .symbol .leftBrace =>
      let (body, ⟨s₂, h₂⟩) ← blockRest s₁
      return (.block body (l.span.merge s₂.previous), ⟨s₂, by omega⟩)
    | .symbol .semicolon => return (.empty l.span, ⟨s₁, h₁⟩)
    | .keyword .precision =>
      let ⟨s₂, h₂⟩ ← precisionRest s₁
      return (.empty (l.span.merge s₂.previous), ⟨s₂, by omega⟩)
    | .keyword .if_ =>
      let (cond, ⟨s₂, h₂⟩) ← condition s₁
      let (yes, ⟨s₃, h₃⟩) ← statement s₂
      match s₃.eat? (.keyword .else_) with
      | none => return (.if_ cond yes none (l.span.merge s₃.previous), ⟨s₃, by omega⟩)
      | some ⟨s₄, h₄⟩ =>
        let (no, ⟨s₅, h₅⟩) ← statement s₄
        return (.if_ cond yes (some no) (l.span.merge s₅.previous), ⟨s₅, by omega⟩)
    | .keyword .for_ =>
      let ⟨s₂, h₂⟩ ← s₁.expect (.symbol .leftParen)
      let (init, ⟨s₃, h₃⟩) ← forInit s₂
      let (cond, ⟨s₄, h₄⟩) ← optionalExpression (.symbol .semicolon) s₃
      let (step, ⟨s₅, h₅⟩) ← optionalExpression (.symbol .rightParen) s₄
      let (body, ⟨s₆, h₆⟩) ← statement s₅
      return (.for_ init cond step body (l.span.merge s₆.previous), ⟨s₆, by omega⟩)
    | .keyword .while_ =>
      let (cond, ⟨s₂, h₂⟩) ← condition s₁
      let (body, ⟨s₃, h₃⟩) ← statement s₂
      return (.while_ cond body (l.span.merge s₃.previous), ⟨s₃, by omega⟩)
    | .keyword .do_ =>
      let (body, ⟨s₂, h₂⟩) ← statement s₁
      let ⟨s₃, h₃⟩ ← s₂.expect (.keyword .while_)
      let (cond, ⟨s₄, h₄⟩) ← condition s₃
      let ⟨s₅, h₅⟩ ← s₄.expect (.symbol .semicolon)
      return (.do_ body cond (l.span.merge s₅.previous), ⟨s₅, by omega⟩)
    | .keyword .return_ =>
      let (value, ⟨s₂, h₂⟩) ← optionalExpression (.symbol .semicolon) s₁
      return (.return_ value (l.span.merge s₂.previous), ⟨s₂, by omega⟩)
    | .keyword .break_ =>
      let ⟨s₂, h₂⟩ ← s₁.expect (.symbol .semicolon)
      return (.break_ (l.span.merge s₂.previous), ⟨s₂, by omega⟩)
    | .keyword .continue_ =>
      let ⟨s₂, h₂⟩ ← s₁.expect (.symbol .semicolon)
      return (.continue_ (l.span.merge s₂.previous), ⟨s₂, by omega⟩)
    | .keyword .discard =>
      let ⟨s₂, h₂⟩ ← s₁.expect (.symbol .semicolon)
      return (.discard (l.span.merge s₂.previous), ⟨s₂, by omega⟩)
    | .keyword .struct => throw ⟨.unsupported .struct, l.span⟩
    | _ => simpleStatement s
termination_by 2 * s.size
decreasing_by all_goals omega

def blockRest (s : Cursor) : Except Fault (List Stmt × After s) := do
  match s.eat? (.symbol .rightBrace) with
  | some s₁ => return ([], s₁)
  | none =>
    if s.peek = .eof then throw ⟨.unclosedBlock, s.here⟩
    let (stmt, ⟨s₁, h₁⟩) ← statement s
    let (stmts, ⟨s₂, h₂⟩) ← blockRest s₁
    return (stmt :: stmts, ⟨s₂, by omega⟩)
termination_by 2 * s.size + 1
decreasing_by all_goals omega

end

def passing? : Token → Option Passing
  | .keyword .in_ => some .in_
  | .keyword .out => some .out
  | .keyword .inout => some .inout
  | _ => none

/-- The qualifiers of a parameter: its passing, given at most once, and whether it is constant. -/
def paramQualifiers (passing : Option Passing) (isConst : Bool) (s : Cursor) :
    Except Fault ((Option Passing × Bool) × Onward s) := do
  match s.next? with
  | none => return ((passing, isConst), ⟨s, by omega⟩)
  | some (l, ⟨s₁, h₁⟩) =>
    match passing? l.token with
    | some p =>
      if passing.isSome then throw (s.fault .typeName)
      let (r, ⟨s₂, h₂⟩) ← paramQualifiers (some p) isConst s₁
      return (r, ⟨s₂, by omega⟩)
    | none =>
      if l.token = .keyword .const ∨ l.token.isPrecision then
        let (r, ⟨s₂, h₂⟩) ← paramQualifiers passing (isConst || l.token = .keyword .const) s₁
        return (r, ⟨s₂, by omega⟩)
      else return ((passing, isConst), ⟨s, by omega⟩)
termination_by s.size
decreasing_by all_goals omega

def paramName (s : Cursor) : Option String × Onward s :=
  match s.accept? Cursor.name? with
  | some (name, ⟨s₁, h₁⟩) => (some name, ⟨s₁, by omega⟩)
  | none => (none, ⟨s, by omega⟩)

def param (s : Cursor) : Except Fault (Param × After s) := do
  let ((passing, isConst), ⟨s₁, h₁⟩) ← paramQualifiers none false s
  let (type, ⟨s₂, h₂⟩) ← typeName s₁
  let (name, ⟨s₃, h₃⟩) := paramName s₂
  let (sizes, ⟨s₄, h₄⟩) ← arraySizes s₃
  return (⟨passing.getD .in_, isConst, type, name, sizes, s.here.merge s₄.previous⟩,
    ⟨s₄, by omega⟩)

def paramList (s : Cursor) : Except Fault (List Param × After s) := do
  let (p, ⟨s₁, h₁⟩) ← param s
  match s₁.eat? (.symbol .comma) with
  | some ⟨s₂, h₂⟩ =>
    let (ps, ⟨s₃, h₃⟩) ← paramList s₂
    return (p :: ps, ⟨s₃, by omega⟩)
  | none =>
    let ⟨s₂, h₂⟩ ← s₁.expect (.symbol .rightParen)
    return ([p], ⟨s₂, by omega⟩)
termination_by s.size
decreasing_by omega

/-- The parameters behind an opening bracket; `void` alone stands for none. -/
def params (s : Cursor) : Except Fault (List Param × After s) := do
  match s.eat? (.symbol .rightParen) with
  | some s₁ => return ([], s₁)
  | none =>
    match s.eat? (.ident "void") with
    | some ⟨s₁, h₁⟩ =>
      match s₁.eat? (.symbol .rightParen) with
      | some ⟨s₂, h₂⟩ => return ([], ⟨s₂, by omega⟩)
      | none => paramList s
    | none => paramList s

/-- What follows qualifiers, a type and a name at the top of a program. -/
def itemRest (start : Span) (q : Qualifiers) (type : TypeName) (name : String) (s : Cursor) :
    Except Fault (Item × After s) := do
  match s.eat? (.symbol .leftParen) with
  | none =>
    let (d, s₁) ← declarationRest q type name start s
    return (.variables d, s₁)
  | some ⟨s₁, h₁⟩ =>
    if q.storage.isSome ∨ !q.layout.isEmpty then
      throw ⟨.unsupported .qualifiedReturnType, start⟩
    let (ps, ⟨s₂, h₂⟩) ← params s₁
    let proto : Prototype := ⟨type, name, ps, start.merge s₂.previous⟩
    match s₂.eat? (.symbol .semicolon) with
    | some ⟨s₃, h₃⟩ => return (.prototype proto, ⟨s₃, by omega⟩)
    | none =>
      let ⟨s₃, h₃⟩ ← s₂.expect (.symbol .leftBrace)
      let (body, ⟨s₄, h₄⟩) ← blockRest s₃
      return (.function ⟨proto, body, start.merge s₄.previous⟩, ⟨s₄, by omega⟩)

/-- The next item; a lone semicolon and a default precision are none. -/
def item (s : Cursor) : Except Fault (Option Item × After s) := do
  match s.eat? (.symbol .semicolon) with
  | some s₁ => return (none, s₁)
  | none =>
    match s.eat? (.keyword .precision) with
    | some ⟨s₁, h₁⟩ =>
      let ⟨s₂, h₂⟩ ← precisionRest s₁
      return (none, ⟨s₂, by omega⟩)
    | none =>
      let start := s.here
      let (q, ⟨s₁, h₁⟩) ← qualifiers s
      match s₁.eat? (.symbol .semicolon) with
      | some ⟨s₂, h₂⟩ =>
        if q.storage = some .in_ ∧ !q.layout.isEmpty then
          return (some (.localSize q.layout (start.merge s₂.previous)), ⟨s₂, by omega⟩)
        else throw (s₁.fault .typeName)
      | none =>
        let (type, ⟨s₂, h₂⟩) ← typeName s₁
        let (name, ⟨s₃, h₃⟩) ← s₂.identifier .identifier
        let (i, ⟨s₄, h₄⟩) ← itemRest start q type name s₃
        return (some i, ⟨s₄, by omega⟩)

def items (s : Cursor) : Except Fault (List Item) := do
  if s.peek = .eof then return []
  let (i, ⟨s₁, h₁⟩) ← item s
  have := h₁
  let more ← items s₁
  return i.toList ++ more
termination_by s.size

def parse (source : String) : Except Fault (List Item) := do
  items (.ofLexemes (← tokenize source))

def parseExpr (source : String) : Except Fault Expr := do
  let (e, _) ← expression (.ofLexemes (← tokenize source))
  return e

end Shading.Surface
