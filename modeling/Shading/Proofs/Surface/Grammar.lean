import Shading.Proofs.Surface.Spelling
import Shading.Surface.ExprParser

/-! The grammar of expressions by the strength of their outermost operator, and that reading finds
the tree of every derivation. -/
namespace Shading.Surface
open List Cursor

variable {k' : Nat}

mutual

/-- The tree without the ranges it was read from. -/
def Expr.bare : Expr → Expr
  | .int n _ => .int n ⟨0, 0⟩
  | .uint n _ => .uint n ⟨0, 0⟩
  | .float x _ => .float x ⟨0, 0⟩
  | .bool b _ => .bool b ⟨0, 0⟩
  | .ident name _ => .ident name ⟨0, 0⟩
  | .binary op l r _ => .binary op l.bare r.bare ⟨0, 0⟩
  | .unary op e _ => .unary op e.bare ⟨0, 0⟩
  | .assign op t v _ => .assign op t.bare v.bare ⟨0, 0⟩
  | .step up before e _ => .step up before e.bare ⟨0, 0⟩
  | .ternary c a b _ => .ternary c.bare a.bare b.bare ⟨0, 0⟩
  | .call name args _ => .call name (bareAll args) ⟨0, 0⟩
  | .field e name _ => .field e.bare name ⟨0, 0⟩
  | .index e i _ => .index e.bare i.bare ⟨0, 0⟩

def bareAll : List Expr → List Expr
  | [] => []
  | e :: es => e.bare :: bareAll es

end

@[simp] theorem Expr.bare_withSpan (s : Span) (e : Expr) : (e.withSpan s).bare = e.bare := by
  cases e <;> rfl

/-- The tokens are the expression, and outside its brackets no operator is looser than the
strength. -/
inductive Derives : Nat → List Token → Expr → Prop where
  | int (n : UInt32) (span : Span) : Derives 0 [.int n.toNat] (.int n span)
  | uint (n : UInt32) (span : Span) : Derives 0 [.uint n.toNat] (.uint n span)
  | bool (b : Bool) (span : Span) : Derives 0 [.bool b] (.bool b span)
  | ident (name : String) (span : Span) : Derives 0 [.ident name] (.ident name span)
  | call (name : String) (args : List (List Token × Expr)) (span : Span)
      (each : ∀ a ∈ args, Derives 15 a.1 a.2) :
      Derives 0 (.ident name :: .symbol .leftParen ::
        ([.symbol .comma].intercalate (args.map Prod.fst) ++ [.symbol .rightParen]))
        (.call name (args.map Prod.snd) span)
  | bracket {ts : List Token} {e : Expr} (inner : Derives 15 ts e) :
      Derives 0 (.symbol .leftParen :: (ts ++ [.symbol .rightParen])) e
  | index {bs ps : List Token} {base position : Expr} (span : Span) (b : Derives 1 bs base)
      (p : Derives 15 ps position) :
      Derives 1 (bs ++ .symbol .leftBracket :: (ps ++ [.symbol .rightBracket]))
        (.index base position span)
  | field {bs : List Token} {base : Expr} (name : String) (span : Span) (b : Derives 1 bs base) :
      Derives 1 (bs ++ [.symbol .dot, .ident name]) (.field base name span)
  | unary {ts : List Token} {e : Expr} (op : UnaryOp) (span : Span) (operand : Derives 2 ts e) :
      Derives 2 (.symbol (unarySign op) :: ts) (.unary op e span)
  | binary {ls rs : List Token} {l r : Expr} (op : BinaryOp) (span : Span)
      (left : Derives op.precedence ls l) (right : Derives (op.precedence - 1) rs r) :
      Derives op.precedence (ls ++ .symbol (binarySign op) :: rs) (.binary op l r span)
  | ternary {cs ys ns : List Token} {c y n : Expr} (span : Span) (cond : Derives 14 cs c)
      (yes : Derives 15 ys y) (no : Derives 15 ns n) :
      Derives 15 (cs ++ .symbol .question :: (ys ++ .symbol .colon :: ns)) (.ternary c y n span)
  | looser {k k' : Nat} {ts : List Token} {e : Expr} (tight : Derives k ts e) (le : k ≤ k') :
      Derives k' ts e

variable {k : Nat}

theorem Derives.first {ts : List Token} {e : Expr} (d : Derives k ts e) :
    ∃ t rest, ts = t :: rest ∧ t ≠ .symbol .rightParen ∧ (k ≤ 1 → leading? t = none) := by
  induction d with
  | int | uint | bool | ident | call | bracket => exact ⟨_,_,rfl,by simp,fun _ => rfl⟩
  | index span b p ih =>
    obtain ⟨t,rest,rfl,ne,none⟩ := ih
    exact ⟨_,_,rfl,ne,none⟩
  | field name span b ih =>
    obtain ⟨t,rest,rfl,ne,none⟩ := ih
    exact ⟨_,_,rfl,ne,none⟩
  | unary op => exact ⟨_,_,rfl,by cases op <;> simp [unarySign],by simp⟩
  | binary op span left right ih =>
    obtain ⟨t,rest,rfl,ne,none⟩ := ih
    exact ⟨_,_,rfl,ne,fun le => absurd le (by cases op <;> decide)⟩
  | ternary span cond yes no ih =>
    obtain ⟨t,rest,rfl,ne,none⟩ := ih
    exact ⟨_,_,rfl,ne,by simp⟩
  | looser tight le ih =>
    obtain ⟨t,rest,rfl,ne,none⟩ := ih
    exact ⟨_,_,rfl,ne,fun le' => none (le.trans le')⟩

/-- What was read, whatever is known of the cursor behind it. -/
def Yields {α : Type} {p : Cursor → Prop} (x : Except Fault (α × { t : Cursor // p t })) (a : α)
    (t : Cursor) : Prop :=
  ∃ t', x = .ok (a, t') ∧ t'.val = t

/-- The token stands between two cursors. -/
inductive Takes : Token → Cursor → Cursor → Prop where
  | mk {previous stop : Span} {ls : List Lexeme} (l : Lexeme) :
      Takes l.token ⟨previous, l :: ls, stop⟩ ⟨l.span, ls, stop⟩

/-- The tokens stand between two cursors. -/
def Crosses : List Token → Cursor → Cursor → Prop
  | [], s, u => u = s
  | t :: ts, s, u => ∃ v, Takes t s v ∧ Crosses ts v u

/-- What may stand behind an expression of a strength: nothing that would still belong to it. -/
def Behind (k : Nat) (tail : List Lexeme) : Prop :=
  ∀ t ∈ tail.head?.map Lexeme.token, t ≠ .symbol .leftParen ∧ (2 ≤ k → trailing? t = none) ∧
    (∀ op, binaryOp? t = some op → k ≤ op.precedence) ∧
    (15 ≤ k → t ≠ .symbol .question ∧ assignOp? t = none)

theorem Behind.mono {tail : List Lexeme} (b : Behind k' tail) (le : k ≤ k') : Behind k tail := by
  intro t mem
  obtain ⟨call,trail,ops,ends⟩ := b t mem
  exact ⟨call,fun h => trail (h.trans le),fun op h => le.trans (ops op h),fun h => ends (h.trans le)⟩

theorem behind_nil : Behind k [] := by simp [Behind]

section Levels

variable (ts : List Token) (e : Expr)

/-- Reading an operand comes down to reading what is selected from it. -/
def Selects : Prop :=
  ∀ s u, Crosses ts s u → Behind 1 u.rest → ∃ e' : Expr, e'.bare = e.bare ∧
    ∀ r v, Yields (selectionRest e' u) r v → Yields (selection s) r v

def ReadsUnary : Prop :=
  ∀ s u, Crosses ts s u → Behind 2 u.rest → ∃ e' : Expr, e'.bare = e.bare ∧ Yields (unary s) e' u

/-- Reading a left operand comes down to reading the operators behind it. -/
def ReadsBinary (k : Nat) : Prop :=
  ∀ limit s u, k ≤ limit → limit ≤ loosest → Crosses ts s u → Behind k u.rest →
    ∃ e' : Expr, e'.bare = e.bare ∧
      ∀ r v, Yields (binaryRest limit e' u) r v → Yields (binary limit s) r v

def ReadsWhole : Prop :=
  ∀ s u, Crosses ts s u → Behind 15 u.rest → ∃ e' : Expr, e'.bare = e.bare ∧ Yields (assignment s) e' u

end Levels

section Cursors

variable {s u : Cursor} {t : Token} {ts ts' : List Token} {e : Expr} {α : Type} {f : Token → Option α}

theorem crosses_append : Crosses (ts ++ ts') s u ↔ ∃ v, Crosses ts s v ∧ Crosses ts' v u := by
  induction ts generalizing s with
  | nil => simp [Crosses]
  | cons t ts ih =>
    simp only [cons_append,Crosses,ih]
    grind

theorem crosses_lexemes (previous stop : Span) (ls tail : List Lexeme) :
    ∃ last, Crosses (ls.map Lexeme.token) ⟨previous, ls ++ tail, stop⟩ ⟨last, tail, stop⟩ := by
  induction ls generalizing previous with
  | nil => exact ⟨previous,rfl⟩
  | cons l ls ih =>
    obtain ⟨last,crossed⟩ := ih l.span
    exact ⟨last,_,.mk l,crossed⟩

namespace Takes

section

variable (step : Takes t s u)
include step

theorem size_lt : u.size < s.size := by
  cases step
  simp [size]

theorem next? : s.next? = some (⟨t, u.previous⟩, ⟨u, step.size_lt⟩) := by
  cases step
  rfl

theorem here : s.here = u.previous := by
  cases step
  rfl

theorem accept? {a : α} (known : f t = some a) : s.accept? f = some (a, ⟨u, step.size_lt⟩) := by
  simp [Cursor.accept?,step.next?,known]

theorem eat? : s.eat? t = some ⟨u, step.size_lt⟩ := by
  simp [Cursor.eat?,step.next?]

theorem expect : s.expect t = .ok ⟨u, step.size_lt⟩ := by
  rw [Cursor.expect,step.eat?]

theorem rest : s.rest.head?.map Lexeme.token = some t := by
  cases step
  rfl

theorem behind (k : Nat)
    (closing : t ∈ [.symbol .rightParen, .symbol .rightBracket, .symbol .comma, .symbol .colon]) :
    Behind k s.rest := by
  intro t' mem
  cases step.rest.symm.trans mem
  simp only [mem_cons,not_mem_nil,or_false] at closing
  rcases closing with h | h | h | h <;> simp [h,trailing?,binaryOp?,assignOp?]

end

end Takes

theorem accept?_none (unknown : ∀ t ∈ s.rest.head?.map Lexeme.token, f t = none) :
    s.accept? f = none := by
  obtain ⟨previous,_ | ⟨l,ls⟩,stop⟩ := s
  · rfl
  · simp [accept?,Cursor.next?,unknown l.token rfl]

theorem eat?_none (other : ∀ t' ∈ s.rest.head?.map Lexeme.token, t' ≠ t) : s.eat? t = none := by
  obtain ⟨previous,_ | ⟨l,ls⟩,stop⟩ := s
  · rfl
  · simp [eat?,Cursor.next?,other l.token rfl]

theorem selectionRest_ends (behind : Behind 2 u.rest) : Yields (selectionRest e u) e u := by
  rw [Yields,selectionRest,accept?_none fun t mem => (behind t mem).2.1 (Nat.le_refl 2)]
  exact ⟨_,rfl,rfl⟩

theorem binaryRest_ends {limit : Nat} (loose : ∀ t ∈ u.rest.head?.map Lexeme.token,
      ∀ op, binaryOp? t = some op → limit + 1 ≤ op.precedence) :
    Yields (binaryRest limit e u) e u := by
  have none (t) (mem : t ∈ u.rest.head?.map Lexeme.token) : binaryOpWithin? limit t = none := by
    refine Option.filter_eq_none_iff.2 fun op found => ?_
    simpa using Nat.lt_of_succ_le (loose t mem op found)
  rw [Yields,binaryRest,accept?_none none]
  exact ⟨_,rfl,rfl⟩

end Cursors

section Levels

variable {ts : List Token} {e : Expr}

theorem Selects.readsUnary (sel : Selects ts e)
    (first : ∃ t rest, ts = t :: rest ∧ leading? t = none) : ReadsUnary ts e := by
  intro s u crossed behind
  obtain ⟨e',same,step⟩ := sel s u crossed (behind.mono (by decide))
  obtain ⟨t,rest,rfl,none⟩ := first
  obtain ⟨v,taken,-⟩ := crossed
  refine ⟨e',same,?_⟩
  rw [Yields,unary,accept?_none (by simpa [taken.rest] using none)]
  exact step _ _ (selectionRest_ends behind)

variable {k : Nat}

theorem ReadsUnary.readsBinary (un : ReadsUnary ts e) (loose : 2 ≤ k) : ReadsBinary ts e k := by
  intro limit s u _ _ crossed behind
  obtain ⟨e',same,⟨u,h⟩,read,rfl⟩ := un s u crossed (behind.mono loose)
  refine ⟨e',same,?_⟩
  rintro r v ⟨⟨v,h'⟩,rest,rfl⟩
  rw [Yields,binary,read]
  simp only [bind,Except.bind,rest]
  exact ⟨_,rfl,rfl⟩

theorem assignment_of_conditional {s u : Cursor} (read : Yields (conditional s) e u)
    (behind : Behind 15 u.rest) : Yields (assignment s) e u := by
  obtain ⟨⟨u,h⟩,read,rfl⟩ := read
  rw [Yields,assignment,read]
  simp only [bind,Except.bind]
  rw [accept?_none fun t mem => ((behind t mem).2.2.2 (Nat.le_refl _)).2]
  exact ⟨_,rfl,rfl⟩

theorem ReadsBinary.readsWhole (bin : ReadsBinary ts e k) (tight : k ≤ loosest) :
    ReadsWhole ts e := by
  intro s u crossed behind
  obtain ⟨e',same,step⟩ := bin loosest s u tight (Nat.le_refl _) crossed
    (behind.mono (Nat.le_succ_of_le tight))
  obtain ⟨⟨u,h⟩,read,rfl⟩ := step _ _ (binaryRest_ends fun t mem => (behind t mem).2.2.1)
  refine ⟨e',same,assignment_of_conditional ?_ behind⟩
  rw [Yields,conditional,read]
  simp only [bind,Except.bind]
  rw [eat?_none fun t mem => ((behind t mem).2.2.2 (Nat.le_refl _)).1]
  exact ⟨_,rfl,rfl⟩

/-- What reading does with an expression of a strength, from where it may stand. -/
structure Reads (k : Nat) (ts : List Token) (e : Expr) : Prop where
  selects : k ≤ 1 → Selects ts e
  unary : k ≤ 2 → ReadsUnary ts e
  binary : ∀ m, k ≤ m → 2 ≤ m → m ≤ loosest → ReadsBinary ts e m
  whole : k ≤ 15 → ReadsWhole ts e

theorem Reads.looser (reads : Reads k ts e) (le : k ≤ k') : Reads k' ts e where
  selects h := reads.selects (le.trans h)
  unary h := reads.unary (le.trans h)
  binary m h := reads.binary m (le.trans h)
  whole h := reads.whole (le.trans h)

theorem Reads.ofWhole (whole : ReadsWhole ts e) : Reads 15 ts e where
  selects h := absurd h (by decide)
  unary h := absurd h (by decide)
  binary m h _ h' := absurd (h.trans h') (by decide)
  whole _ := whole

theorem ReadsBinary.looser (bin : ReadsBinary ts e k) (le : k ≤ k') :
    ReadsBinary ts e k' := fun limit s u h h' crossed behind =>
  bin limit s u (le.trans h) h' crossed (behind.mono le)

theorem Reads.ofBinary (bin : ReadsBinary ts e k) (loose : 3 ≤ k) (tight : k ≤ loosest) : Reads k ts e where
  selects h := absurd (loose.trans h) (by decide)
  unary h := absurd (loose.trans h) (by decide)
  binary _ h _ _ := bin.looser h
  whole _ := bin.readsWhole tight

theorem Reads.ofUnary (un : ReadsUnary ts e) : Reads 2 ts e where
  selects h := absurd h (by decide)
  unary _ := un
  binary _ _ h _ := un.readsBinary h
  whole _ := (un.readsBinary (Nat.le_refl 2)).readsWhole (by decide)

theorem Reads.ofSelects (sel : Selects ts e)
    (first : ∃ t rest, ts = t :: rest ∧ leading? t = none) : Reads 0 ts e where
  selects _ := sel
  unary _ := sel.readsUnary first
  binary _ _ h _ := (sel.readsUnary first).readsBinary h
  whole _ := (Reads.ofUnary (sel.readsUnary first)).whole (by decide)

end Levels

section Derivations

variable {ts : List Token} {e : Expr} {base : Expr} {bs : List Token} {t : Token}

theorem selects_of_primary (read : ∀ s u, Crosses ts s u → Behind 1 u.rest →
      ∃ e' : Expr, e'.bare = e.bare ∧ Yields (primary s) e' u) : Selects ts e := by
  intro s u crossed behind
  obtain ⟨e',same,⟨u,h⟩,found,rfl⟩ := read s u crossed behind
  refine ⟨e',same,?_⟩
  rintro r v ⟨⟨v,h'⟩,rest,rfl⟩
  rw [Yields,selection,found]
  simp only [bind,Except.bind,rest]
  exact ⟨_,rfl,rfl⟩

theorem selects_literal (node : Span → Expr) (same : ∀ span, (node span).bare = e.bare)
    (read : ∀ s u, Takes t s u → Yields (primary s) (node u.previous) u) : Selects [t] e := by
  refine selects_of_primary fun s u crossed _ => ?_
  obtain ⟨u,taken,rfl⟩ := crossed
  exact ⟨node u.previous,same _,read s u taken⟩

section

variable (n : UInt32) (span : Span)
include n span

theorem literalWord_toNat : literalWord n.toNat span = .ok n := by
  simp [literalWord,n.toNat_lt]

theorem selects_int : Selects [.int n.toNat] (.int n span) := by
  refine selects_literal (.int n) (fun _ => rfl) fun s u taken => ?_
  rw [Yields,primary,taken.next?]
  simp only [literalWord_toNat]
  exact ⟨_,rfl,rfl⟩

theorem selects_uint : Selects [.uint n.toNat] (.uint n span) := by
  refine selects_literal (.uint n) (fun _ => rfl) fun s u taken => ?_
  rw [Yields,primary,taken.next?]
  simp only [literalWord_toNat]
  exact ⟨_,rfl,rfl⟩

end

theorem selects_bool (b : Bool) (span : Span) : Selects [.bool b] (.bool b span) := by
  refine selects_literal (.bool b) (fun _ => rfl) fun s u taken => ?_
  rw [Yields,primary,taken.next?]
  exact ⟨_,rfl,rfl⟩

theorem selects_ident (name : String) (span : Span) : Selects [.ident name] (.ident name span) := by
  refine selects_of_primary fun s u crossed behind => ?_
  obtain ⟨u,taken,rfl⟩ := crossed
  refine ⟨.ident name u.previous,rfl,?_⟩
  rw [Yields,primary,taken.next?]
  simp only
  rw [eat?_none fun t mem => (behind t mem).1]
  exact ⟨_,rfl,rfl⟩

theorem selects_bracket (whole : ReadsWhole ts e) :
    Selects (.symbol .leftParen :: (ts ++ [.symbol .rightParen])) e := by
  refine selects_of_primary fun s u crossed _ => ?_
  obtain ⟨s₁,left,crossed⟩ := crossed
  obtain ⟨s₂,inner,u,right,rfl⟩ := crosses_append.mp crossed
  obtain ⟨e',same,⟨s₂,h⟩,read,rfl⟩ := whole s₁ s₂ inner (right.behind _ (by simp))
  refine ⟨e'.withSpan (s₁.previous.merge u.previous),by simp [same],?_⟩
  rw [Yields,primary,left.next?]
  simp only [read,bind,Except.bind,right.expect]
  exact ⟨_,rfl,rfl⟩

theorem behind_trailing {s u : Cursor} (taken : Takes t s u)
    (trailing : t = .symbol .leftBracket ∨ t = .symbol .dot) : Behind 1 s.rest := by
  intro t' mem
  cases taken.rest.symm.trans mem
  rcases trailing with h | h <;> simp [h,binaryOp?]

theorem selects_index {ps : List Token} {position : Expr} (span : Span) (sel : Selects bs base)
    (whole : ReadsWhole ps position) :
    Selects (bs ++ .symbol .leftBracket :: (ps ++ [.symbol .rightBracket]))
      (.index base position span) := by
  intro s u crossed behind
  obtain ⟨s₁,first,s₂,left,crossed⟩ := crosses_append.mp crossed
  obtain ⟨s₃,second,u,right,rfl⟩ := crosses_append.mp crossed
  obtain ⟨base',same,step⟩ := sel s s₁ first (behind_trailing left (.inl rfl))
  obtain ⟨position',same',⟨s₃,h⟩,read,rfl⟩ := whole s₂ s₃ second (right.behind _ (by simp))
  refine ⟨.index base' position' (base'.span.merge u.previous),by simp [Expr.bare,same,same'],?_⟩
  rintro r v ⟨⟨v,h'⟩,rest,rfl⟩
  refine step r v ?_
  rw [Yields,selectionRest,left.accept? (a := .index) rfl]
  simp only [read,bind,Except.bind,right.expect,rest]
  exact ⟨_,rfl,rfl⟩

theorem selects_field (name : String) (span : Span) (sel : Selects bs base) :
    Selects (bs ++ [.symbol .dot, .ident name]) (.field base name span) := by
  intro s u crossed behind
  obtain ⟨s₁,first,s₂,dot,u,word,rfl⟩ := crosses_append.mp crossed
  obtain ⟨base',same,step⟩ := sel s s₁ first (behind_trailing dot (.inr rfl))
  refine ⟨.field base' name (base'.span.merge u.previous),by simp [Expr.bare,same],?_⟩
  rintro r v ⟨⟨v,h'⟩,rest,rfl⟩
  refine step r v ?_
  rw [Yields,selectionRest,dot.accept? (a := .field) rfl]
  simp only [identifier,word.accept? (f := name?) rfl,bind,Except.bind,rest]
  exact ⟨_,rfl,rfl⟩

theorem readsUnary_sign (op : UnaryOp) (span : Span) (un : ReadsUnary ts e) :
    ReadsUnary (.symbol (unarySign op) :: ts) (.unary op e span) := by
  rintro s u ⟨s₁,sign,crossed⟩ behind
  obtain ⟨e',same,⟨u,h⟩,read,rfl⟩ := un s₁ u crossed behind
  have known : leading? (.symbol (unarySign op)) = some (.op op) := by cases op <;> rfl
  refine ⟨.unary op e' (s₁.previous.merge e'.span),by simp [Expr.bare,same],?_⟩
  rw [Yields,unary,sign.accept? known]
  simp only [read,bind,Except.bind,sign.here]
  exact ⟨_,rfl,rfl⟩

/-- The left operand may be as loose as the operator and the right one may not, so that the operator
takes what stands before it. -/
theorem readsBinary_operator {ls rs : List Token} {l r : Expr} (op : BinaryOp) (span : Span)
    (left : ReadsBinary ls l op.precedence) (right : ReadsBinary rs r (op.precedence - 1)) :
    ReadsBinary (ls ++ .symbol (binarySign op) :: rs) (.binary op l r span) op.precedence := by
  intro limit s u tight bound crossed behind
  obtain ⟨s₁,first,s₂,sign,second⟩ := crosses_append.mp crossed
  have known : binaryOp? (.symbol (binarySign op)) = some op := by cases op <;> rfl
  have operator : Behind op.precedence s₁.rest := by
    intro t mem
    cases sign.rest.symm.trans mem
    cases op <;> simp [binarySign,trailing?,binaryOp?,assignOp?,BinaryOp.precedence]
  obtain ⟨l',same,step⟩ := left limit s s₁ tight bound first operator
  have positive : op.precedence - 1 + 1 = op.precedence := by cases op <;> rfl
  obtain ⟨r',same',step'⟩ := right (op.precedence - 1) s₂ u (Nat.le_refl _)
    ((Nat.sub_le _ _).trans (tight.trans bound)) second (behind.mono (Nat.sub_le _ _))
  obtain ⟨⟨u,h⟩,read,rfl⟩ := step' _ _ (binaryRest_ends fun t mem => positive ▸ (behind t mem).2.2.1)
  refine ⟨.binary op l' r' (l'.span.merge r'.span),by simp [Expr.bare,same,same'],?_⟩
  rintro e v ⟨⟨v,h'⟩,rest,rfl⟩
  refine step e v ?_
  have within : binaryOpWithin? limit (.symbol (binarySign op)) = some op := by
    rw [binaryOpWithin?,known,Option.filter_some,if_pos (by simpa using tight)]
  rw [Yields,binaryRest,sign.accept? within]
  simp only [read,bind,Except.bind,rest]
  exact ⟨_,rfl,rfl⟩

theorem readsWhole_ternary {cs ys ns : List Token} {c y n : Expr} (span : Span)
    (cond : ReadsBinary cs c loosest) (yes : ReadsWhole ys y) (no : ReadsWhole ns n) :
    ReadsWhole (cs ++ .symbol .question :: (ys ++ .symbol .colon :: ns)) (.ternary c y n span) := by
  intro s u crossed behind
  obtain ⟨s₁,first,s₂,question,crossed⟩ := crosses_append.mp crossed
  obtain ⟨s₃,second,s₄,colon,third⟩ := crosses_append.mp crossed
  have asks : Behind loosest s₁.rest := by
    intro t mem
    cases question.rest.symm.trans mem
    simp [trailing?,binaryOp?,assignOp?,loosest]
  obtain ⟨c',same,step⟩ := cond loosest s s₁ (Nat.le_refl _) (Nat.le_refl _) first asks
  obtain ⟨⟨s₁,h⟩,asked,rfl⟩ := step _ _ (binaryRest_ends (e := c') fun t mem => by
    cases question.rest.symm.trans mem
    simp [binaryOp?])
  obtain ⟨y',same',⟨s₃,h'⟩,read,rfl⟩ := yes s₂ s₃ second (colon.behind _ (by simp))
  obtain ⟨n',same'',⟨u,h''⟩,read',rfl⟩ := no s₄ u third behind
  refine ⟨.ternary c' y' n' (c'.span.merge n'.span),by simp [Expr.bare,same,same',same''],
    assignment_of_conditional ?_ behind⟩
  rw [Yields,conditional,asked]
  simp only [bind,Except.bind,question.eat?,read,colon.expect,read']
  exact ⟨_,rfl,rfl⟩

theorem argumentList_reads (args : List (List Token × Expr)) (some : args ≠ [])
    (each : ∀ a ∈ args, ReadsWhole a.1 a.2) {s u : Cursor}
    (crossed : Crosses ([.symbol .comma].intercalate (args.map Prod.fst) ++ [.symbol .rightParen]) s u) :
    ∃ es, bareAll es = bareAll (args.map Prod.snd) ∧ Yields (argumentList s) es u := by
  induction args generalizing s with
  | nil => contradiction
  | cons a args ih =>
    have whole := each a (by simp)
    cases args with
    | nil =>
      rw [map_singleton,intercalate_singleton] at crossed
      obtain ⟨s₁,inner,u,right,rfl⟩ := crosses_append.mp crossed
      obtain ⟨e,same,⟨s₁,h⟩,read,rfl⟩ := whole s s₁ inner (right.behind _ (by simp))
      refine ⟨[e],by simp [bareAll,same],?_⟩
      rw [Yields,argumentList,read]
      simp only [bind,Except.bind]
      rw [eat?_none (by simp [right.rest])]
      simp only [right.expect]
      exact ⟨_,rfl,rfl⟩
    | cons a' args =>
      rw [map_cons,map_cons,intercalate_cons_cons,List.append_assoc,
        List.append_assoc,singleton_append] at crossed
      obtain ⟨s₁,inner,s₂,comma,crossed⟩ := crosses_append.mp crossed
      obtain ⟨e,same,⟨s₁,h⟩,read,rfl⟩ := whole s s₁ inner (comma.behind _ (by simp))
      obtain ⟨es,same',⟨u,h'⟩,read',rfl⟩ := ih (by simp) (fun a mem => each a (by simp_all)) crossed
      refine ⟨e :: es,?_,?_⟩
      · rw [map_cons,bareAll,bareAll,same,same']
      · rw [Yields,argumentList,read]
        simp only [bind,Except.bind,comma.eat?,read']
        exact ⟨_,rfl,rfl⟩

theorem selects_call (name : String) (args : List (List Token × Expr)) (span : Span)
    (first : ∀ a ∈ args, ∃ t rest, a.1 = t :: rest ∧ t ≠ .symbol .rightParen)
    (each : ∀ a ∈ args, ReadsWhole a.1 a.2) : Selects (.ident name :: .symbol .leftParen ::
      ([.symbol .comma].intercalate (args.map Prod.fst) ++ [.symbol .rightParen]))
      (.call name (args.map Prod.snd) span) := by
  refine selects_of_primary fun s u crossed behind => ?_
  obtain ⟨s₁,word,s₂,left,crossed⟩ := crossed
  have read : ∃ es, bareAll es = bareAll (args.map Prod.snd) ∧ Yields (callArguments s₂) es u := by
    cases args with
    | nil =>
      obtain ⟨u,right,rfl⟩ := crossed
      refine ⟨[],rfl,?_⟩
      rw [Yields,callArguments,right.eat?]
      exact ⟨_,rfl,rfl⟩
    | cons a args =>
      obtain ⟨es,same,read⟩ := argumentList_reads (a :: args) (by simp) each crossed
      refine ⟨es,same,?_⟩
      obtain ⟨t,rest,start,ne⟩ := first a (by simp)
      have opens : ∃ v, Takes t s₂ v := by
        rw [map_cons,start] at crossed
        cases args <;> simp only [map_nil,intercalate_singleton,map_cons,intercalate_cons_cons,
          cons_append] at crossed <;> exact ⟨_,crossed.choose_spec.1⟩
      obtain ⟨v,taken⟩ := opens
      rw [Yields,callArguments,eat?_none (by simpa [taken.rest] using ne)]
      exact read
  obtain ⟨es,same,⟨u,h⟩,read,rfl⟩ := read
  refine ⟨.call name es (s₁.previous.merge u.previous),by simp [Expr.bare,same],?_⟩
  rw [Yields,primary,word.next?]
  simp only [left.eat?,read,bind,Except.bind]
  exact ⟨_,rfl,rfl⟩

/-- Reading finds the tree of a derivation. -/
theorem Derives.reads {k : Nat} (d : Derives k ts e) : Reads k ts e := by
  induction d with
  | int n span => exact .ofSelects (selects_int n span) ⟨_,_,rfl,rfl⟩
  | uint n span => exact .ofSelects (selects_uint n span) ⟨_,_,rfl,rfl⟩
  | bool b span => exact .ofSelects (selects_bool b span) ⟨_,_,rfl,rfl⟩
  | ident name span => exact .ofSelects (selects_ident name span) ⟨_,_,rfl,rfl⟩
  | call name args span each ih =>
    refine .ofSelects (selects_call name args span (fun a mem => ?_) fun a mem => ?_)
      ⟨_,_,rfl,rfl⟩
    · obtain ⟨t,rest,tokens,ne,_⟩ := (each a mem).first
      exact ⟨t,rest,tokens,ne⟩
    · exact (ih a mem).whole (Nat.le_refl _)
  | bracket inner ih =>
    exact .ofSelects (selects_bracket (ih.whole (Nat.le_refl _))) ⟨_,_,rfl,rfl⟩
  | index span b p ihb ihp =>
    refine (Reads.ofSelects (selects_index span (ihb.selects (Nat.le_refl _))
      (ihp.whole (Nat.le_refl _))) ?_).looser (Nat.zero_le _)
    obtain ⟨t,rest,rfl,_,plain⟩ := b.first
    exact ⟨_,_,rfl,plain (Nat.le_refl _)⟩
  | field name span b ih =>
    refine (Reads.ofSelects (selects_field name span (ih.selects (Nat.le_refl _))) ?_).looser
      (Nat.zero_le _)
    obtain ⟨t,rest,rfl,_,plain⟩ := b.first
    exact ⟨_,_,rfl,plain (Nat.le_refl _)⟩
  | unary op span operand ih => exact .ofUnary (readsUnary_sign op span (ih.unary (Nat.le_refl _)))
  | binary op span left right ihl ihr =>
    have low : 3 ≤ op.precedence - 1 := by cases op <;> decide
    have high : op.precedence ≤ loosest := by cases op <;> decide
    exact .ofBinary (readsBinary_operator op span (ihl.binary _ (Nat.le_refl _) (by omega) high)
      (ihr.binary _ (Nat.le_refl _) (by omega) (by omega))) (by omega) high
  | ternary span cond yes no ihc ihy ihn =>
    have first := ihc.binary _ (Nat.le_refl _) (by decide) (Nat.le_refl _)
    exact .ofWhole (readsWhole_ternary span first (ihy.whole (Nat.le_refl _))
      (ihn.whole (Nat.le_refl _)))
  | looser tight le ih => exact ih.looser le

end Derivations

end Shading.Surface
