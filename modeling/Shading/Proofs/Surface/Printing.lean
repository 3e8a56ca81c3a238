import Shading.Proofs.Surface.Grammar

/-! Writing an expression and reading it again. Brackets are put by the strength of the operands,
and reading climbs by the same strengths: what was written is read as the tree it was written for. -/
namespace Shading.Surface
open List Text Emission

/-- An identifier is a word that means nothing else. -/
def isName (name : String) : Bool :=
  startsWith isWordStart name.toList && name.toList.all isWordChar &&
    (Keyword.ofText? name).isNone && name != "true" && name != "false"

def Expr.isNumeral : Expr → Bool
  | .int .. | .uint .. => true
  | _ => false

/-- An expression and the phrase that is built for it from its operands' phrases. -/
inductive WrittenAs : Expr → Phrase → Prop where
  | int (n : UInt32) (span : Span) (small : n.toNat < 2 ^ 31) :
      WrittenAs (.int n span) (.literal (.int n.toInt32))
  | uint (n : UInt32) (span : Span) : WrittenAs (.uint n span) (.literal (.uint n))
  | bool (b : Bool) (span : Span) : WrittenAs (.bool b span) (.literal (.bool b))
  | ident (name : String) (span : Span) (word : isName name = true) :
      WrittenAs (.ident name span) (.primary name)
  | binary {l r : Expr} {p q : Phrase} (op : BinaryOp) (span : Span) (left : WrittenAs l p)
      (right : WrittenAs r q) : WrittenAs (.binary op l r span) (.binary op p q)
  | unary {e : Expr} {p : Phrase} (op : UnaryOp) (span : Span) (operand : WrittenAs e p) :
      WrittenAs (.unary op e span) (.unary op p)
  | ternary {c y n : Expr} {p q r : Phrase} (span : Span) (cond : WrittenAs c p)
      (yes : WrittenAs y q) (no : WrittenAs n r) : WrittenAs (.ternary c y n span) (.ternary p q r)
  | call (name : String) (args : List (Expr × Phrase)) (span : Span) (word : isName name = true)
      (each : ∀ a ∈ args, WrittenAs a.1 a.2) :
      WrittenAs (.call name (args.map Prod.fst) span) (.call name (args.map Prod.snd))
  | index {base position : Expr} {p q : Phrase} (span : Span) (b : WrittenAs base p)
      (i : WrittenAs position q) :
      WrittenAs (.index base position span) (p.select ("[" ++ q.text ++ "]"))
  | field {base : Expr} {p : Phrase} (name : String) (span : Span) (word : isName name = true)
      (whole : base.isNumeral = false) (b : WrittenAs base p) :
      WrittenAs (.field base name span) (p.select ("." ++ name))

def isOpening (c : Char) : Bool := isWordChar c || c == '(' || c == '-' || c == '!' || c == '~'

def Opens (text : String) : Prop := ∃ c cs, text.toList = c :: cs ∧ isOpening c = true

theorem Opens.append {s t : String} (opening : Opens s) : Opens (s ++ t) := by
  obtain ⟨c,cs,text,first⟩ := opening
  exact ⟨c,cs ++ t.toList,by simp [text],first⟩

/-- What must not continue the last token of an expression. -/
def Expr.ending : Expr → Char → Bool
  | .bool .. | .ident .. | .call .. | .index .. | .field .. => endsWord
  | _ => endsNumeral

/-- The text is read as the expression, where a strength is expected. -/
structure Spelled (text : String) (next : Char → Bool) (k : Nat) (e : Expr) : Prop where
  opens : Opens text
  tokens : ∃ ts, Spells text.toList next ts ∧ Derives k ts e

section Parts

variable {text : String} {next : Char → Bool} {k k' : Nat} {e : Expr} {p : Phrase}

theorem Spelled.looser (spelled : Spelled text next k e) (le : k ≤ k') :
    Spelled text next k' e := by
  obtain ⟨opening,ts,spells,derives⟩ := spelled
  exact ⟨opening,ts,spells,derives.looser le⟩

theorem Spelled.narrow {next' : Char → Bool} (spelled : Spelled text next k e)
    (narrower : ∀ c, next' c = true → next c = true) : Spelled text next' k e := by
  obtain ⟨opening,ts,spells,derives⟩ := spelled
  exact ⟨opening,ts,spells.mono narrower,derives⟩

theorem endsWord_of_endsNumeral {c : Char} (ends : endsNumeral c = true) : endsWord c = true := by
  simp only [endsNumeral,Bool.and_eq_true] at ends
  exact ends.1

theorem spells_leftParen : Spells ['('] anything [.symbol .leftParen] :=
  spells_isolated (s := .leftParen) rfl

theorem spells_rightParen : Spells [')'] anything [.symbol .rightParen] :=
  spells_isolated (s := .rightParen) rfl

theorem Spelled.bracketed (spelled : Spelled text endsNumeral 15 e) :
    Spelled (Phrase.bracketed text) anything 0 e := by
  obtain ⟨_,ts,spells,derives⟩ := spelled
  have all := spells_leftParen.append_anything (spells.append_cons spells_rightParen (by decide))
  refine ⟨⟨'(',text.toList ++ [')'],by simp [Phrase.bracketed],rfl⟩,_,?_,derives.bracket⟩
  simpa [Phrase.bracketed] using all

theorem Spelled.ending (spelled : Spelled text e.ending k e) : Spelled text endsNumeral k e :=
  spelled.narrow fun c ends => by
    cases e with
    | bool | ident | call | index | field => exact endsWord_of_endsNumeral ends
    | _ => exact ends

/-- A phrase is read as the expression it stands for, and binds as it says. -/
structure Faithful (e : Expr) (p : Phrase) : Prop where
  spelled : Spelled p.text e.ending p.strength e
  bounded : p.strength ≤ 15

namespace Faithful

section

variable (f : Faithful e p)
include f

theorem whole : Spelled p.text endsNumeral 15 e :=
  f.spelled.ending.looser f.bounded

theorem bracketed (k : Nat) : Spelled (Phrase.bracketed p.text) next k e :=
  (f.whole.bracketed.looser (Nat.zero_le k)).narrow fun _ _ => rfl

theorem within (limit : Nat) : Spelled (p.within limit) e.ending limit e := by
  rw [Phrase.within]
  split
  case isTrue => exact f.bracketed limit
  case isFalse tight => exact f.spelled.looser (Nat.le_of_not_lt tight)

theorem inside (limit : Nat) : Spelled (p.inside limit) endsNumeral (limit - 1) e := by
  rw [Phrase.inside]
  split
  case isTrue => exact f.bracketed _
  case isFalse tight => exact f.spelled.ending.looser (Nat.le_pred_of_lt (Nat.lt_of_not_le tight))

end

end Faithful

end Parts

section Nodes

variable {e l r c y n base position : Expr} {p q u : Phrase}

theorem spells_between {cs cs' sign : List Char} {next follow : Char → Bool} {ts ts' : List Token}
    {s : Symbol} (left : Spells cs endsNumeral ts) (middle : Spells sign follow [.symbol s])
    (blank : follow ' ' = true) (right : Spells cs' next ts') :
    Spells (cs ++ ' ' :: (sign ++ ' ' :: cs')) next (ts ++ .symbol s :: ts') :=
  left.append_cons (middle.append_cons right.blank blank).blank (by decide)

theorem Faithful.binary (op : BinaryOp) (span : Span) (left : Faithful l p) (right : Faithful r q) :
    Faithful (.binary op l r span) (.binary op p q) where
  spelled := by
    obtain ⟨opening,ls,spells,derives⟩ := (left.within op.precedence).ending
    obtain ⟨_,rs,spells',derives'⟩ := right.inside op.precedence
    refine ⟨opening.append.append.append.append,_,?_,derives.binary op span derives'⟩
    simpa [Phrase.binary,Expr.ending] using spells_between spells (spells_binary op) rfl spells'
  bounded := by
    change op.precedence ≤ 15
    cases op <;> decide

theorem Faithful.ternary (span : Span) (cond : Faithful c p) (yes : Faithful y q)
    (no : Faithful n u) : Faithful (.ternary c y n span) (.ternary p q u) where
  spelled := by
    obtain ⟨opening,cs,spells,derives⟩ := cond.inside 15
    obtain ⟨_,ys,spells',derives'⟩ := (yes.within 15).ending
    obtain ⟨_,ns,spells'',derives''⟩ := (no.within 15).ending
    have question : Spells ['?'] anything [.symbol .question] :=
      spells_isolated (s := .question) rfl
    have colon : Spells [':'] anything [.symbol .colon] := spells_isolated (s := .colon) rfl
    refine ⟨opening.append.append.append.append,_,?_,.ternary span derives derives' derives''⟩
    simpa [Phrase.ternary,Expr.ending,Strength.ternary] using
      spells_between spells question rfl (spells_between spells' colon rfl spells'')
  bounded := Nat.le_refl 15

theorem Spelled.sign {text : String} (op : UnaryOp) (span : Span)
    (operand : Spelled text endsNumeral 2 e)
    (apart : op.symbol.toList.isPrefixOf text.toList = false) :
    Spelled (op.symbol ++ text) endsNumeral 2 (.unary op e span) := by
  obtain ⟨⟨c,cs,first,opening⟩,ts,spells,derives⟩ := operand
  rw [toList_symbol,first] at apart
  have besides : besides op c = true := by
    have other : unaryChar op ≠ c := by simpa [List.isPrefixOf] using apart
    have equals : c ≠ '=' := by rintro rfl; exact absurd opening (by decide)
    simp [besides,equals,other.symm]
  refine ⟨⟨unaryChar op,c :: cs,by simp [toList_symbol,first],by cases op <;> rfl⟩,_,?_,
    derives.unary op span⟩
  rw [first] at spells
  simpa [first] using (spells_unary op).append_cons spells besides

theorem Faithful.unary (op : UnaryOp) (span : Span) (operand : Faithful e p) :
    Faithful (.unary op e span) (.unary op p) where
  spelled := by
    have inner := (operand.within Strength.unary).ending
    rw [Phrase.unary]
    dsimp only
    split
    case isTrue =>
      have whole : Spelled (p.within Strength.unary) endsNumeral 15 e := inner.looser (by decide)
      have held : Spelled (Phrase.bracketed (p.within Strength.unary)) endsNumeral 2 e :=
        (whole.bracketed.looser (Nat.zero_le 2)).narrow fun _ _ => rfl
      have apart : op.symbol.toList.isPrefixOf
          (Phrase.bracketed (p.within Strength.unary)).toList = false := by
        cases op <;> simp [Phrase.bracketed,UnaryOp.symbol,List.isPrefixOf]
      exact held.sign op span apart
    case isFalse apart => exact inner.sign op span (Bool.eq_false_iff.2 apart)
  bounded := by
    change 2 ≤ 15
    decide

theorem Faithful.index (span : Span) (b : Faithful base p) (i : Faithful position q) :
    Faithful (.index base position span) (p.select ("[" ++ q.text ++ "]")) where
  spelled := by
    obtain ⟨opening,bs,spells,derives⟩ := (b.within Strength.postfixed).ending
    obtain ⟨_,ps,spells',derives'⟩ := i.whole
    have left : Spells ['['] anything [.symbol .leftBracket] :=
      spells_isolated (s := .leftBracket) rfl
    have right : Spells [']'] anything [.symbol .rightBracket] :=
      spells_isolated (s := .rightBracket) rfl
    have held := left.append_anything (spells'.append_cons right (by decide))
    have all := spells.append_cons held (by decide)
    refine ⟨opening.append,_,?_,derives.index span derives'⟩
    simpa [Phrase.select] using all.mono fun _ _ => rfl
  bounded := by
    change 1 ≤ 15
    decide

variable {name : String}

section

variable (word : isName name = true)
include word

theorem isName_parts :
    ∃ c cs, name.toList = c :: cs ∧ isWordStart c = true ∧ cs.all isWordChar = true ∧
      wordToken (c :: cs) = .ident name := by
  simp only [isName,Bool.and_eq_true,bne_iff_ne,Option.isNone_iff_eq_none] at word
  obtain ⟨⟨⟨⟨start,all⟩,plain⟩,notTrue⟩,notFalse⟩ := word
  obtain ⟨c,cs,text⟩ : ∃ c cs, name.toList = c :: cs := by
    cases h : name.toList with
    | nil => simp [h,startsWith] at start
    | cons c cs => exact ⟨c,cs,rfl⟩
  refine ⟨c,cs,text,by simpa [text,startsWith] using start,by simp_all,?_⟩
  have same : String.ofList (c :: cs) = name := by rw [← text,String.ofList_toList]
  rw [wordToken,same]
  split
  case h_1 => contradiction
  case h_2 => contradiction
  case h_3 => rw [plain]

theorem spells_name : Spells name.toList endsWord [.ident name] := by
  obtain ⟨c,cs,text,start,all,token⟩ := isName_parts word
  rw [text,← token]
  exact spells_word start all

theorem opens_name : Opens name := by
  obtain ⟨c,cs,text,start,_⟩ := isName_parts word
  exact ⟨c,cs,text,by simp [isOpening,isWordChar_of_isWordStart start]⟩

end

theorem Faithful.ident (span : Span) (word : isName name = true) :
    Faithful (.ident name span) (.primary name) where
  spelled := ⟨opens_name word,_,spells_name word,.ident name span⟩
  bounded := Nat.zero_le _

theorem ending_of_tight (whole : e.isNumeral = false) (f : WrittenAs e p) (tight : p.strength ≤ 1) :
    e.ending = endsWord := by
  cases f with
  | int | uint => contradiction
  | bool | ident | call | index | field => rfl
  | binary op => exact absurd (show op.precedence ≤ 1 from tight) (by cases op <;> decide)
  | unary => exact absurd (show 2 ≤ 1 from tight) (by decide)
  | ternary => exact absurd (show 15 ≤ 1 from tight) (by decide)

theorem Faithful.field (span : Span) (word : isName name = true) (whole : base.isNumeral = false)
    (written : WrittenAs base p) (b : Faithful base p) :
    Faithful (.field base name span) (p.select ("." ++ name)) where
  spelled := by
    have before : Spelled (p.within Strength.postfixed) endsWord 1 base := by
      rw [Phrase.within]
      split
      case isTrue => exact b.bracketed 1
      case isFalse tight =>
        have tight : p.strength ≤ 1 := Nat.le_of_not_lt tight
        exact ending_of_tight whole written tight ▸ b.spelled.looser tight
    obtain ⟨opening,bs,spells,derives⟩ := before
    have suffix : Spells ('.' :: name.toList) endsWord [.symbol .dot,.ident name] := by
      obtain ⟨c,cs,text,start,_⟩ := isName_parts word
      have named := spells_name word
      rw [text] at named ⊢
      exact spells_dot.append_cons named (by simp [isDigit_of_isWordStart start])
    refine ⟨opening.append,_,?_,derives.field name span⟩
    simpa [Phrase.select,Expr.ending] using spells.append_cons suffix (by decide)
  bounded := by
    change 1 ≤ 15
    decide

theorem Faithful.numeral (unsigned : Bool) (n : Nat) {c : Const} (fits : n < 2 ^ 64)
    (text : c.text.toList = numeral unsigned n) (ending : e.ending = endsNumeral)
    (derives : Derives 0 [if unsigned then .uint n else .int n] e) : Faithful e (.literal c) := by
  obtain ⟨d,ds,digits⟩ := exists_cons_of_ne_nil (Nat.toDigits_ne_nil (b := 10) (n := n))
  have digit : d.isDigit = true :=
    Nat.isDigit_of_mem_toDigits (b := 10) (n := n) (by omega) (by omega) (by simp [digits])
  have first : c.text.toList = d :: (ds ++ unsignedMark unsigned) := by
    rw [text,Surface.numeral,digits,cons_append]
  have strength : (Phrase.literal c).strength = 0 := by
    rw [Phrase.literal,first]
    refine if_neg fun minus => ?_
    have : '-' = d := by simpa [List.isPrefixOf] using minus
    subst this
    exact absurd digit (by decide)
  have opening : Opens c.text := ⟨d,_,first,by simp [isOpening,isWordChar_of_isDigit digit]⟩
  refine ⟨⟨opening,_,?_,strength ▸ derives⟩,?_⟩
  · rw [ending]
    exact text ▸ spells_numeral unsigned fits
  · rw [strength]
    exact Nat.zero_le _

theorem toInt_toInt32 {n : UInt32} (small : n.toNat < 2 ^ 31) : n.toInt32.toInt = n.toNat := by
  change n.toBitVec.toInt = n.toNat
  rw [BitVec.toInt_eq_toNat_of_lt (by simpa using by omega),UInt32.toNat_toBitVec]

theorem Faithful.int {n : UInt32} (span : Span) (small : n.toNat < 2 ^ 31) :
    Faithful (.int n span) (.literal (.int n.toInt32)) := by
  have fits : n.toNat < 2 ^ 64 := by have := n.toNat_lt; omega
  refine .numeral false n.toNat fits ?_ rfl (.int n span)
  rw [Const.text,toInt_toInt32 small]
  change (Nat.repr n.toNat).toList = _
  simp [Nat.repr_eq_ofList_toDigits,Surface.numeral,unsignedMark]

theorem Faithful.uint (n : UInt32) (span : Span) : Faithful (.uint n span) (.literal (.uint n)) := by
  have fits : n.toNat < 2 ^ 64 := by have := n.toNat_lt; omega
  refine .numeral true n.toNat fits ?_ rfl (.uint n span)
  simp [Const.text,Surface.numeral,unsignedMark]

theorem Faithful.bool (b : Bool) (span : Span) : Faithful (.bool b span) (.literal (.bool b)) where
  spelled := by
    cases b with
    | true => exact ⟨⟨_,_,rfl,rfl⟩,_,spells_word rfl rfl,.bool true span⟩
    | false => exact ⟨⟨_,_,rfl,rfl⟩,_,spells_word rfl rfl,.bool false span⟩
  bounded := by cases b <;> decide

theorem spelled_arguments (args : List (Expr × Phrase))
    (each : ∀ a ∈ args, Spelled a.2.text endsNumeral 15 a.1) :
    ∃ items : List (List Token × Expr), items.map Prod.snd = args.map Prod.fst ∧
      (∀ i ∈ items, Derives 15 i.1 i.2) ∧
      Spells ([',', ' '].intercalate (args.map fun a => a.2.text.toList)) endsNumeral
        ([.symbol .comma].intercalate (items.map Prod.fst)) := by
  induction args with
  | nil => exact ⟨[],rfl,by simp,.nil⟩
  | cons a args ih =>
    obtain ⟨_,ts,spells,derives⟩ := each a (by simp)
    obtain ⟨items,same,all,rest⟩ := ih fun b mem => each b (by simp [mem])
    refine ⟨(ts, a.1) :: items,by simp [same],forall_mem_cons.2 ⟨derives,all⟩,?_⟩
    cases args with
    | nil =>
      cases items with
      | nil => simpa using spells
      | cons => simp at same
    | cons b args =>
      cases items with
      | nil => simp at same
      | cons i items =>
        have comma : Spells [','] anything [.symbol .comma] := spells_isolated (s := .comma) rfl
        have all := spells.append_cons (comma.append_cons rest.blank rfl) (by decide)
        simpa [intercalate_cons_cons] using all

theorem Faithful.call {args : List (Expr × Phrase)} (span : Span) (word : isName name = true)
    (each : ∀ a ∈ args, Faithful a.1 a.2) :
    Faithful (.call name (args.map Prod.fst) span) (.call name (args.map Prod.snd)) where
  spelled := by
    obtain ⟨items,same,derives,spells⟩ := spelled_arguments args fun a mem => (each a mem).whole
    have held := spells_leftParen.append_anything (spells.append_cons spells_rightParen (by decide))
    have all := (spells_name word).append_cons held (by decide)
    rw [← same]
    refine ⟨(opens_name word).append,_,?_,.call name items span derives⟩
    simpa [Phrase.call,Phrase.primary,Phrase.bracketed,Expr.ending,String.toList_intercalate,
      Function.comp_def] using all.mono fun _ _ => rfl
  bounded := Nat.zero_le _

theorem WrittenAs.faithful (w : WrittenAs e p) : Faithful e p := by
  induction w with
  | int n span small => exact .int span small
  | uint n span => exact .uint n span
  | bool b span => exact .bool b span
  | ident name span word => exact .ident span word
  | binary op span _ _ left right => exact .binary op span left right
  | unary op span _ operand => exact .unary op span operand
  | ternary span _ _ _ cond yes no => exact .ternary span cond yes no
  | call name args span word _ each => exact .call span word each
  | index span _ _ b i => exact .index span b i
  | field name span word whole written b => exact .field span word whole written b

end Nodes

theorem ofLexemes_append (ls : List Lexeme) (l : Lexeme) :
    Cursor.ofLexemes (ls ++ [l]) = ⟨(ls.head?.map Lexeme.span).getD l.span, ls ++ [], l.span⟩ := by
  rw [Cursor.ofLexemes,getLast?_concat,dropLast_concat,append_nil]
  cases ls <;> rfl

/-- The text of a written expression is read as the same tree up to the ranges, to its end. -/
theorem written_reads_back {e : Expr} {p : Phrase} (written : WrittenAs e p) :
    ∃ ls e' s, tokenize p.text = .ok ls ∧ expression (.ofLexemes ls) = .ok (e', s) ∧
      s.val.rest = [] ∧ e'.bare = e.bare := by
  obtain ⟨_,ts,spells,derives⟩ := written.faithful.whole
  obtain ⟨ls,offset,tokens,scanned⟩ := spells 0 [] rfl
  rw [append_nil] at scanned
  have lexed : tokenize p.text = .ok (ls ++ [⟨.eof,⟨offset,offset⟩⟩]) := by
    rw [tokenize,scan,scanned]
    simp [scanFrom]
  obtain ⟨last,crossed⟩ := crosses_lexemes ((ls.head?.map Lexeme.span).getD ⟨offset,offset⟩)
    ⟨offset,offset⟩ ls []
  rw [tokens] at crossed
  obtain ⟨e',same,s,read,ends⟩ := derives.reads.whole (Nat.le_refl _) _ _ crossed behind_nil
  refine ⟨ls ++ [⟨.eof,⟨offset,offset⟩⟩],e',?_⟩
  rw [ofLexemes_append]
  exact ⟨s,lexed,read,by rw [ends],same⟩

/-- Equal signs in a row, a difference on the right of a difference, and selections from a call. -/
def nested : Expr :=
  let at_ : Span := ⟨0, 0⟩
  .ternary (.binary .sub (.unary .neg (.unary .neg (.ident "x" at_) at_) at_)
      (.binary .sub (.ident "a" at_) (.ident "b" at_) at_) at_)
    (.field (.index (.call "f" [.int 1 at_, .uint 2 at_] at_) (.ident "i" at_) at_) "y" at_)
    (.bool true at_) at_

theorem nested_reads_back : ∃ p, p.text = "-(-x) - (a - b) ? f(1, 2u)[i].y : true" ∧
    WrittenAs nested p ∧ ∃ ls e' s, tokenize p.text = .ok ls ∧
      expression (.ofLexemes ls) = .ok (e', s) ∧ s.val.rest = [] ∧ e'.bare = nested.bare := by
  have difference : WrittenAs _ _ := .binary .sub ⟨0,0⟩
    (.unary .neg ⟨0,0⟩ (.unary .neg ⟨0,0⟩ (.ident "x" ⟨0,0⟩ (by decide))))
    (.binary .sub ⟨0,0⟩ (.ident "a" ⟨0,0⟩ (by decide)) (.ident "b" ⟨0,0⟩ (by decide)))
  have args : ∀ a ∈ [(Expr.int 1 ⟨0,0⟩, Phrase.literal (.int 1)),
      (.uint 2 ⟨0,0⟩, .literal (.uint 2))], WrittenAs a.1 a.2 := by
    simpa using ⟨.int 1 ⟨0,0⟩ (by decide),.uint 2 ⟨0,0⟩⟩
  have selection : WrittenAs _ _ := .field "y" ⟨0,0⟩ (by decide) rfl
    (.index ⟨0,0⟩ (.call "f" _ ⟨0,0⟩ (by decide) args) (.ident "i" ⟨0,0⟩ (by decide)))
  have written : WrittenAs nested _ := .ternary ⟨0,0⟩ difference selection (.bool true ⟨0,0⟩)
  exact ⟨_,rfl,written,written_reads_back written⟩

end Shading.Surface
