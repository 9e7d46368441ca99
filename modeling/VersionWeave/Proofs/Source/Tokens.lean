import Mathlib.Data.List.Chain
import VersionWeave.Proofs.Source.Escapes
import VersionWeave.Proofs.Source.Types

namespace VersionWeave

/-- What joins the operands of an expression. -/
inductive Oper where
  | comma
  | member
  | assign (op : AssignOp)
  | binary (op : BinaryOp)
  | unary (op : UnaryOp)
  deriving DecidableEq

def spaced (symbol : String) : List Char :=
  ' ' :: symbol.toList ++ [' ']

def Oper.text : Oper → List Char
  | .comma => [',', ' ']
  | .member => ['.']
  | .assign op => spaced op.symbol
  | .binary op => spaced op.symbol
  | .unary op => op.symbol.toList

/-- The pieces of the text of an expression. -/
inductive Token where
  /-- A name, a number, a word of the language or a type. -/
  | name (type : TypeRef)
  | quoted (quote : Char) (content : List Char)
  | new
  | opening
  | closing
  /-- The end of a cast, with the blank after it. -/
  | casting
  | op (o : Oper)

namespace Token

def text : Token → List Char
  | name type => type.source.toList
  | quoted quote content => (VersionWeave.quoted quote content).toList
  | new => ['n', 'e', 'w', ' ']
  | opening => ['(']
  | closing => [')']
  | casting => [')', ' ']
  | op o => o.text

@[simp] theorem text_name (type : TypeRef) : (name type).text = type.source.toList := rfl

@[simp] theorem text_quoted (quote : Char) (content : List Char) :
    (quoted quote content).text = (VersionWeave.quoted quote content).toList := rfl

@[simp] theorem text_new : new.text = ['n', 'e', 'w', ' '] := rfl

@[simp] theorem text_opening : opening.text = ['('] := rfl

@[simp] theorem text_closing : closing.text = [')'] := rfl

@[simp] theorem text_casting : casting.text = [')', ' '] := rfl

@[simp] theorem text_op (o : Oper) : (op o).text = o.text := rfl

/-- Letters, digits, underscores and dollar signs. -/
def isWordChar (c : Char) : Bool :=
  c.isAlphanum || c = '_' || c = '$'

/-- A piece that can be told from the pieces around it. -/
def Legible : Token → Prop
  | name type => type.SpelledIn isWordChar ∧ type.name ≠ "" ∧ type.name ≠ "new"
  | quoted quote _ => quote = '"' ∨ quote = '\''
  | op (.unary o) => o = .not ∨ o = .postInc ∨ o = .postDec
  | _ => True

/-- The pieces with which an operand can start. -/
def starts : Token → Bool
  | name _ | quoted .. | new | opening | op (.unary .not) => true
  | _ => false

/-- No word stands next to a word; an operand follows a cast and a negation, but no parenthesis. -/
def Precedes : Token → Token → Prop
  | name _, next => next.starts = false ∨ next = opening
  | closing, next => next.starts = false
  | casting, next | op (.unary .not), next => next.starts = true
  | _, _ => True

/-- What the first character of a piece says about it. -/
inductive Kind where
  | word
  | quote
  | opening
  | closing
  | bracket
  | mark
  deriving DecidableEq

def Kind.of (c : Char) : Kind :=
  if isWordChar c then .word
  else if c = '"' ∨ c = '\'' then .quote
  else if c = '(' then .opening
  else if c = ')' then .closing
  else if c = '<' ∨ c = '[' then .bracket
  else .mark

def kind : Token → Kind
  | name _ | new => .word
  | quoted .. => .quote
  | opening => .opening
  | closing | casting => .closing
  | op _ => .mark

theorem isWordChar_of_isDelimiter {c : Char} (h : TypeRef.isDelimiter c = true) :
    isWordChar c = false := by
  simp only [TypeRef.isDelimiter, Bool.or_eq_true, decide_eq_true_eq] at h
  rcases h with (((rfl | rfl) | rfl) | rfl) | rfl <;> decide

theorem toList_quoted (quote : Char) (content : List Char) :
    (VersionWeave.quoted quote content).toList =
      quote :: (content.flatMap (escapeQuoted quote) ++ [quote]) := by
  rw [VersionWeave.quoted, String.toList_ofList]
  rfl

/-- Every operator is written with a character that belongs to no operand. -/
theorem exists_text_oper (o : Oper) : ∃ c cs, o.text = c :: cs ∧ Kind.of c = .mark := by
  cases o with
  | comma => exact ⟨_, _, rfl, by decide⟩
  | member => exact ⟨_, _, rfl, by decide⟩
  | assign op => exact ⟨' ', _, rfl, by decide⟩
  | binary op => exact ⟨' ', _, rfl, by decide⟩
  | unary op => cases op <;> exact ⟨_, _, rfl, by decide⟩

theorem exists_text {t : Token} (h : t.Legible) : ∃ c cs, t.text = c :: cs ∧ Kind.of c = t.kind := by
  cases t with
  | name type =>
    obtain ⟨name, args, dims⟩ := type
    obtain ⟨hspelled, hne, -⟩ := h
    cases hname : name.toList with
    | nil => exact absurd (String.toList_eq_nil_iff.mp hname) hne
    | cons c cs =>
      refine ⟨c, _, by rw [text, TypeRef.toList_source, hname]; rfl, ?_⟩
      rw [Kind.of, if_pos (hspelled name List.mem_cons_self c (hname ▸ List.mem_cons_self))]
      rfl
  | quoted quote content =>
    refine ⟨quote, _, toList_quoted quote content, ?_⟩
    rcases h with rfl | rfl
    · exact (by decide : Kind.of '"' = .quote)
    · exact (by decide : Kind.of '\'' = .quote)
  | new => exact ⟨_, _, rfl, by decide⟩
  | opening => exact ⟨_, _, rfl, by decide⟩
  | closing => exact ⟨_, _, rfl, by decide⟩
  | casting => exact ⟨_, _, rfl, by decide⟩
  | op o => exact exists_text_oper o

/-- What a character after a backslash stands for. -/
def unescape (c : Char) : Char :=
  if c = 'n' then '\n' else if c = 'r' then '\r' else if c = 't' then '\t' else c

theorem escapeQuoted_cases {quote : Char} (hquote : quote = '"' ∨ quote = '\'') (c : Char) :
    (escapeQuoted quote c = [c] ∧ c ≠ '\\' ∧ c ≠ quote) ∨
      ∃ d, escapeQuoted quote c = ['\\', d] ∧ unescape d = c := by
  rcases Escape.escapeQuoted_spec quote c with ⟨hc, hback, hne, -⟩ | ⟨d, hd, hc⟩
  · exact .inl ⟨hc, hback, hne⟩
  · refine .inr ⟨d, hc, ?_⟩
    simp only [Escape.pairs, List.mem_cons, Prod.mk.injEq, List.not_mem_nil, or_false] at hd
    rcases hquote with rfl | rfl <;>
      rcases hd with ⟨rfl, rfl⟩ | ⟨rfl, rfl⟩ | ⟨rfl, rfl⟩ | ⟨rfl, rfl⟩ | ⟨rfl, rfl⟩ <;> decide

/-- An escaped character and what follows it can be told apart. -/
theorem escapeQuoted_append_inj {quote : Char} (hquote : quote = '"' ∨ quote = '\'') {c d : Char}
    {k l : List Char} (h : escapeQuoted quote c ++ k = escapeQuoted quote d ++ l) :
    c = d ∧ k = l := by
  rcases escapeQuoted_cases hquote c with ⟨hc, hcback, -⟩ | ⟨c', hc, rfl⟩ <;>
    rcases escapeQuoted_cases hquote d with ⟨hd, hdback, -⟩ | ⟨d', hd, rfl⟩ <;>
    rw [hc, hd] at h
  · exact List.cons.inj h
  · exact absurd (List.cons.inj h).1 hcback
  · exact absurd (List.cons.inj h).1.symm hdback
  · obtain ⟨rfl, hkl⟩ := List.cons.inj (List.cons.inj h).2
    exact ⟨rfl, hkl⟩

/-- No escaped character starts with the quote. -/
theorem escapeQuoted_append_ne {quote : Char} (hquote : quote = '"' ∨ quote = '\'') {c : Char}
    {k l : List Char} : escapeQuoted quote c ++ k ≠ quote :: l := by
  rcases escapeQuoted_cases hquote c with ⟨hc, -, hne⟩ | ⟨d, hc, -⟩
  · rw [hc]
    exact fun h => hne (List.cons.inj h).1
  · rw [hc]
    rintro h
    rcases hquote with rfl | rfl <;> exact absurd (List.cons.inj h).1 (by decide)

theorem content_append_inj {quote : Char} (hquote : quote = '"' ∨ quote = '\'') {xs : List Char} :
    ∀ {ys k l : List Char}, xs.flatMap (escapeQuoted quote) ++ quote :: k =
      ys.flatMap (escapeQuoted quote) ++ quote :: l → xs = ys ∧ k = l := by
  induction xs with
  | nil =>
    intro ys k l h
    cases ys with
    | nil => exact ⟨rfl, (List.cons.inj h).2⟩
    | cons y ys =>
      rw [List.flatMap_cons, List.append_assoc] at h
      exact absurd h.symm (escapeQuoted_append_ne hquote)
  | cons x xs ih =>
    intro ys k l h
    rw [List.flatMap_cons, List.append_assoc] at h
    cases ys with
    | nil => exact absurd h (escapeQuoted_append_ne hquote)
    | cons y ys =>
      rw [List.flatMap_cons, List.append_assoc] at h
      obtain ⟨rfl, hrest⟩ := escapeQuoted_append_inj hquote h
      obtain ⟨rfl, hkl⟩ := ih hrest
      exact ⟨rfl, hkl⟩

theorem quoted_append_inj {quote quote' : Char} {xs ys k l : List Char}
    (hquote : quote = '"' ∨ quote = '\'')
    (h : (quoted quote xs).text ++ k = (quoted quote' ys).text ++ l) :
    quote = quote' ∧ xs = ys ∧ k = l := by
  rw [text, text, toList_quoted, toList_quoted, List.cons_append, List.cons_append,
    List.append_assoc, List.append_assoc] at h
  obtain ⟨rfl, hcontent⟩ := List.cons.inj h
  exact ⟨rfl, content_append_inj hquote hcontent⟩

/-- The operators that stand in expressions whose text can be read back. -/
def opers : List Oper :=
  [.comma, .member, .assign .assign, .assign .add, .assign .sub, .assign .mul, .assign .div,
    .assign .rem, .binary .add, .binary .sub, .binary .mul, .binary .div, .binary .rem,
    .binary .eq, .binary .ne, .binary .lt, .binary .le, .binary .gt, .binary .ge, .binary .and,
    .binary .or, .unary .not, .unary .postInc, .unary .postDec]

theorem mem_opers {o : Oper} (h : (op o).Legible) : o ∈ opers := by
  cases o with
  | comma => decide
  | member => decide
  | assign op => cases op <;> decide
  | binary op => cases op <;> decide
  | unary op => rcases h with rfl | rfl | rfl <;> decide

/-- The text of no operator starts with that of another. -/
theorem opers_prefix_free : ∀ o ∈ opers, ∀ o' ∈ opers, o.text <+: o'.text → o = o' := by
  decide +kernel

theorem oper_append_inj {o o' : Oper} {k l : List Char} (ho : (op o).Legible)
    (ho' : (op o').Legible) (h : o.text ++ k = o'.text ++ l) : o = o' ∧ k = l := by
  have hprefix : o.text <+: o'.text ∨ o'.text <+: o.text :=
    List.prefix_or_prefix_of_prefix (List.prefix_append _ k) (h ▸ List.prefix_append _ l)
  have hsame : o = o' := by
    rcases hprefix with hprefix | hprefix
    · exact opers_prefix_free o (mem_opers ho) o' (mem_opers ho') hprefix
    · exact (opers_prefix_free o' (mem_opers ho') o (mem_opers ho) hprefix).symm
  subst hsame
  exact ⟨rfl, List.append_cancel_left h⟩

theorem starts_cases {t : Token} (h : t.starts = true) :
    t = op (.unary .not) ∨ t.kind ≠ .mark ∧ t.kind ≠ .bracket := by
  cases t with
  | op o =>
    cases o with
    | unary o =>
      cases o with
      | not => exact .inl rfl
      | _ => cases h
    | _ => cases h
  | _ => exact .inr ⟨by simp [kind], by simp [kind]⟩

/-- A symbol between blanks starts like no operand, unless it goes on with an equality sign. -/
theorem exists_symbol {o : Oper} (h : o.text.head? = some ' ') : ∃ c cs, o.text = ' ' :: c :: cs ∧
    (Kind.of c = .mark ∨ Kind.of c = .bracket) ∧ (c = '!' → cs.head? = some '=') := by
  cases o with
  | comma => cases h
  | member => cases h
  | assign op => cases op <;> exact ⟨_, _, rfl, by decide, by decide⟩
  | binary op => cases op <;> exact ⟨_, _, rfl, by decide, by decide⟩
  | unary op => cases op <;> cases h

/-- A name ends where no character of a word, no type argument and no dimension follows. -/
theorem Kind.stops {c : Char} (hword : of c ≠ word) (hbracket : of c ≠ bracket) :
    isWordChar c = false ∧ c ≠ '<' ∧ c ≠ '[' := by
  refine ⟨?_, ?_, ?_⟩
  · refine Bool.eq_false_iff.mpr fun h => hword ?_
    rw [of, if_pos h]
  · rintro rfl
    exact hbracket (by decide)
  · rintro rfl
    exact hbracket (by decide)

theorem name_append_inj {t u : TypeRef} {k l : List Char} (ht : (name t).Legible)
    (hu : (name u).Legible) (hk : TypeRef.Stops isWordChar k) (hl : TypeRef.Stops isWordChar l)
    (h : (name t).text ++ k = (name u).text ++ l) : t = u ∧ k = l :=
  TypeRef.source_append_inj (fun _ => isWordChar_of_isDelimiter) t u ht.1 hu.1 k l hk hl h

theorem name_append_ne_new {t : TypeRef} {k l : List Char} (ht : (name t).Legible)
    (hk : TypeRef.Stops isWordChar k) : (name t).text ++ k ≠ new.text ++ l := by
  obtain ⟨word, args, dims⟩ := t
  intro h
  have hsplit : word.toList ++ (TypeRef.argsText args ++ (brackets dims.toNat ++ k)) =
      "new".toList ++ ' ' :: l := by
    rw [text, TypeRef.toList_source, List.append_assoc, List.append_assoc] at h
    exact h
  obtain ⟨hword, -⟩ := run_append_inj (p := isWordChar) (ht.1 word List.mem_cons_self)
    (List.all_eq_true.mp rfl)
    (TypeRef.head_argsText_append (fun _ => isWordChar_of_isDelimiter) hk args _)
    (by intro c hc; cases Option.some.inj hc; decide) hsplit
  exact ht.2.2 (String.toList_inj.mp hword)

end Token

/-- The text of a sequence of pieces. -/
def textOf (ts : List Token) : List Char :=
  ts.flatMap Token.text

@[simp] theorem textOf_nil : textOf [] = [] := rfl

@[simp] theorem textOf_cons (t : Token) (ts : List Token) : textOf (t :: ts) = t.text ++ textOf ts :=
  rfl

@[simp] theorem textOf_append (ts us : List Token) : textOf (ts ++ us) = textOf ts ++ textOf us :=
  List.flatMap_append

/-- A sequence of pieces that can be told apart. -/
structure Written (ts : List Token) : Prop where
  legible : ∀ t ∈ ts, t.Legible
  chain : ts.IsChain Token.Precedes

namespace Written

variable {t u : Token} {ts us : List Token}

theorem head (h : Written (t :: ts)) : t.Legible := h.legible t List.mem_cons_self

theorem tail (h : Written (t :: ts)) : Written ts where
  legible u hu := h.legible u (List.mem_cons_of_mem _ hu)
  chain := h.chain.tail

theorem precedes (h : Written (t :: u :: ts)) : t.Precedes u :=
  (List.isChain_cons_cons.mp h.chain).1

theorem exists_textOf (h : Written (t :: ts)) :
    ∃ c cs, textOf (t :: ts) = c :: cs ∧ Token.Kind.of c = t.kind := by
  obtain ⟨c, cs, hc, hkind⟩ := Token.exists_text h.head
  exact ⟨c, _, by rw [textOf_cons, hc]; rfl, hkind⟩

theorem stops_of_name {a : TypeRef} (h : Written (.name a :: ts)) :
    TypeRef.Stops Token.isWordChar (textOf ts) := by
  intro c hc
  cases ts with
  | nil => cases hc
  | cons u us =>
    obtain ⟨d, ds, htext, hkind⟩ := h.tail.exists_textOf
    rw [htext] at hc
    cases Option.some.inj hc
    have hnext : u.kind ≠ .word ∧ u.kind ≠ .bracket := by
      rcases h.precedes with hstarts | rfl
      · cases u with
        | name _ => cases hstarts
        | new => cases hstarts
        | quoted _ _ => cases hstarts
        | _ => exact ⟨by simp [Token.kind], by simp [Token.kind]⟩
      · exact ⟨by decide, by decide⟩
    exact Token.Kind.stops (hkind ▸ hnext.1) (hkind ▸ hnext.2)

/-- No operand starts with a symbol. -/
theorem operand_ne_symbol (h : Written (t :: ts)) (hstarts : t.starts = true) {c : Char}
    {cs : List Char} (hc : Token.Kind.of c = .mark ∨ Token.Kind.of c = .bracket)
    (hcs : c = '!' → cs.head? = some '=') : textOf (t :: ts) ≠ c :: cs := by
  intro htext
  obtain ⟨d, ds, hd, hkind⟩ := h.exists_textOf
  obtain ⟨rfl, -⟩ := List.cons.inj (hd.symm.trans htext)
  rcases Token.starts_cases hstarts with rfl | ⟨hmark, hbracket⟩
  · -- What follows a negation is an operand again, and no operand starts with an equality sign.
    obtain ⟨rfl, rfl⟩ := List.cons.inj htext
    have hnext := hcs rfl
    cases ts with
    | nil => cases hnext
    | cons u us =>
      obtain ⟨e, es, he, hkind'⟩ := h.tail.exists_textOf
      change (textOf (u :: us)).head? = some '=' at hnext
      rw [he] at hnext
      cases Option.some.inj hnext
      rcases Token.starts_cases h.precedes with rfl | ⟨hmark, -⟩
      · cases he
      · exact hmark (hkind'.symm.trans (by decide))
  · rcases hc with hc | hc
    · exact hmark (hkind.symm.trans hc)
    · exact hbracket (hkind.symm.trans hc)

/-- A parenthesis and the end of a cast differ in what comes after the blank. -/
theorem closing_ne_casting (hts : Written (.closing :: ts)) (hus : Written (.casting :: us)) :
    textOf ts ≠ ' ' :: textOf us := by
  intro h
  cases ts with
  | nil => cases h
  | cons t ts =>
    obtain ⟨c, cs, hc, hkind⟩ := hts.tail.exists_textOf
    obtain ⟨rfl, -⟩ := List.cons.inj (hc.symm.trans h)
    cases t with
    | op o =>
      obtain ⟨_, _, htext, -⟩ := Token.exists_text_oper o
      have hblank : o.text.head? = some ' ' := by
        rw [textOf_cons, Token.text, htext] at h
        rw [htext, (List.cons.inj h).1]
        rfl
      obtain ⟨d, ds, hd, hmark, hequal⟩ := Token.exists_symbol hblank
      rw [textOf_cons, Token.text, hd] at h
      have hrest : textOf us = d :: (ds ++ textOf ts) := (List.cons.inj h).2.symm
      cases us with
      | nil => cases hrest
      | cons u us =>
        refine hus.tail.operand_ne_symbol hus.precedes hmark (fun hd => ?_) hrest
        rw [List.head?_append, hequal hd]
        rfl
    | _ => exact absurd hkind (by simp [Token.kind, Token.Kind.of, Token.isWordChar])

/-- A first piece and the text of the others can be told apart. -/
theorem cons_inj (hts : Written (t :: ts)) (hus : Written (u :: us))
    (h : textOf (t :: ts) = textOf (u :: us)) : t = u ∧ textOf ts = textOf us := by
  have hkind : t.kind = u.kind := by
    obtain ⟨c, cs, hc, hct⟩ := hts.exists_textOf
    obtain ⟨d, ds, hd, hdu⟩ := hus.exists_textOf
    rw [hc, hd] at h
    rw [← hct, ← hdu, (List.cons.inj h).1]
  rw [textOf_cons, textOf_cons] at h
  cases t with
  | name a =>
    cases u with
    | name b =>
      obtain ⟨rfl, hrest⟩ := Token.name_append_inj hts.head hus.head hts.stops_of_name
        hus.stops_of_name h
      exact ⟨rfl, hrest⟩
    | new => exact absurd h (Token.name_append_ne_new hts.head hts.stops_of_name)
    | _ => cases hkind
  | new =>
    cases u with
    | name b => exact absurd h.symm (Token.name_append_ne_new hus.head hus.stops_of_name)
    | new => exact ⟨rfl, List.append_cancel_left h⟩
    | _ => cases hkind
  | quoted quote content =>
    cases u with
    | quoted quote' content' =>
      obtain ⟨rfl, rfl, hrest⟩ := Token.quoted_append_inj hts.head h
      exact ⟨rfl, hrest⟩
    | _ => cases hkind
  | opening =>
    cases u with
    | opening => exact ⟨rfl, List.append_cancel_left h⟩
    | _ => cases hkind
  | closing =>
    cases u with
    | closing => exact ⟨rfl, List.append_cancel_left h⟩
    | casting => exact absurd (List.cons.inj h).2 (hts.closing_ne_casting hus)
    | _ => cases hkind
  | casting =>
    cases u with
    | closing => exact absurd (List.cons.inj h).2.symm (hus.closing_ne_casting hts)
    | casting => exact ⟨rfl, List.append_cancel_left h⟩
    | _ => cases hkind
  | op o =>
    cases u with
    | op o' =>
      obtain ⟨rfl, hrest⟩ := Token.oper_append_inj hts.head hus.head h
      exact ⟨rfl, hrest⟩
    | _ => cases hkind

/-- The pieces can be read off their text. -/
theorem textOf_inj {ts : List Token} : ∀ {us : List Token}, Written ts → Written us →
    textOf ts = textOf us → ts = us := by
  induction ts with
  | nil =>
    intro us _ hus h
    cases us with
    | nil => rfl
    | cons u us =>
      obtain ⟨c, cs, hc, -⟩ := hus.exists_textOf
      rw [hc] at h
      cases h
  | cons t ts ih =>
    intro us hts hus h
    cases us with
    | nil =>
      obtain ⟨c, cs, hc, -⟩ := hts.exists_textOf
      rw [hc] at h
      cases h
    | cons u us =>
      obtain ⟨rfl, hrest⟩ := cons_inj hts hus h
      rw [ih hts.tail hus.tail hrest]

end Written

end VersionWeave
