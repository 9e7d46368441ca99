import VersionWeave.Proofs.Json.Scalars
import VersionWeave.Proofs.Source.Tokens

namespace VersionWeave

/-- Parentheses around pieces that bind looser than their place asks for. -/
def enclose (least level : Nat) (ts : List Token) : List Token :=
  if level < least then .opening :: (ts ++ [.closing]) else ts

def Token.word (name : String) : Token := .name (.plain name)

@[simp] theorem Token.text_word (name : String) : (word name).text = name.toList := by
  rw [word, text, TypeRef.plain, TypeRef.toList_source]
  simp [TypeRef.argsText, brackets]

def Literal.token : Literal → Token
  | .char c => .quoted '\'' [c]
  | .str s => .quoted '"' s.toList
  | l => .word l.source

namespace Expr

mutual

/-- The pieces of the text of an expression, without parentheses around all of it. -/
def pieces : Expr → List Token
  | .literal l => [l.token]
  | .ident n => [.word n]
  | .this => [.word "this"]
  | .field receiver name =>
    enclose primaryLevel receiver.level receiver.pieces ++ [.op .member, .word name]
  | .call receiver name args =>
    receiverPieces receiver
      ++ (.word name :: .opening :: ([.op .comma].intercalate (allPieces args) ++ [.closing]))
  | .create ty args =>
    .new :: .name ty :: .opening :: ([.op .comma].intercalate (allPieces args) ++ [.closing])
  | .assign target op value =>
    enclose primaryLevel target.level target.pieces
      ++ (.op (.assign op) :: enclose assignLevel value.level value.pieces)
  | .binary op lhs rhs =>
    enclose op.precedence lhs.level lhs.pieces
      ++ (.op (.binary op) :: enclose (op.precedence + 1) rhs.level rhs.pieces)
  | .unary op operand =>
    if op.isPostfix then
      enclose primaryLevel operand.level operand.pieces ++ [.op (.unary op)]
    else .op (.unary op) :: enclose unaryLevel operand.level operand.pieces
  | .cast ty operand =>
    .opening :: .name ty :: .casting :: enclose unaryLevel operand.level operand.pieces

def receiverPieces : Option Expr → List Token
  | none => []
  | some e => enclose primaryLevel e.level e.pieces ++ [.op .member]

def allPieces : List Expr → List (List Token)
  | [] => []
  | e :: rest => e.pieces :: allPieces rest

end

def argPieces (args : List Expr) : List Token :=
  [.op .comma].intercalate (allPieces args)

/-- The pieces of an expression in a place that asks for a form binding as tightly as `least`. -/
def piecesAt (least : Nat) (e : Expr) : List Token :=
  enclose least e.level e.pieces

section

variable (receiver operand target value lhs rhs e : Expr) (name : String) (args rest : List Expr)
  (ty : TypeRef)

theorem pieces_field : (field receiver name).pieces =
    receiver.piecesAt primaryLevel ++ [.op .member, .word name] := rfl

theorem pieces_call (receiver : Option Expr) : (call receiver name args).pieces =
    receiverPieces receiver ++ (.word name :: .opening :: (argPieces args ++ [.closing])) := rfl

theorem pieces_create : (create ty args).pieces =
    .new :: .name ty :: .opening :: (argPieces args ++ [.closing]) := rfl

theorem pieces_assign (op : AssignOp) : (assign target op value).pieces =
    target.piecesAt primaryLevel ++ (.op (.assign op) :: value.piecesAt assignLevel) := rfl

theorem pieces_binary (op : BinaryOp) : (binary op lhs rhs).pieces =
    lhs.piecesAt op.precedence ++ (.op (.binary op) :: rhs.piecesAt (op.precedence + 1)) := rfl

theorem pieces_trailing {op : UnaryOp} (h : op.isPostfix = true) : (unary op operand).pieces =
    operand.piecesAt primaryLevel ++ [.op (.unary op)] := by
  rw [pieces, if_pos h, piecesAt]

theorem pieces_leading {op : UnaryOp} (h : op.isPostfix = false) : (unary op operand).pieces =
    .op (.unary op) :: operand.piecesAt unaryLevel := by
  rw [pieces, if_neg (by simp [h]), piecesAt]

theorem pieces_cast : (cast ty operand).pieces =
    .opening :: .name ty :: .casting :: operand.piecesAt unaryLevel := rfl

theorem receiverPieces_some : receiverPieces (some receiver) =
    receiver.piecesAt primaryLevel ++ [.op .member] := rfl

theorem argPieces_singleton : argPieces [e] = e.pieces := List.intercalate_singleton

theorem argPieces_cons_cons (e' : Expr) : argPieces (e :: e' :: rest) =
    e.pieces ++ .op .comma :: argPieces (e' :: rest) := by
  unfold argPieces
  rw [allPieces, allPieces, List.intercalate_cons_cons, List.append_assoc]
  rfl

end

theorem toList_parenthesize {least level : Nat} {text : String} {ts : List Token}
    (h : text.toList = textOf ts) :
    (parenthesize least level text).toList = textOf (enclose least level ts) := by
  unfold parenthesize enclose
  split
  next =>
    rw [String.toList_append, String.toList_append, h, textOf_cons, textOf_append]
    simp
  next => exact h

theorem toList_literal (l : Literal) : l.source.toList = textOf [l.token] := by
  cases l <;> simp [Literal.token, Literal.source]

theorem textOf_spaced (left right : List Token) {o : Oper} {symbol : String}
    (h : o.text = spaced symbol) : textOf (left ++ .op o :: right) =
      textOf left ++ ([' '] ++ (symbol.toList ++ ([' '] ++ textOf right))) := by
  simp [h, spaced]

mutual

/-- An expression is written piece by piece. -/
theorem toList_sourceAt : ∀ (e : Expr) (least : Nat),
    (e.sourceAt least).toList = textOf (e.piecesAt least)
  | .literal l, least => toList_parenthesize (toList_literal l)
  | .ident n, least => toList_parenthesize (by simp [pieces])
  | .this, least => toList_parenthesize (by simp [pieces])
  | .field receiver name, least => by
    refine toList_parenthesize ?_
    rw [pieces_field, textOf_append, String.toList_append, String.toList_append,
      toList_sourceAt receiver]
    simp [Oper.text]
  | .call receiver name args, least => by
    refine toList_parenthesize ?_
    rw [pieces_call, textOf_append]
    simp only [String.toList_append, toList_receiverSource receiver, toList_sources args]
    simp
  | .create ty args, least => by
    refine toList_parenthesize ?_
    rw [pieces_create]
    simp only [String.toList_append, toList_sources args]
    simp
  | .assign target op value, least => by
    refine toList_parenthesize ?_
    rw [pieces_assign, textOf_spaced _ _ rfl]
    simp only [String.toList_append, toList_sourceAt target, toList_sourceAt value,
      List.append_assoc]
    rfl
  | .binary op lhs rhs, least => by
    refine toList_parenthesize ?_
    rw [pieces_binary, textOf_spaced _ _ rfl]
    simp only [String.toList_append, toList_sourceAt lhs, toList_sourceAt rhs, List.append_assoc]
    rfl
  | .unary op operand, least => by
    refine toList_parenthesize ?_
    cases hop : op.isPostfix with
    | true =>
      rw [if_pos rfl, pieces_trailing operand hop, String.toList_append, toList_sourceAt operand]
      simp [Oper.text]
    | false =>
      rw [if_neg Bool.false_ne_true, pieces_leading operand hop, String.toList_append,
        toList_sourceAt operand]
      rfl
  | .cast ty operand, least => by
    refine toList_parenthesize ?_
    rw [pieces_cast]
    simp only [String.toList_append, toList_sourceAt operand, List.append_assoc]
    rfl

theorem toList_receiverSource : ∀ receiver : Option Expr,
    (receiverSource receiver).toList = textOf (receiverPieces receiver)
  | none => rfl
  | some e => by
    rw [receiverSource, receiverPieces_some, String.toList_append, toList_sourceAt e, textOf_append]
    rfl

theorem toList_sources : ∀ args : List Expr,
    (commas (sources args)).toList = textOf (argPieces args)
  | [] => rfl
  | [e] => by
    rw [sources, sources, commas, String.intercalate_singleton, toList_sourceAt e,
      argPieces_singleton]
    rfl
  | e :: e' :: rest => by
    have hrest := toList_sources (e' :: rest)
    rw [sources, commas] at hrest
    rw [sources, sources, commas, String.intercalate_cons_cons, argPieces_cons_cons,
      String.toList_append, String.toList_append, textOf_append, textOf_cons, toList_sourceAt e,
      hrest, List.append_assoc]
    rfl

end

end Expr

/-- The words that expressions are written with. -/
def reservedWords : List String := ["this", "new", "true", "false", "null"]

/-- A letter, an underscore or a dollar sign, followed by any number of these and of digits. -/
def isAsciiIdentifier (name : String) : Bool :=
  match name.toList with
  | [] => false
  | c :: rest => !c.isDigit && (c :: rest).all Token.isWordChar

def isFreeName (name : String) : Bool :=
  isAsciiIdentifier name && !reservedWords.contains name

def TypeRef.isPlain (t : TypeRef) : Bool :=
  t.names.all isFreeName

/-- Floating-point literals are left out, and numbers have no sign. -/
def Literal.isPlain : Literal → Bool
  | .int i | .long i => 0 ≤ i.toInt
  | .float _ | .double _ => false
  | _ => true

def UnaryOp.isPlain : UnaryOp → Bool
  | .not | .postInc | .postDec => true
  | _ => false

mutual

/-- An expression whose names are identifiers that no literal and no word can be taken for. -/
def Expr.isPlain : Expr → Bool
  | .literal l => l.isPlain
  | .ident n => isFreeName n
  | .this => true
  | .field receiver name => receiver.isPlain && isFreeName name
  | .call receiver name args => Expr.optionIsPlain receiver && isFreeName name && Expr.allPlain args
  | .create ty args => ty.isPlain && Expr.allPlain args
  | .assign target _ value => target.isPlain && value.isPlain
  | .binary _ lhs rhs => lhs.isPlain && rhs.isPlain
  | .unary op operand => op.isPlain && operand.isPlain
  | .cast ty operand => ty.isPlain && operand.isPlain

def Expr.optionIsPlain : Option Expr → Bool
  | none => true
  | some e => e.isPlain

def Expr.allPlain : List Expr → Bool
  | [] => true
  | e :: rest => e.isPlain && Expr.allPlain rest

end

theorem isFreeName_iff {name : String} : isFreeName name = true ↔
    (∃ c rest, name.toList = c :: rest ∧ c.isDigit = false) ∧
      (∀ c ∈ name.toList, Token.isWordChar c = true) ∧ name ∉ reservedWords := by
  unfold isFreeName isAsciiIdentifier
  cases hname : name.toList with
  | nil => simp
  | cons c rest => simp [and_assoc]

/-- Pieces that make up an operand: they can be told apart, and an operator can follow. -/
structure Operand (ts : List Token) : Prop where
  written : Written ts
  first : ∃ t ∈ ts.head?, t.starts = true
  last : ∀ t ∈ ts.getLast?, ∀ u : Token, u.starts = false → t.Precedes u

theorem Written.append {xs ys : List Token} (hxs : Written xs) (hys : Written ys)
    (h : ∀ x ∈ xs.getLast?, ∀ y ∈ ys.head?, x.Precedes y) : Written (xs ++ ys) where
  legible t ht := (List.mem_append.mp ht).elim (hxs.legible t) (hys.legible t)
  chain := List.isChain_append.mpr ⟨hxs.chain, hys.chain, h⟩

theorem Written.cons {t : Token} {ts : List Token} (ht : t.Legible) (hts : Written ts)
    (h : ∀ u ∈ ts.head?, t.Precedes u) : Written (t :: ts) where
  legible := List.forall_mem_cons.mpr ⟨ht, hts.legible⟩
  chain := List.isChain_cons.mpr ⟨h, hts.chain⟩

theorem Written.singleton {t : Token} (ht : t.Legible) : Written [t] where
  legible := by simpa using ht
  chain := List.isChain_singleton _

namespace Operand

variable {xs ys : List Token}

theorem ne_nil (h : Operand xs) : xs ≠ [] := by
  rintro rfl
  obtain ⟨t, ht, -⟩ := h.first
  cases ht

theorem singleton {t : Token} (ht : t.Legible) (hstarts : t.starts = true)
    (hends : ∀ u : Token, u.starts = false → t.Precedes u) : Operand [t] where
  written := .singleton ht
  first := ⟨t, rfl, hstarts⟩
  last u hu := by
    cases Option.some.inj hu
    exact hends

theorem followed {o : Oper} (hxs : Operand xs) (ho : (Token.op o).Legible)
    (hstarts : (Token.op o).starts = false) (hnext : ∀ t, (Token.op o).Precedes t) :
    Operand (xs ++ [.op o]) where
  written := by
    refine hxs.written.append (.singleton ho) fun x hx y hy => ?_
    cases Option.some.inj hy
    exact hxs.last x hx _ hstarts
  first := by
    obtain ⟨t, ht, hfirst⟩ := hxs.first
    exact ⟨t, by rw [List.head?_append, ht]; rfl, hfirst⟩
  last t ht := by
    rw [List.getLast?_concat] at ht
    cases Option.some.inj ht
    exact fun u _ => hnext u

/-- What stands in parentheses, after a name or alone, is an operand. -/
theorem group (front : List Token) (hfront : Written (front ++ [.opening]))
    (hfirst : ∃ t ∈ (front ++ [Token.opening]).head?, t.starts = true) (hys : ys = [] ∨ Operand ys) :
    Operand (front ++ [.opening] ++ (ys ++ [.closing])) where
  written := by
    refine hfront.append ?_ fun x hx y _ => ?_
    · rcases hys with rfl | hys
      · exact .singleton trivial
      · refine hys.written.append (.singleton trivial) fun x hx y hy => ?_
        cases Option.some.inj hy
        exact hys.last x hx _ rfl
    · rw [List.getLast?_concat] at hx
      cases Option.some.inj hx
      trivial
  first := by
    obtain ⟨t, ht, hstarts⟩ := hfirst
    exact ⟨t, by rw [List.head?_append, ht]; rfl, hstarts⟩
  last t ht := by
    rw [← List.append_assoc, List.getLast?_concat] at ht
    cases Option.some.inj ht
    exact fun u hu => hu

theorem enclosed (h : Operand xs) (least level : Nat) : Operand (enclose least level xs) := by
  unfold enclose
  split
  next =>
    exact group [] (.singleton trivial) ⟨_, rfl, rfl⟩ (.inr h)
  next => exact h

/-- Before an operand there may be what asks for one. -/
theorem preceded {t : Token} (h : Operand xs) (front : List Token)
    (hfront : Written (front ++ [t])) (hfirst : ∃ u ∈ (front ++ [t]).head?, u.starts = true)
    (ht : ∀ u : Token, u.starts = true → t.Precedes u) : Operand (front ++ [t] ++ xs) where
  written := by
    refine hfront.append h.written fun x hx y hy => ?_
    rw [List.getLast?_concat] at hx
    cases Option.some.inj hx
    obtain ⟨z, hz, hstarts⟩ := h.first
    cases hz.symm.trans hy
    exact ht _ hstarts
  first := by
    obtain ⟨u, hu, hstarts⟩ := hfirst
    exact ⟨u, by rw [List.head?_append, hu]; rfl, hstarts⟩
  last u hu := by
    rw [List.getLast?_append_of_ne_nil _ h.ne_nil] at hu
    exact h.last u hu

/-- Two operands with an operator between them are an operand. -/
theorem joined {o : Oper} (hxs : Operand xs) (hys : Operand ys) (ho : (Token.op o).Legible)
    (hstarts : (Token.op o).starts = false) (hnext : ∀ t, (Token.op o).Precedes t) :
    Operand (xs ++ .op o :: ys) := by
  have hfront := hxs.followed ho hstarts hnext
  rw [← List.singleton_append, ← List.append_assoc]
  exact hys.preceded xs hfront.written hfront.first fun t _ => hnext t

end Operand

namespace Token

theorem legible_name {ty : TypeRef} (h : ty.isPlain = true) : (name ty).Legible := by
  have hfree : ∀ n ∈ ty.names, isFreeName n = true := List.all_eq_true.mp h
  obtain ⟨n, args, dims⟩ := ty
  refine ⟨fun m hm => (isFreeName_iff.mp (hfree m hm)).2.1, ?_, ?_⟩
  · obtain ⟨⟨c, rest, hn, -⟩, -⟩ := isFreeName_iff.mp (hfree n List.mem_cons_self)
    rintro rfl
    cases hn
  · rintro rfl
    exact (isFreeName_iff.mp (hfree _ List.mem_cons_self)).2.2 (by decide)

theorem legible_word {n : String} (hn : n ≠ "") (hword : n.toList.all isWordChar = true)
    (hnew : n ≠ "new") : (word n).Legible := by
  refine ⟨fun m hm => ?_, hn, hnew⟩
  rw [List.mem_singleton.mp hm]
  exact List.all_eq_true.mp hword

theorem legible_free {n : String} (h : isFreeName n = true) : (word n).Legible :=
  legible_name (by simpa [TypeRef.isPlain, TypeRef.plain, TypeRef.names, TypeRef.allNames] using h)

end Token

namespace Operand

theorem word {n : String} (h : (Token.word n).Legible) : Operand [.word n] :=
  .singleton h rfl fun _ => .inl

/-- A name with arguments in parentheses, or a creation with its type. -/
theorem applied {front ys : List Token} {ty : TypeRef} (hty : (Token.name ty).Legible)
    (hfront : front = [] ∨ front = [.new]) (hys : ys = [] ∨ Operand ys) :
    Operand (front ++ .name ty :: .opening :: (ys ++ [.closing])) := by
  have hname : Written [.name ty, .opening] :=
    .cons hty (.singleton trivial) fun u hu => .inr (Option.some.inj hu).symm
  rcases hfront with rfl | rfl
  · exact group [.name ty] hname ⟨_, rfl, rfl⟩ hys
  · exact group [.new, .name ty] (.cons trivial hname fun _ _ => trivial) ⟨_, rfl, rfl⟩ hys

end Operand

namespace Literal

theorem isWordChar_toDigits {n : Nat} {c : Char} (h : c ∈ Nat.toDigits 10 n) :
    Token.isWordChar c = true := by
  simp [Token.isWordChar, Char.isAlphanum, Json.isDigit_of_mem_toDigits h]

/-- The digits of a number without a sign. -/
theorem toList_repr {i : Int64} (h : 0 ≤ i.toInt) :
    i.toInt.repr.toList = Nat.toDigits 10 i.toInt.toNat := by
  obtain ⟨n, hn⟩ := Int.eq_ofNat_of_zero_le h
  rw [hn, Int.toNat_natCast, ← Nat.toList_repr]
  rfl

/-- The text of a number starts with a digit and is a word. -/
theorem exists_number {l : Literal} (h : l.isPlain = true)
    (hl : (∃ i, l = .int i) ∨ ∃ i, l = .long i) :
    (∃ c cs, l.source.toList = c :: cs ∧ c.isDigit = true) ∧
      ∀ c ∈ l.source.toList, Token.isWordChar c = true := by
  rcases hl with ⟨i, rfl⟩ | ⟨i, rfl⟩
  · have hi := toList_repr (of_decide_eq_true h)
    obtain ⟨c, digits, hd, hc⟩ := Json.exists_toDigits i.toInt.toNat
    rw [source, hi]
    exact ⟨⟨c, digits, hd, hc⟩, fun c => isWordChar_toDigits⟩
  · have hi := toList_repr (of_decide_eq_true h)
    obtain ⟨c, digits, hd, hc⟩ := Json.exists_toDigits i.toInt.toNat
    rw [source, String.toList_append, hi]
    refine ⟨⟨c, digits ++ "L".toList, by rw [hd]; rfl, hc⟩, fun c hmem => ?_⟩
    rcases List.mem_append.mp hmem with hmem | hmem
    · exact isWordChar_toDigits hmem
    · cases List.mem_singleton.mp hmem
      decide

theorem legible_number {l : Literal} (h : l.isPlain = true)
    (hl : (∃ i, l = .int i) ∨ ∃ i, l = .long i) : (Token.word l.source).Legible := by
  obtain ⟨⟨c, cs, hc, hdigit⟩, hword⟩ := exists_number h hl
  refine Token.legible_word ?_ (List.all_eq_true.mpr hword) ?_
  · intro hempty
    rw [hempty] at hc
    cases hc
  · intro hnew
    rw [hnew] at hc
    cases (List.cons.inj hc).1
    cases hdigit

theorem operand_token {l : Literal} (h : l.isPlain = true) : Operand [l.token] := by
  cases l with
  | char c => exact .singleton (.inr rfl) rfl fun _ _ => trivial
  | str s => exact .singleton (.inl rfl) rfl fun _ _ => trivial
  | int i => exact .word (legible_number h (.inl ⟨i, rfl⟩))
  | long i => exact .word (legible_number h (.inr ⟨i, rfl⟩))
  | bool b => cases b <;> exact .word (Token.legible_word (by decide) rfl (by decide))
  | null => exact .word (Token.legible_word (by decide) rfl (by decide))
  | float _ => cases h
  | double _ => cases h

end Literal

namespace Expr

mutual

/-- The pieces of a plain expression are an operand. -/
theorem operand_pieces : ∀ e : Expr, e.isPlain = true → Operand e.pieces
  | .literal l, h => Literal.operand_token h
  | .ident n, h => .word (Token.legible_free h)
  | .this, _ => .word (Token.legible_word (by decide) rfl (by decide))
  | .field receiver name, h => by
    obtain ⟨hreceiver, hname⟩ := Bool.and_eq_true_iff.mp h
    exact ((operand_pieces receiver hreceiver).enclosed _ _).joined
      (.word (Token.legible_free hname)) trivial rfl fun _ => trivial
  | .call receiver name args, h => by
    obtain ⟨h, hargs⟩ := Bool.and_eq_true_iff.mp h
    obtain ⟨hreceiver, hname⟩ := Bool.and_eq_true_iff.mp h
    have happlied := Operand.applied (Token.legible_free hname) (.inl rfl)
      ((operand_args args hargs).imp_left fun hnone => by rw [hnone]; rfl)
    exact operand_receiver receiver hreceiver happlied
  | .create ty args, h => by
    obtain ⟨hty, hargs⟩ := Bool.and_eq_true_iff.mp h
    exact .applied (Token.legible_name hty) (.inr rfl)
      ((operand_args args hargs).imp_left fun hnone => by rw [hnone]; rfl)
  | .assign target op value, h => by
    obtain ⟨htarget, hvalue⟩ := Bool.and_eq_true_iff.mp h
    exact ((operand_pieces target htarget).enclosed _ _).joined
      ((operand_pieces value hvalue).enclosed _ _) trivial rfl fun _ => trivial
  | .binary op lhs rhs, h => by
    obtain ⟨hlhs, hrhs⟩ := Bool.and_eq_true_iff.mp h
    exact ((operand_pieces lhs hlhs).enclosed _ _).joined
      ((operand_pieces rhs hrhs).enclosed _ _) trivial rfl fun _ => trivial
  | .unary op operand, h => by
    obtain ⟨hop, hoperand⟩ := Bool.and_eq_true_iff.mp h
    have hpieces := operand_pieces operand hoperand
    cases op with
    | not =>
      rw [pieces_leading operand rfl]
      exact (hpieces.enclosed _ _).preceded [] (.singleton (.inl rfl)) ⟨_, rfl, rfl⟩
        fun _ hu => hu
    | postInc =>
      rw [pieces_trailing operand rfl]
      exact (hpieces.enclosed _ _).followed (.inr (.inl rfl)) rfl fun _ => trivial
    | postDec =>
      rw [pieces_trailing operand rfl]
      exact (hpieces.enclosed _ _).followed (.inr (.inr rfl)) rfl fun _ => trivial
    | _ => cases hop
  | .cast ty operand, h => by
    obtain ⟨hty, hoperand⟩ := Bool.and_eq_true_iff.mp h
    have hfront : Written [.opening, .name ty, .casting] :=
      .cons trivial (.cons (Token.legible_name hty) (.singleton trivial) fun u hu => by
        cases Option.some.inj hu
        exact .inl rfl) fun _ _ => trivial
    exact ((operand_pieces operand hoperand).enclosed _ _).preceded [.opening, .name ty] hfront
      ⟨_, rfl, rfl⟩ fun _ hu => hu

theorem operand_receiver : ∀ receiver : Option Expr, optionIsPlain receiver = true →
    ∀ {ts : List Token}, Operand ts → Operand (receiverPieces receiver ++ ts)
  | none, _, _, hts => hts
  | some e, h, ts, hts => by
    rw [receiverPieces_some, List.append_assoc]
    exact ((operand_pieces e h).enclosed _ _).joined hts trivial rfl fun _ => trivial

theorem operand_args : ∀ args : List Expr, allPlain args = true →
    args = [] ∨ Operand (argPieces args)
  | [], _ => .inl rfl
  | e :: rest, h => by
    obtain ⟨he, hrest⟩ := Bool.and_eq_true_iff.mp h
    have hpieces := operand_pieces e he
    have hmore := operand_args rest hrest
    refine .inr ?_
    cases rest with
    | nil =>
      rw [argPieces_singleton]
      exact hpieces
    | cons e' rest =>
      rw [argPieces_cons_cons]
      rcases hmore with hnone | hmore
      · cases hnone
      · exact hpieces.joined hmore trivial rfl fun _ => trivial

end

end Expr

end VersionWeave
