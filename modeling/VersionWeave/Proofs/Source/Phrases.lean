import VersionWeave.Proofs.Source.Unambiguous

namespace VersionWeave

/-- Each run of blanks becomes one blank, or nothing where a blank stands before it already. -/
def squeeze : Bool → List Char → List Char
  | _, [] => []
  | afterBlank, c :: rest =>
    if c.isWhitespace then
      if afterBlank then squeeze true rest else ' ' :: squeeze true rest
    else c :: squeeze false rest

/-- A text with each run of blanks in it collapsed to one. -/
def collapse (text : String) : List Char :=
  squeeze false text.toList

theorem squeeze_of_not_blank {c : Char} (h : c.isWhitespace = false) (afterBlank : Bool)
    (rest : List Char) : squeeze afterBlank (c :: rest) = c :: squeeze false rest := by
  rw [squeeze, if_neg (by simp [h])]

theorem squeeze_blank {c : Char} (h : c.isWhitespace = true) (rest : List Char) :
    squeeze false (c :: rest) = ' ' :: squeeze true rest := by
  rw [squeeze, if_pos h, if_neg Bool.false_ne_true]

theorem squeeze_blanks {xs : List Char} (h : ∀ c ∈ xs, c.isWhitespace = true) (rest : List Char) :
    squeeze true (xs ++ rest) = squeeze true rest := by
  induction xs with
  | nil => rfl
  | cons c xs ih =>
    obtain ⟨hc, hxs⟩ := List.forall_mem_cons.mp h
    rw [List.cons_append, squeeze, if_pos hc, if_pos rfl, ih hxs]

/-- What comes after the parenthesis that closes the outermost of `depth + 1` open ones. -/
def past : Nat → List Char → List Char
  | _, [] => []
  | depth, '(' :: rest => past (depth + 1) rest
  | 0, ')' :: rest => rest
  | depth + 1, ')' :: rest => past depth rest
  | depth, _ :: rest => past depth rest

/-- Neither a blank nor a parenthesis nor the end of a statement. -/
def isSolid (c : Char) : Bool :=
  !c.isWhitespace && c != '(' && c != ')' && c != ';'

theorem isSolid_iff {c : Char} : isSolid c = true ↔
    c.isWhitespace = false ∧ c ≠ '(' ∧ c ≠ ')' ∧ c ≠ ';' := by
  simp [isSolid, and_assoc]

theorem isSolid_of_isWordChar {c : Char} (h : Token.isWordChar c = true) : isSolid c = true := by
  refine isSolid_iff.mpr ⟨Bool.eq_false_iff.mpr fun hblank => ?_, ?_, ?_, ?_⟩
  · have hcases : ((c = ' ' ∨ c = '\t') ∨ c = '\r') ∨ c = '\n' := by
      simpa [Char.isWhitespace] using hblank
    rcases hcases with ((rfl | rfl) | rfl) | rfl <;> cases h
  all_goals
    rintro rfl
    cases h

theorem squeeze_solid {xs : List Char} (h : ∀ c ∈ xs, isSolid c = true) (rest : List Char) :
    squeeze false (xs ++ rest) = xs ++ squeeze false rest := by
  induction xs with
  | nil => rfl
  | cons c xs ih =>
    obtain ⟨hc, hxs⟩ := List.forall_mem_cons.mp h
    rw [List.cons_append, squeeze_of_not_blank (isSolid_iff.mp hc).1, ih hxs, List.cons_append]

theorem past_solid {xs : List Char} (h : ∀ c ∈ xs, isSolid c = true) (depth : Nat)
    (rest : List Char) : past depth (xs ++ rest) = past depth rest := by
  induction xs with
  | nil => rfl
  | cons c xs ih =>
    obtain ⟨hc, hxs⟩ := List.forall_mem_cons.mp h
    obtain ⟨-, hopening, hclosing, -⟩ := isSolid_iff.mp hc
    rw [List.cons_append, past, ih hxs]
    · exact fun hc => hopening hc
    · exact fun _ hc => hclosing hc
    · exact fun _ _ hc => hclosing hc

/-- A text that stands as it is when runs of blanks are collapsed, with its own parentheses closed
and no end of a statement in it. -/
structure Phrase (text : String) : Prop where
  tidy : ∀ afterBlank rest,
    squeeze afterBlank (text.toList ++ rest) = text.toList ++ squeeze false rest
  balanced : ∀ depth rest, past depth (text.toList ++ rest) = past depth rest
  unended : ';' ∉ text.toList

namespace Phrase

variable {left right text : String}

theorem of_isSolid (hne : text ≠ "") (h : ∀ c ∈ text.toList, isSolid c = true) : Phrase text where
  tidy afterBlank rest := by
    cases htext : text.toList with
    | nil => exact absurd (String.toList_eq_nil_iff.mp htext) hne
    | cons c cs =>
      rw [htext] at h
      obtain ⟨hc, hcs⟩ := List.forall_mem_cons.mp h
      rw [List.cons_append, squeeze_of_not_blank (isSolid_iff.mp hc).1, squeeze_solid hcs,
        List.cons_append]
  balanced := past_solid h
  unended hmem := (isSolid_iff.mp (h _ hmem)).2.2.2 rfl

/-- A fixed text. -/
theorem solid (text : String) (h : (text != "" && text.toList.all isSolid) = true) :
    Phrase text := by
  obtain ⟨hne, hchars⟩ := Bool.and_eq_true_iff.mp h
  exact of_isSolid (bne_iff_ne.mp hne) (List.all_eq_true.mp hchars)

theorem word (hne : text ≠ "") (h : ∀ c ∈ text.toList, Token.isWordChar c = true) : Phrase text :=
  of_isSolid hne fun c hc => isSolid_of_isWordChar (h c hc)

theorem freeName {name : String} (h : isFreeName name = true) : Phrase name := by
  obtain ⟨⟨c, rest, hname, -⟩, hchars, -⟩ := isFreeName_iff.mp h
  refine word ?_ hchars
  rintro rfl
  cases hname

theorem append (hleft : Phrase left) (hright : Phrase right) : Phrase (left ++ right) where
  tidy afterBlank rest := by
    rw [String.toList_append, List.append_assoc, hleft.tidy, hright.tidy, List.append_assoc]
  balanced depth rest := by
    rw [String.toList_append, List.append_assoc, hleft.balanced, hright.balanced]
  unended := by
    rw [String.toList_append, List.mem_append]
    exact not_or.mpr ⟨hleft.unended, hright.unended⟩

/-- Two texts with a blank between them. -/
theorem blank (hleft : Phrase left) (hright : Phrase right) : Phrase (left ++ " " ++ right) := by
  have hlist : (left ++ " " ++ right).toList = left.toList ++ ' ' :: right.toList := by
    rw [String.toList_append, String.toList_append, List.append_assoc]
    rfl
  constructor
  case tidy =>
    intro afterBlank rest
    rw [hlist, List.append_assoc, hleft.tidy, List.cons_append, squeeze_blank rfl, hright.tidy,
      List.append_assoc, List.cons_append]
  case balanced =>
    intro depth rest
    rw [hlist, List.append_assoc, hleft.balanced, List.cons_append]
    exact hright.balanced depth rest
  case unended =>
    rw [hlist, List.mem_append, List.mem_cons]
    exact not_or.mpr ⟨hleft.unended, not_or.mpr ⟨by decide, hright.unended⟩⟩

/-- Parentheses around a text, or around nothing. -/
theorem group (h : text = "" ∨ Phrase text) : Phrase ("(" ++ text ++ ")") := by
  have hlist : ("(" ++ text ++ ")").toList = '(' :: (text.toList ++ [')']) := by
    rw [String.toList_append, String.toList_append]
    rfl
  constructor
  case tidy =>
    intro afterBlank rest
    rw [hlist, List.cons_append, squeeze_of_not_blank rfl, List.append_assoc]
    rcases h with rfl | h
    · rfl
    · rw [h.tidy, List.singleton_append, squeeze_of_not_blank rfl, List.cons_append,
        List.append_assoc, List.singleton_append]
  case balanced =>
    intro depth rest
    rw [hlist, List.cons_append, past, List.append_assoc]
    rcases h with rfl | h
    · rfl
    · exact h.balanced (depth + 1) _
  case unended =>
    rw [hlist, List.mem_cons, List.mem_append, List.mem_singleton]
    rintro (hmem | hmem | hmem)
    · cases hmem
    · rcases h with rfl | h
      · cases hmem
      · exact h.unended hmem
    · cases hmem

theorem parenthesize (h : Phrase text) (least level : Nat) :
    Phrase (parenthesize least level text) := by
  unfold VersionWeave.parenthesize
  split
  next => exact group (.inr h)
  next => exact h

theorem commas {item : String} {rest : List String} (h : ∀ x ∈ item :: rest, Phrase x) :
    Phrase (commas (item :: rest)) := by
  unfold VersionWeave.commas
  induction rest generalizing item with
  | nil =>
    rw [String.intercalate_singleton]
    exact h item List.mem_cons_self
  | cons x rest ih =>
    obtain ⟨hitem, hrest⟩ := List.forall_mem_cons.mp h
    have hcomma : item ++ "," ++ " " = item ++ ", " := String.append_assoc
    rw [String.intercalate_cons_cons, ← hcomma]
    exact (hitem.append (.solid "," rfl)).blank (ih hrest)

/-- Arguments in parentheses. -/
theorem applied {args : List String} (hleft : Phrase left) (h : ∀ x ∈ args, Phrase x) :
    Phrase (left ++ "(" ++ VersionWeave.commas args ++ ")") := by
  have hargs : VersionWeave.commas args = "" ∨ Phrase (VersionWeave.commas args) := by
    cases args with
    | nil => exact .inl rfl
    | cons item rest => exact .inr (commas h)
  have hgroup := hleft.append (group hargs)
  rwa [← String.append_assoc, ← String.append_assoc] at hgroup

/-- A symbol with blanks around it, between operands. -/
theorem joined {symbol : String} (hleft : Phrase left) (hsymbol : Phrase symbol)
    (hright : Phrase right) : Phrase (left ++ " " ++ symbol ++ " " ++ right) :=
  (hleft.blank hsymbol).blank hright

end Phrase

namespace TypeRef

theorem phrase_brackets {text : String} (h : Phrase text) (n : Nat) :
    Phrase (text ++ String.join (List.replicate n "[]")) := by
  cases n with
  | zero => rwa [List.replicate_zero, String.join_nil, String.append_empty]
  | succ n =>
    refine h.append (.of_isSolid ?_ fun c hc => ?_)
    · intro hempty
      have hlist := congrArg String.toList hempty
      rw [String.toList_join, List.replicate_succ, List.flatMap_cons] at hlist
      cases hlist
    · rw [String.toList_join] at hc
      obtain ⟨pair, hpair, hc⟩ := List.mem_flatMap.mp hc
      rw [List.eq_of_mem_replicate hpair] at hc
      exact List.all_eq_true.mp rfl c hc

mutual

theorem phrase_source : ∀ {t : TypeRef}, t.isPlain = true → Phrase t.source
  | ⟨name, args, dims⟩, h => by
    obtain ⟨hname, hargs⟩ := Bool.and_eq_true_iff.mp h
    have hargs := phrase_sources hargs
    rw [source]
    refine phrase_brackets ?_ _
    cases args with
    | nil => exact (String.append_empty).symm ▸ Phrase.freeName hname
    | cons t rest =>
      exact (Phrase.freeName hname).append (((Phrase.solid "<" rfl).append
        (.commas hargs)).append (.solid ">" rfl))

theorem phrase_sources : ∀ {ts : List TypeRef}, (allNames ts).all isFreeName = true →
    ∀ x ∈ sources ts, Phrase x
  | [], _ => fun _ hx => absurd hx List.not_mem_nil
  | t :: rest, h => by
    rw [allNames, List.all_append] at h
    obtain ⟨ht, hrest⟩ := Bool.and_eq_true_iff.mp h
    exact List.forall_mem_cons.mpr ⟨phrase_source ht, phrase_sources hrest⟩

end

end TypeRef

namespace Expr

mutual

/-- No character and no string literal in an expression. -/
def isUnquoted : Expr → Bool
  | .literal (.char _) | .literal (.str _) => false
  | .literal _ | .ident _ | .this => true
  | .field receiver _ => receiver.isUnquoted
  | .call receiver _ args => optionIsUnquoted receiver && allUnquoted args
  | .create _ args => allUnquoted args
  | .assign target _ value => target.isUnquoted && value.isUnquoted
  | .binary _ lhs rhs => lhs.isUnquoted && rhs.isUnquoted
  | .unary _ operand | .cast _ operand => operand.isUnquoted

def optionIsUnquoted : Option Expr → Bool
  | none => true
  | some e => e.isUnquoted

def allUnquoted : List Expr → Bool
  | [] => true
  | e :: rest => e.isUnquoted && allUnquoted rest

end

theorem phrase_literal {l : Literal} (h : l.isPlain = true)
    (hquoted : (literal l).isUnquoted = true) : Phrase l.source := by
  have hnumber (hl : (∃ i, l = .int i) ∨ ∃ i, l = .long i) : Phrase l.source := by
    obtain ⟨⟨c, cs, hc, -⟩, hword⟩ := Literal.exists_number h hl
    refine .word (fun hempty => ?_) hword
    rw [hempty] at hc
    cases hc
  cases l with
  | int i => exact hnumber (.inl ⟨i, rfl⟩)
  | long i => exact hnumber (.inr ⟨i, rfl⟩)
  | bool b => cases b <;> exact .solid _ rfl
  | null => exact .solid _ rfl
  | float _ => cases h
  | double _ => cases h
  | char _ => cases hquoted
  | str _ => cases hquoted

theorem phrase_symbol (op : BinaryOp) : Phrase op.symbol := by
  cases op <;> exact .solid _ rfl

theorem phrase_assignSymbol (op : AssignOp) : Phrase op.symbol := by
  cases op <;> exact .solid _ rfl

theorem phrase_unarySymbol (op : UnaryOp) : Phrase op.symbol := by
  cases op <;> exact .solid _ rfl

mutual

/-- The text of a plain expression without quoted literals. -/
theorem phrase_sourceAt : ∀ {e : Expr}, e.isPlain = true → e.isUnquoted = true → ∀ least,
    Phrase (e.sourceAt least)
  | .literal l, h, hquoted, least => (phrase_literal h hquoted).parenthesize _ _
  | .ident n, h, _, least => (Phrase.freeName h).parenthesize _ _
  | .this, _, _, least => (Phrase.solid "this" rfl).parenthesize _ _
  | .field receiver name, h, hquoted, least => by
    obtain ⟨hreceiver, hname⟩ := Bool.and_eq_true_iff.mp h
    exact (((phrase_sourceAt hreceiver hquoted _).append (.solid "." rfl)).append
      (.freeName hname)).parenthesize _ _
  | .call receiver name args, h, hquoted, least => by
    obtain ⟨h, hargs⟩ := Bool.and_eq_true_iff.mp h
    obtain ⟨hreceiver, hname⟩ := Bool.and_eq_true_iff.mp h
    obtain ⟨hreceiver', hargs'⟩ := Bool.and_eq_true_iff.mp hquoted
    exact ((phrase_receiver hreceiver hreceiver' (.freeName hname)).applied
      (phrase_sources hargs hargs')).parenthesize _ _
  | .create ty args, h, hquoted, least => by
    obtain ⟨hty, hargs⟩ := Bool.and_eq_true_iff.mp h
    have hnew : Phrase ("new" ++ " " ++ ty.source) :=
      (Phrase.solid "new" rfl).blank (TypeRef.phrase_source hty)
    exact (hnew.applied (phrase_sources hargs hquoted)).parenthesize _ _
  | .assign target op value, h, hquoted, least => by
    obtain ⟨htarget, hvalue⟩ := Bool.and_eq_true_iff.mp h
    obtain ⟨htarget', hvalue'⟩ := Bool.and_eq_true_iff.mp hquoted
    exact ((phrase_sourceAt htarget htarget' _).joined (phrase_assignSymbol op)
      (phrase_sourceAt hvalue hvalue' _)).parenthesize _ _
  | .binary op lhs rhs, h, hquoted, least => by
    obtain ⟨hlhs, hrhs⟩ := Bool.and_eq_true_iff.mp h
    obtain ⟨hlhs', hrhs'⟩ := Bool.and_eq_true_iff.mp hquoted
    exact ((phrase_sourceAt hlhs hlhs' _).joined (phrase_symbol op)
      (phrase_sourceAt hrhs hrhs' _)).parenthesize _ _
  | .unary op operand, h, hquoted, least => by
    obtain ⟨-, hoperand⟩ := Bool.and_eq_true_iff.mp h
    refine Phrase.parenthesize ?_ _ _
    split
    next => exact (phrase_sourceAt hoperand hquoted _).append (phrase_unarySymbol op)
    next => exact (phrase_unarySymbol op).append (phrase_sourceAt hoperand hquoted _)
  | .cast ty operand, h, hquoted, least => by
    obtain ⟨hty, hoperand⟩ := Bool.and_eq_true_iff.mp h
    have hcast : "(" ++ ty.source ++ ")" ++ " " = "(" ++ ty.source ++ ") " := String.append_assoc
    refine Phrase.parenthesize ?_ _ _
    rw [← hcast]
    exact (Phrase.group (.inr (TypeRef.phrase_source hty))).blank
      (phrase_sourceAt hoperand hquoted _)

theorem phrase_receiver : ∀ {receiver : Option Expr}, optionIsPlain receiver = true →
    optionIsUnquoted receiver = true → ∀ {text : String}, Phrase text →
      Phrase (receiverSource receiver ++ text)
  | none, _, _, _, htext => by rwa [receiverSource, String.empty_append]
  | some e, h, hquoted, _, htext =>
    ((phrase_sourceAt h hquoted _).append (.solid "." rfl)).append htext

theorem phrase_sources : ∀ {args : List Expr}, allPlain args = true → allUnquoted args = true →
    ∀ x ∈ sources args, Phrase x
  | [], _, _ => fun _ hx => absurd hx List.not_mem_nil
  | e :: rest, h, hquoted => by
    obtain ⟨he, hrest⟩ := Bool.and_eq_true_iff.mp h
    obtain ⟨he', hrest'⟩ := Bool.and_eq_true_iff.mp hquoted
    exact List.forall_mem_cons.mpr ⟨phrase_sourceAt he he' _, phrase_sources hrest hrest'⟩

end

end Expr

end VersionWeave
