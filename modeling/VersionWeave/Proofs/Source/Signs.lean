import VersionWeave.Proofs.Source.Unambiguous
import VersionWeave.Text.Identifier

namespace VersionWeave

namespace Expr

/-- A name or a number without a sign. -/
def isUnsigned : Expr → Bool
  | .ident n => Text.isIdentifier n
  | .literal (.int i) | .literal (.long i) => 0 ≤ i.toInt
  | _ => false

/-- A name or a number without a sign of its own, behind any number of leading operators. -/
def isSigned : Expr → Bool
  | .unary op operand => !op.isPostfix && operand.isSigned
  | e => e.isUnsigned

/-- What stands behind the leading operators. -/
def core : Expr → Expr
  | .unary _ operand => operand.core
  | e => e

/-- The leading operators as they are read sign by sign: a decrement is two negations. -/
def signs : Expr → List UnaryOp
  | .unary .preDec operand => .neg :: .neg :: operand.signs
  | .unary op operand => op :: operand.signs
  | _ => []

/-- Whether an operator and the one behind it make a minus sign too many. -/
def glues : UnaryOp → Expr → Bool
  | .neg, .unary .neg _ | .neg, .unary .preDec _ | .preDec, .unary .neg _ => true
  | _, _ => false

/-- No negation stands next to another negation or to a decrement. -/
def isApart : Expr → Bool
  | .unary op operand => !glues op operand && operand.isApart
  | _ => true

end Expr

namespace Text

theorem lt_of_isAlphabetic {c : Char} (h : isAlphabetic c = true) : '9'.toNat < c.toNat := by
  unfold isAlphabetic at h
  split at h
  next =>
    rcases Bool.or_eq_true_iff.mp h with hupper | hlower
    · have hfirst : 'A'.val ≤ c.val := (of_decide_eq_true hupper).1
      exact Nat.lt_of_lt_of_le (by decide) (UInt32.le_iff_toNat_le.mp hfirst)
    · have hfirst : 'a'.val ≤ c.val := of_decide_eq_true (Bool.and_eq_true_iff.mp hlower).1
      exact Nat.lt_of_lt_of_le (by decide) (UInt32.le_iff_toNat_le.mp hfirst)
  next hlarge => exact Nat.lt_of_lt_of_le (by decide) (Nat.le_of_not_lt hlarge)

/-- An identifier does not start with a character of a number or of a leading operator. -/
theorem exists_head_of_isIdentifier {name : String} (h : isIdentifier name = true) :
    ∃ c rest, name.toList = c :: rest ∧ c.isDigit = false ∧ c ∉ ['-', '!', '+'] := by
  unfold isIdentifier at h
  cases hname : name.toList with
  | nil => simp [hname] at h
  | cons c rest =>
    rw [hname] at h
    refine ⟨c, rest, rfl, ?_⟩
    obtain ⟨hfirst, -⟩ := Bool.and_eq_true_iff.mp h
    have hcases : isAlphabetic c = true ∨ c = '_' ∨ c = '$' := by simpa [or_assoc] using hfirst
    rcases hcases with halpha | rfl | rfl
    · have hlt := lt_of_isAlphabetic halpha
      constructor
      · simp only [Char.isDigit, Bool.and_eq_false_iff, decide_eq_false_iff_not,
          UInt32.le_iff_toNat_le]
        exact .inr (Nat.not_le_of_lt hlt)
      · intro hmem
        have hsmall : c.toNat ≤ '9'.toNat := by
          rcases List.mem_cons.mp hmem with rfl | hmem
          · decide
          · rcases List.mem_pair.mp hmem with rfl | rfl <;> decide
        exact Nat.not_le_of_lt hlt hsmall
    · decide
    · decide

end Text

namespace UnaryOp

/-- The operators that leading operators are read as. -/
def isSign : UnaryOp → Bool
  | .neg | .not | .preInc => true
  | _ => false

theorem exists_sign {op : UnaryOp} (h : op.isSign = true) :
    ∃ c cs, op.symbol.toList = c :: cs ∧ c ∈ ['-', '!', '+'] := by
  cases op with
  | neg => exact ⟨_, _, rfl, by decide⟩
  | not => exact ⟨_, _, rfl, by decide⟩
  | preInc => exact ⟨_, _, rfl, by decide⟩
  | _ => cases h

theorem eq_of_head_sign : ∀ op op' : UnaryOp, op.isSign = true → op'.isSign = true →
    op.symbol.toList.head? = op'.symbol.toList.head? → op = op' := by
  intro op op'
  cases op <;> cases op' <;> decide

theorem sign_append_inj {op op' : UnaryOp} (h : op.isSign = true) (h' : op'.isSign = true)
    {k l : List Char} (heq : op.symbol.toList ++ k = op'.symbol.toList ++ l) :
    op = op' ∧ k = l := by
  obtain ⟨c, cs, hc, -⟩ := exists_sign h
  obtain ⟨d, ds, hd, -⟩ := exists_sign h'
  have hhead : op.symbol.toList.head? = op'.symbol.toList.head? := by
    rw [hc, hd] at heq ⊢
    exact congrArg some (List.cons.inj heq).1
  cases eq_of_head_sign op op' h h' hhead
  exact ⟨rfl, List.append_cancel_left heq⟩

end UnaryOp

/-- The text of leading operators. -/
def signsText (ops : List UnaryOp) : List Char :=
  ops.flatMap fun op => op.symbol.toList

theorem signsText_cons (op : UnaryOp) (ops : List UnaryOp) :
    signsText (op :: ops) = op.symbol.toList ++ signsText ops := rfl

/-- From the text of signs and of what follows, which starts with none of them, both can be told. -/
theorem signs_append_inj {ops : List UnaryOp} : ∀ {ops' : List UnaryOp} {k l : List Char},
    (∀ op ∈ ops, op.isSign = true) → (∀ op ∈ ops', op.isSign = true) →
    (∀ c ∈ k.head?, c ∉ ['-', '!', '+']) → (∀ c ∈ l.head?, c ∉ ['-', '!', '+']) →
    signsText ops ++ k = signsText ops' ++ l → ops = ops' ∧ k = l := by
  induction ops with
  | nil =>
    intro ops' k l _ hops' hk _ h
    cases ops' with
    | nil => exact ⟨rfl, h⟩
    | cons op' rest =>
      obtain ⟨c, cs, hc, hmark⟩ := UnaryOp.exists_sign (hops' op' List.mem_cons_self)
      have hhead : k.head? = some c := by
        rw [show k = _ from h, signsText_cons, hc]
        rfl
      exact absurd hmark (hk c hhead)
  | cons op rest ih =>
    intro ops' k l hops hops' hk hl h
    obtain ⟨hop, hrest⟩ := List.forall_mem_cons.mp hops
    rw [signsText_cons, List.append_assoc] at h
    cases ops' with
    | nil =>
      obtain ⟨c, cs, hc, hmark⟩ := UnaryOp.exists_sign hop
      have hhead : l.head? = some c := by
        rw [show l = _ from h.symm, hc]
        rfl
      exact absurd hmark (hl c hhead)
    | cons op' rest' =>
      obtain ⟨hop', hrest'⟩ := List.forall_mem_cons.mp hops'
      rw [signsText_cons, List.append_assoc] at h
      obtain ⟨rfl, hmore⟩ := UnaryOp.sign_append_inj hop hop' h
      obtain ⟨rfl, hkl⟩ := ih hrest hrest' hk hl hmore
      exact ⟨rfl, hkl⟩

namespace Expr

theorem isSign_of_mem_signs : ∀ {e : Expr}, e.isSigned = true → ∀ op ∈ e.signs, op.isSign = true
  | .unary op operand, h => by
    obtain ⟨hop, hoperand⟩ := Bool.and_eq_true_iff.mp h
    have ih := isSign_of_mem_signs hoperand
    cases op with
    | neg => exact List.forall_mem_cons.mpr ⟨rfl, ih⟩
    | not => exact List.forall_mem_cons.mpr ⟨rfl, ih⟩
    | preInc => exact List.forall_mem_cons.mpr ⟨rfl, ih⟩
    | preDec => exact List.forall_mem_cons.mpr ⟨rfl, List.forall_mem_cons.mpr ⟨rfl, ih⟩⟩
    | postInc => cases hop
    | postDec => cases hop
  | .ident _, _ => fun _ hop => absurd hop List.not_mem_nil
  | .literal _, _ => fun _ hop => absurd hop List.not_mem_nil

theorem isUnsigned_core : ∀ {e : Expr}, e.isSigned = true → e.core.isUnsigned = true
  | .unary _ operand, h => by
    have ih : operand.core.isUnsigned = true := isUnsigned_core (Bool.and_eq_true_iff.mp h).2
    exact ih
  | .ident _, h => h
  | .literal _, h => h

theorem source_ident (n : String) : (ident n).source = n := rfl

theorem source_literal (l : Literal) : (literal l).source = l.source := rfl

/-- A name or a literal stands without parentheses wherever a leading operator does. -/
theorem parenthesize_primary {least : Nat} (h : least ≤ unaryLevel) (text : String) :
    parenthesize least primaryLevel text = text :=
  if_neg (Nat.not_lt_of_le (Nat.le_trans h (by decide)))

/-- The text is that of the signs and, behind them, of what they are applied to. -/
theorem toList_sourceAt_signed : ∀ {e : Expr}, e.isSigned = true → ∀ {least : Nat},
    least ≤ unaryLevel → (e.sourceAt least).toList = signsText e.signs ++ e.core.source.toList
  | .unary op operand, h, least, hle => by
    obtain ⟨hop, hoperand⟩ := Bool.and_eq_true_iff.mp h
    have ih := toList_sourceAt_signed hoperand (Nat.le_refl unaryLevel)
    have hprefix : ¬ op.isPostfix = true := by simpa using hop
    rw [sourceAt, parenthesize, if_neg (Nat.not_lt_of_le hle), if_neg hprefix,
      String.toList_append, ih]
    cases op with
    | postInc => cases hop
    | postDec => cases hop
    | _ => rfl
  | .ident n, _, least, hle => by
    rw [sourceAt, parenthesize_primary hle]
    rfl
  | .literal l, _, least, hle => by
    rw [sourceAt, parenthesize_primary hle]
    rfl

/-- A name, or a number that can be read back from its text. -/
theorem unsigned_cases {e : Expr} (h : e.isUnsigned = true) :
    (∃ n, e = .ident n ∧ Text.isIdentifier n = true) ∨
      ∃ l, e = .literal l ∧ Literal.ofWord? l.source = some l ∧
        ∃ c cs, l.source.toList = c :: cs ∧ c.isDigit = true := by
  cases e with
  | ident n => exact .inl ⟨n, rfl, h⟩
  | literal l =>
    cases l with
    | int i =>
      exact .inr ⟨_, rfl, Literal.ofWord?_int (of_decide_eq_true h),
        (Literal.exists_number (l := .int i) h (.inl ⟨i, rfl⟩)).1⟩
    | long i =>
      exact .inr ⟨_, rfl, Literal.ofWord?_long (of_decide_eq_true h),
        (Literal.exists_number (l := .long i) h (.inr ⟨i, rfl⟩)).1⟩
    | _ => cases h
  | _ => cases h

theorem head_source_of_isUnsigned {e : Expr} (h : e.isUnsigned = true) :
    ∀ c ∈ e.source.toList.head?, c ∉ ['-', '!', '+'] := by
  intro c hc
  rcases unsigned_cases h with ⟨n, rfl, hn⟩ | ⟨l, rfl, -, d, ds, htext, hdigit⟩
  · obtain ⟨d, ds, htext, -, hmark⟩ := Text.exists_head_of_isIdentifier hn
    rw [source_ident, htext] at hc
    cases Option.some.inj hc
    exact hmark
  · rw [source_literal, htext] at hc
    cases Option.some.inj hc
    intro hmark
    rcases List.mem_cons.mp hmark with rfl | hmark
    · cases hdigit
    · rcases List.mem_pair.mp hmark with rfl | rfl <;> cases hdigit

theorem name_ne_number {n : String} {l : Literal} (hn : Text.isIdentifier n = true)
    (hl : ∃ c cs, l.source.toList = c :: cs ∧ c.isDigit = true) : n ≠ l.source := by
  rintro rfl
  obtain ⟨c, cs, hc, hdigit⟩ := hl
  obtain ⟨d, ds, hd, hno, -⟩ := Text.exists_head_of_isIdentifier hn
  cases hc.symm.trans hd
  exact Bool.noConfusion (hdigit.symm.trans hno)

theorem source_inj_of_isUnsigned {e e' : Expr} (he : e.isUnsigned = true)
    (he' : e'.isUnsigned = true) (h : e.source = e'.source) : e = e' := by
  rcases unsigned_cases he with ⟨n, rfl, hn⟩ | ⟨l, rfl, hread, hl⟩ <;>
    rcases unsigned_cases he' with ⟨n', rfl, hn'⟩ | ⟨l', rfl, hread', hl'⟩
  · exact congrArg ident h
  · exact absurd h (name_ne_number hn hl')
  · exact absurd h.symm (name_ne_number hn' hl)
  · rw [source_literal, source_literal] at h
    rw [h] at hread
    rw [Option.some.inj (hread.symm.trans hread')]

theorem source_eq_iff_signs {e e' : Expr} (he : e.isSigned = true) (he' : e'.isSigned = true) :
    e.source = e'.source ↔ e.signs = e'.signs ∧ e.core = e'.core := by
  have htext : ∀ {e : Expr}, e.isSigned = true →
      e.source.toList = signsText e.signs ++ e.core.source.toList := fun h =>
    toList_sourceAt_signed h (Nat.zero_le _)
  constructor
  · intro h
    have hlist := congrArg String.toList h
    rw [htext he, htext he'] at hlist
    obtain ⟨hsigns, hcore⟩ := signs_append_inj (isSign_of_mem_signs he) (isSign_of_mem_signs he')
      (head_source_of_isUnsigned (isUnsigned_core he))
      (head_source_of_isUnsigned (isUnsigned_core he')) hlist
    exact ⟨hsigns, source_inj_of_isUnsigned (isUnsigned_core he) (isUnsigned_core he')
      (String.toList_inj.mp hcore)⟩
  · rintro ⟨hsigns, hcore⟩
    refine String.toList_inj.mp ?_
    rw [htext he, htext he', hsigns, hcore]

/-- The first operator that is read from signs, the longest one, and the signs behind it. -/
def firstOperator? : List UnaryOp → Option (UnaryOp × List UnaryOp)
  | .neg :: .neg :: ops => some (.preDec, ops)
  | op :: ops => some (op, ops)
  | [] => none

theorem head?_signs_ne_neg {e : Expr} (h : glues .neg e = false) : e.signs.head? ≠ some .neg := by
  cases e with
  | unary op operand =>
    cases op with
    | neg => cases h
    | preDec => cases h
    | _ => exact fun hhead => UnaryOp.noConfusion (Option.some.inj hhead)
  | _ =>
    intro hhead
    cases hhead

theorem firstOperator?_neg {ops : List UnaryOp} (h : ops.head? ≠ some .neg) :
    firstOperator? (.neg :: ops) = some (.neg, ops) := by
  cases ops with
  | nil => rfl
  | cons op ops =>
    cases op with
    | neg => exact absurd rfl h
    | _ => rfl

/-- Where no negation stands next to a minus sign, reading gives back what was written. -/
theorem firstOperator?_signs {op : UnaryOp} {operand : Expr} (hop : op.isPostfix = false)
    (h : glues op operand = false) :
    firstOperator? (unary op operand).signs = some (op, operand.signs) := by
  cases op with
  | neg => exact firstOperator?_neg (head?_signs_ne_neg h)
  | not => rfl
  | preInc => rfl
  | preDec => rfl
  | postInc => cases hop
  | postDec => cases hop

/-- A leading operator is told from its signs, and from there being any. -/
theorem exists_operator {e : Expr} (he : e.isSigned = true) (h : e.isApart = true) :
    (∃ op operand, e = unary op operand ∧ operand.isSigned = true ∧ operand.isApart = true ∧
      firstOperator? e.signs = some (op, operand.signs)) ∨
    e.core = e ∧ firstOperator? e.signs = none := by
  cases e with
  | unary op operand =>
    obtain ⟨hop, hoperand⟩ := Bool.and_eq_true_iff.mp he
    obtain ⟨hglues, hrest⟩ := Bool.and_eq_true_iff.mp h
    exact .inl ⟨op, operand, rfl, hoperand, hrest,
      firstOperator?_signs ((Bool.not_eq_true' _).mp hop) ((Bool.not_eq_true' _).mp hglues)⟩
  | ident => exact .inr ⟨rfl, rfl⟩
  | literal => exact .inr ⟨rfl, rfl⟩
  | _ => cases he

theorem eq_of_no_sign {e e' : Expr} (he' : e'.isSigned = true) (h' : e'.isApart = true)
    (hnone : e.signs = []) (hsigns : e.signs = e'.signs) (hcore : e = e'.core) : e = e' := by
  rcases exists_operator he' h' with ⟨op, operand, -, -, -, hfirst⟩ | ⟨hself, -⟩
  · rw [← hsigns, hnone] at hfirst
    cases hfirst
  · exact hcore.trans hself

theorem eq_of_signs : ∀ {e e' : Expr}, e.isSigned = true → e'.isSigned = true →
    e.isApart = true → e'.isApart = true → e.signs = e'.signs → e.core = e'.core → e = e'
  | .unary op operand, e', he, he', h, h', hsigns, hcore => by
    obtain ⟨hop, hoperand⟩ := Bool.and_eq_true_iff.mp he
    obtain ⟨hglues, hrest⟩ := Bool.and_eq_true_iff.mp h
    have hfirst := firstOperator?_signs ((Bool.not_eq_true' _).mp hop)
      ((Bool.not_eq_true' _).mp hglues)
    rw [hsigns] at hfirst
    rcases exists_operator he' h' with ⟨op', operand', rfl, hoperand', hrest', hfirst'⟩ | ⟨-, hnone⟩
    · obtain ⟨rfl, hmore⟩ := Prod.mk.inj (Option.some.inj (hfirst.symm.trans hfirst'))
      have hsame : operand = operand' := eq_of_signs hoperand hoperand' hrest hrest' hmore hcore
      rw [hsame]
    · cases hfirst.symm.trans hnone
  | .ident _, _, _, he', _, h', hsigns, hcore => eq_of_no_sign he' h' rfl hsigns hcore
  | .literal _, _, _, he', _, h', hsigns, hcore => eq_of_no_sign he' h' rfl hsigns hcore

/--
Names and numbers behind leading operators have the same text exactly if the signs before them are
the same, a decrement being written like two negations. So the text determines the expression where
no negation stands next to another negation or to a decrement.
-/
theorem signed_source_eq_iff {e e' : Expr} (he : e.isSigned = true) (he' : e'.isSigned = true) :
    (e.source = e'.source ↔ e.signs = e'.signs ∧ e.core = e'.core) ∧
      (e.isApart = true → e'.isApart = true → e.source = e'.source → e = e') := by
  have hsigns := source_eq_iff_signs he he'
  refine ⟨hsigns, fun h h' htext => ?_⟩
  obtain ⟨hsame, hcore⟩ := hsigns.mp htext
  exact eq_of_signs he he' h h' hsame hcore

/-- `-(-a)` and `--a` have one text, and so have `-(--x)` and `--(-x)`; `-!x` and `!-x` do not. -/
theorem signed_source_eq_iff_minus :
    let a := ident "a"
    let x := ident "x"
    (unary .neg (unary .neg a)).source = (unary .preDec a).source ∧
      (unary .neg (unary .preDec x)).source = (unary .preDec (unary .neg x)).source ∧
      (unary .neg (unary .not x)).source ≠ (unary .not (unary .neg x)).source := by
  intro a x
  refine ⟨(signed_source_eq_iff (by decide) (by decide)).1.mpr ⟨by decide, rfl⟩,
    (signed_source_eq_iff (by decide) (by decide)).1.mpr ⟨by decide, rfl⟩, fun h => ?_⟩
  cases (signed_source_eq_iff (by decide) (by decide)).2 (by decide) (by decide) h

/-- Leading operators can be glued together: `-(-a)` is written like `--a`. -/
theorem not_every_sign_apart : ¬ ∀ (op op' : UnaryOp) (operand operand' : Expr),
    op.isPostfix = false → op'.isPostfix = false →
    operand.isSigned = true → operand'.isSigned = true →
    (unary op operand).source = (unary op' operand').source →
    unary op operand = unary op' operand' := by
  intro h
  have hsame := h .neg .preDec (unary .neg (ident "a")) (ident "a") rfl rfl (by decide) (by decide)
    rfl
  cases hsame

end Expr

end VersionWeave
