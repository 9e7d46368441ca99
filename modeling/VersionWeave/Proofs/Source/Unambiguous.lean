import VersionWeave.Proofs.Source.Exposed

namespace VersionWeave

namespace Expr

section

variable {e receiver target value lhs rhs operand : Expr} {name : String} {args : List Expr}
  {ty : TypeRef}

theorem assign_of_pieces {op : AssignOp} (h : (assign target op value).pieces = e.pieces) :
    ∃ target' value', e = assign target' op value' ∧
      target.pieces = target'.pieces ∧ value.pieces = value'.pieces := by
  have hlevel := (form_of_pieces h).1
  cases e with
  | assign target' op' value' =>
    have htarget := bounded_piecesAt primaryLevel target.bounded_pieces
    have htarget' := bounded_piecesAt primaryLevel target'.bounded_pieces
    -- Targets bind tighter than assignments, so the first assignment is the outermost one.
    obtain ⟨hleft, hop, hright⟩ := htarget.toClosed.split_first htarget'.toClosed h
      (htarget'.notMem (Nat.succ_lt_succ (Nat.zero_lt_succ _)))
      (htarget.notMem (Nat.succ_lt_succ (Nat.zero_lt_succ _)))
    cases hop
    exact ⟨target', value', rfl, pieces_of_piecesAt hleft, pieces_of_piecesAt hright⟩
  | binary op' => exact absurd hlevel op'.precedence_pos.ne
  | _ => cases hlevel

theorem binary_of_pieces {op : BinaryOp} (h : (binary op lhs rhs).pieces = e.pieces) :
    ∃ lhs' rhs', e = binary op lhs' rhs' ∧ lhs.pieces = lhs'.pieces ∧ rhs.pieces = rhs'.pieces := by
  have hlevel := (form_of_pieces h).1
  cases e with
  | binary op' lhs' rhs' =>
    have hprec : op.precedence = op'.precedence := hlevel
    have hlhs := bounded_piecesAt op.precedence lhs.bounded_pieces
    have hlhs' := bounded_piecesAt op'.precedence lhs'.bounded_pieces
    have hrhs := bounded_piecesAt (op.precedence + 1) rhs.bounded_pieces
    have hrhs' := bounded_piecesAt (op'.precedence + 1) rhs'.bounded_pieces
    -- Right operands bind tighter, so the last operator of this precedence is the outermost one.
    obtain ⟨hleft, hop, hright⟩ := hlhs.toClosed.split_last hlhs'.toClosed h
      (hrhs'.notMem (hprec ▸ Nat.lt_succ_self _)) (hrhs.notMem (hprec ▸ Nat.lt_succ_self _))
    cases hop
    exact ⟨lhs', rhs', rfl, pieces_of_piecesAt hleft, pieces_of_piecesAt hright⟩
  | assign => exact absurd hlevel op.precedence_pos.ne'
  | unary => exact absurd hlevel op.precedence_lt.ne
  | cast => exact absurd hlevel op.precedence_lt.ne
  | _ => exact absurd hlevel (op.precedence_lt.trans (Nat.lt_succ_self _)).ne

/-- The first exposed operator that binds as tightly as a unary one. -/
def firstUnary? (ts : List Token) : Option Token :=
  (exposed 0 ts).find? (·.rank = unaryLevel + 1)

theorem firstUnary?_pieces (op : UnaryOp) (operand : Expr) :
    firstUnary? (unary op operand).pieces = some (.op (.unary op)) := by
  have hoperand := bounded_piecesAt primaryLevel operand.bounded_pieces
  cases hop : op.isPostfix with
  | true =>
    have hnone : firstUnary? (operand.piecesAt primaryLevel) = none :=
      List.find?_eq_none.mpr fun t ht => by
        have hle := hoperand.bound t ht
        have hlt : unaryLevel + 1 < primaryLevel + 1 := by decide
        simp
        omega
    rw [pieces_trailing operand hop, firstUnary?, hoperand.exposed_op, List.find?_append, ← firstUnary?, hnone]
    rfl
  | false =>
    rw [pieces_leading operand hop]
    rfl

theorem unary_of_pieces {op : UnaryOp} (h : (unary op operand).pieces = e.pieces) :
    ∃ operand', e = unary op operand' ∧ operand.pieces = operand'.pieces := by
  have hlevel := (form_of_pieces h).1
  have hfirst := firstUnary?_pieces op operand
  rw [h] at hfirst
  cases e with
  | unary op' operand' =>
    rw [firstUnary?_pieces] at hfirst
    cases hfirst
    refine ⟨operand', rfl, ?_⟩
    cases hop : op.isPostfix with
    | true =>
      rw [pieces_trailing operand hop, pieces_trailing operand' hop] at h
      exact pieces_of_piecesAt (List.append_cancel_right h)
    | false =>
      rw [pieces_leading operand hop, pieces_leading operand' hop] at h
      exact pieces_of_piecesAt (List.cons.inj h).2
  | cast => cases hfirst
  | binary op' => exact absurd hlevel op'.precedence_lt.ne'
  | _ => cases hlevel

theorem cast_of_pieces (h : (cast ty operand).pieces = e.pieces) :
    ∃ operand', e = cast ty operand' ∧ operand.pieces = operand'.pieces := by
  have hlevel := (form_of_pieces h).1
  cases e with
  | cast ty' operand' =>
    obtain ⟨hname, hrest⟩ := List.cons.inj (List.cons.inj h).2
    cases hname
    exact ⟨operand', rfl, pieces_of_piecesAt (List.cons.inj hrest).2⟩
  | unary op' operand' =>
    have hfirst := firstUnary?_pieces op' operand'
    rw [← h] at hfirst
    cases hfirst
  | binary op' => exact absurd hlevel op'.precedence_lt.ne'
  | _ => cases hlevel

/-- A member access is split at the last member sign, after which nothing is exposed. -/
theorem member_of_pieces {receiver' : Expr} {xs ys : List Token} (hxs : Bounded (primaryLevel + 2) xs)
    (hys : Bounded (primaryLevel + 2) ys)
    (h : receiver.piecesAt primaryLevel ++ .op .member :: xs =
      receiver'.piecesAt primaryLevel ++ .op .member :: ys) :
    receiver.pieces = receiver'.pieces ∧ xs = ys := by
  obtain ⟨hleft, -, hright⟩ :=
    (bounded_piecesAt primaryLevel receiver.bounded_pieces).toClosed.split_last
      (bounded_piecesAt primaryLevel receiver'.bounded_pieces).toClosed h
      (hys.notMem (Nat.lt_succ_self _)) (hxs.notMem (Nat.lt_succ_self _))
  exact ⟨pieces_of_piecesAt hleft, hright⟩

theorem field_of_pieces (h : (field receiver name).pieces = e.pieces) :
    ∃ receiver', e = field receiver' name ∧ receiver.pieces = receiver'.pieces := by
  obtain ⟨hlevel, hatom⟩ := form_of_pieces h
  cases e with
  | field receiver' name' =>
    obtain ⟨hreceiver, hname⟩ := member_of_pieces (.name _) (.name _) h
    cases hname
    exact ⟨receiver', rfl, hreceiver⟩
  | call receiver' name' args' =>
    cases receiver' with
    | none => cases hatom
    | some receiver' =>
      rw [pieces_call, receiverPieces_some, List.append_assoc] at h
      obtain ⟨-, hname⟩ := member_of_pieces (.name _)
        ((Bounded.name _).append (.group (closed_args args'))) h
      cases (List.cons.inj hname).2
  | binary op' => exact absurd hlevel (op'.precedence_lt.trans (Nat.lt_succ_self _)).ne'
  | assign => cases hlevel
  | unary => cases hlevel
  | cast => cases hlevel
  | _ => cases hatom

theorem applied_inj {ty' : TypeRef} {args' : List Expr}
    (h : Token.name ty :: .opening :: (argPieces args ++ [.closing]) =
      .name ty' :: .opening :: (argPieces args' ++ [.closing])) :
    ty = ty' ∧ argPieces args = argPieces args' := by
  obtain ⟨hname, hgroup⟩ := List.cons.inj h
  exact ⟨Token.name.inj hname, List.append_cancel_right (List.cons.inj hgroup).2⟩

theorem call_of_pieces {receiver : Option Expr} (h : (call receiver name args).pieces = e.pieces) :
    ∃ receiver' args', e = call receiver' name args' ∧
      receiver.map pieces = receiver'.map pieces ∧ argPieces args = argPieces args' := by
  obtain ⟨hlevel, hatom⟩ := form_of_pieces h
  cases e with
  | call receiver' name' args' =>
    cases receiver with
    | none =>
      cases receiver' with
      | none =>
        obtain ⟨hname, hargs⟩ := applied_inj h
        cases hname
        exact ⟨none, args', rfl, rfl, hargs⟩
      | some => cases hatom
    | some receiver =>
      cases receiver' with
      | none => cases hatom
      | some receiver' =>
        rw [pieces_call, pieces_call, receiverPieces_some, receiverPieces_some,
          List.append_assoc, List.append_assoc] at h
        obtain ⟨hreceiver, hrest⟩ := member_of_pieces
          ((Bounded.name _).append (.group (closed_args args)))
          ((Bounded.name _).append (.group (closed_args args'))) h
        obtain ⟨hname, hargs⟩ := applied_inj hrest
        cases hname
        exact ⟨some receiver', args', rfl, congrArg some hreceiver, hargs⟩
  | field receiver' name' =>
    obtain ⟨_, hfield, -⟩ := field_of_pieces h.symm
    cases hfield
  | binary op' => exact absurd hlevel (op'.precedence_lt.trans (Nat.lt_succ_self _)).ne'
  | assign => cases hlevel
  | unary => cases hlevel
  | cast => cases hlevel
  | create =>
    cases receiver with
    | none => cases (List.cons.inj h).1
    | some => cases hatom
  | _ =>
    cases receiver with
    | none => cases (List.cons.inj h).2
    | some => cases hatom

theorem create_of_pieces (h : (create ty args).pieces = e.pieces) :
    ∃ args', e = create ty args' ∧ argPieces args = argPieces args' := by
  have hatom := (form_of_pieces h).2
  cases e with
  | create ty' args' =>
    obtain ⟨rfl, hargs⟩ := applied_inj (List.cons.inj h).2
    exact ⟨args', rfl, hargs⟩
  | call receiver' =>
    obtain ⟨_, _, hcall, -⟩ := call_of_pieces h.symm
    cases hcall
  | literal => cases (List.cons.inj h).2
  | ident => cases (List.cons.inj h).2
  | this => cases (List.cons.inj h).2
  | _ => cases hatom

theorem argPieces_cons {rest args' : List Expr}
    (h : argPieces (e :: rest) = argPieces args') (hargs' : args' ≠ []) :
    ∃ e' rest', args' = e' :: rest' ∧ e.pieces = e'.pieces ∧ argPieces rest = argPieces rest' := by
  have hcomma : ∀ x : Expr, .op .comma ∉ exposed 0 x.pieces := fun x =>
    x.bounded_pieces.notMem (Nat.zero_lt_of_lt x.level_lt_rank)
  have hclosed : ∀ x : Expr, Closed x.pieces := fun x => x.bounded_pieces.toClosed
  cases args' with
  | nil => exact absurd rfl hargs'
  | cons e' rest' =>
    refine ⟨e', rest', rfl, ?_⟩
    cases rest with
    | nil =>
      cases rest' with
      | nil => exact ⟨by simpa only [argPieces_singleton] using h, rfl⟩
      | cons =>
        rw [argPieces_singleton, argPieces_cons_cons] at h
        exact absurd (h ▸ (hclosed e').mem_exposed_op .comma) (hcomma e)
    | cons =>
      rw [argPieces_cons_cons] at h
      cases rest' with
      | nil =>
        rw [argPieces_singleton] at h
        exact absurd (h ▸ (hclosed e).mem_exposed_op .comma) (hcomma e')
      | cons =>
        rw [argPieces_cons_cons] at h
        obtain ⟨hfirst, -, hrest⟩ := (hclosed e).split_first (hclosed e') h (hcomma e') (hcomma e)
        exact ⟨hfirst, hrest⟩

end

end Expr

namespace Literal

def number (digits : List Char) : Int64 :=
  Int64.ofInt (Nat.ofDigitChars 10 digits 0)

/-- The literal that a word without quotes is. -/
def ofWord? (word : String) : Option Literal :=
  if word.toList.head?.any Char.isDigit then
    if word.toList.getLast? = some 'L' then some (.long (number word.toList.dropLast))
    else some (.int (number word.toList))
  else if word = "true" then some (.bool true)
  else if word = "false" then some (.bool false)
  else if word = "null" then some .null
  else none

theorem number_toDigits {i : Int64} (h : 0 ≤ i.toInt) :
    number (Nat.toDigits 10 i.toInt.toNat) = i := by
  rw [number, Nat.ofDigitChars_ten_toDigits, Int.toNat_of_nonneg h, Int64.ofInt_toInt]

theorem ofWord?_int {i : Int64} (h : 0 ≤ i.toInt) : ofWord? (int i).source = some (.int i) := by
  have htext := toList_repr h
  obtain ⟨c, digits, hd, hc⟩ := Json.exists_toDigits i.toInt.toNat
  have hlast : (Nat.toDigits 10 i.toInt.toNat).getLast? ≠ some 'L' := fun hlast =>
    absurd (Json.isDigit_of_mem_toDigits (List.mem_of_getLast? hlast)) (by decide)
  rw [ofWord?, source, htext, if_pos (by rw [hd]; exact hc), if_neg hlast, number_toDigits h]

theorem ofWord?_long {i : Int64} (h : 0 ≤ i.toInt) : ofWord? (long i).source = some (.long i) := by
  have htext : (long i).source.toList = Nat.toDigits 10 i.toInt.toNat ++ ['L'] := by
    rw [source, String.toList_append, toList_repr h]
    rfl
  obtain ⟨c, digits, hd, hc⟩ := Json.exists_toDigits i.toInt.toNat
  rw [ofWord?, htext, if_pos (by rw [hd]; exact hc), if_pos List.getLast?_concat,
    List.dropLast_concat, number_toDigits h]

theorem ofWord?_free {n : String} (h : isFreeName n = true) : ofWord? n = none := by
  obtain ⟨⟨c, rest, hn, hc⟩, -, hreserved⟩ := isFreeName_iff.mp h
  simp only [reservedWords, List.mem_cons, not_or] at hreserved
  rw [ofWord?, if_neg (by rw [hn]; simp [hc]), if_neg hreserved.2.2.1, if_neg hreserved.2.2.2.1,
    if_neg hreserved.2.2.2.2.1]

end Literal

namespace Expr

/-- The expression that a single word is. -/
def ofWord (word : String) : Expr :=
  if word = "this" then .this else (Literal.ofWord? word).elim (.ident word) .literal

/-- The expression that a single piece is. -/
def ofToken? : Token → Option Expr
  | .name ty => some (ofWord ty.name)
  | .quoted quote content =>
    if quote = '"' then some (.literal (.str (String.ofList content)))
    else content.head?.map (.literal <| .char ·)
  | _ => none

def isLeaf : Expr → Bool
  | .literal _ | .ident _ | .this => true
  | _ => false

theorem ofWord_literal {word : String} {l : Literal} (h : Literal.ofWord? word = some l) :
    ofWord word = .literal l := by
  have hthis : word ≠ "this" := by
    rintro rfl
    cases (show Literal.ofWord? "this" = none by decide).symm.trans h
  rw [ofWord, if_neg hthis, h]
  rfl

theorem ofWord_free {n : String} (h : isFreeName n = true) : ofWord n = .ident n := by
  have hthis : n ≠ "this" := by
    rintro rfl
    exact absurd h (by decide)
  rw [ofWord, if_neg hthis, Literal.ofWord?_free h]
  rfl

theorem ofToken?_literal {l : Literal} (h : l.isPlain = true) :
    ofToken? l.token = some (.literal l) := by
  cases l with
  | int i => exact congrArg some (ofWord_literal (Literal.ofWord?_int (of_decide_eq_true h)))
  | long i => exact congrArg some (ofWord_literal (Literal.ofWord?_long (of_decide_eq_true h)))
  | float => cases h
  | double => cases h
  | bool b => cases b <;> exact congrArg some (ofWord_literal (by decide))
  | char c => rfl
  | str s => exact congrArg (fun text => some (literal (.str text))) String.ofList_toList
  | null => exact congrArg some (ofWord_literal (by decide))

/-- A leaf is one piece, from which it can be read back. -/
theorem exists_token {e : Expr} (h : e.isPlain = true) (hleaf : e.isLeaf = true) :
    ∃ t, e.pieces = [t] ∧ ofToken? t = some e := by
  cases e with
  | literal l => exact ⟨_, rfl, ofToken?_literal h⟩
  | ident n => exact ⟨_, rfl, congrArg some (ofWord_free h)⟩
  | this => exact ⟨_, rfl, rfl⟩
  | _ => cases hleaf

theorem leaf_of_pieces {e e' : Expr} (he : e.isPlain = true) (he' : e'.isPlain = true)
    (hleaf : e.isLeaf = true) (h : e.pieces = e'.pieces) : e = e' := by
  obtain ⟨t, ht, hread⟩ := exists_token he hleaf
  cases hleaf' : e'.isLeaf with
  | true =>
    obtain ⟨t', ht', hread'⟩ := exists_token he' hleaf'
    cases (ht.symm.trans h).trans ht'
    exact Option.some.inj (hread.symm.trans hread')
  | false =>
    have hatom : e'.isAtom = true := by
      rw [← (form_of_pieces h).2]
      cases e with
      | literal => rfl
      | ident => rfl
      | this => rfl
      | _ => cases hleaf
    rw [ht] at h
    cases e' with
    | call receiver' =>
      cases receiver' with
      | none => cases (List.cons.inj h).2
      | some => cases hatom
    | create => cases (List.cons.inj h).2
    | literal => cases hleaf'
    | ident => cases hleaf'
    | this => cases hleaf'
    | _ => cases hatom

mutual

/-- The pieces of a plain expression are those of no other one. -/
theorem pieces_inj : ∀ e e' : Expr, e.isPlain = true → e'.isPlain = true →
    e.pieces = e'.pieces → e = e'
  | .literal _, _, he, he', h => leaf_of_pieces he he' rfl h
  | .ident _, _, he, he', h => leaf_of_pieces he he' rfl h
  | .this, _, he, he', h => leaf_of_pieces he he' rfl h
  | .field receiver name, _, he, he', h => by
    obtain ⟨receiver', rfl, hreceiver⟩ := field_of_pieces h
    rw [pieces_inj receiver receiver' (Bool.and_eq_true_iff.mp he).1
      (Bool.and_eq_true_iff.mp he').1 hreceiver]
  | .call receiver name args, _, he, he', h => by
    obtain ⟨receiver', args', rfl, hreceiver, hargs⟩ := call_of_pieces h
    obtain ⟨hfront, hplain⟩ := Bool.and_eq_true_iff.mp he
    obtain ⟨hfront', hplain'⟩ := Bool.and_eq_true_iff.mp he'
    rw [receiver_inj receiver receiver' (Bool.and_eq_true_iff.mp hfront).1
      (Bool.and_eq_true_iff.mp hfront').1 hreceiver, args_inj args args' hplain hplain' hargs]
  | .create ty args, _, he, he', h => by
    obtain ⟨args', rfl, hargs⟩ := create_of_pieces h
    rw [args_inj args args' (Bool.and_eq_true_iff.mp he).2 (Bool.and_eq_true_iff.mp he').2 hargs]
  | .assign target op value, _, he, he', h => by
    obtain ⟨target', value', rfl, htarget, hvalue⟩ := assign_of_pieces h
    obtain ⟨hl, hr⟩ := Bool.and_eq_true_iff.mp he
    obtain ⟨hl', hr'⟩ := Bool.and_eq_true_iff.mp he'
    rw [pieces_inj target target' hl hl' htarget, pieces_inj value value' hr hr' hvalue]
  | .binary op lhs rhs, _, he, he', h => by
    obtain ⟨lhs', rhs', rfl, hlhs, hrhs⟩ := binary_of_pieces h
    obtain ⟨hl, hr⟩ := Bool.and_eq_true_iff.mp he
    obtain ⟨hl', hr'⟩ := Bool.and_eq_true_iff.mp he'
    rw [pieces_inj lhs lhs' hl hl' hlhs, pieces_inj rhs rhs' hr hr' hrhs]
  | .unary op operand, _, he, he', h => by
    obtain ⟨operand', rfl, hoperand⟩ := unary_of_pieces h
    rw [pieces_inj operand operand' (Bool.and_eq_true_iff.mp he).2
      (Bool.and_eq_true_iff.mp he').2 hoperand]
  | .cast ty operand, _, he, he', h => by
    obtain ⟨operand', rfl, hoperand⟩ := cast_of_pieces h
    rw [pieces_inj operand operand' (Bool.and_eq_true_iff.mp he).2
      (Bool.and_eq_true_iff.mp he').2 hoperand]

theorem receiver_inj : ∀ receiver receiver' : Option Expr, optionIsPlain receiver = true →
    optionIsPlain receiver' = true → receiver.map pieces = receiver'.map pieces →
    receiver = receiver'
  | none, none, _, _, _ => rfl
  | none, some _, _, _, h => by cases h
  | some _, none, _, _, h => by cases h
  | some e, some e', he, he', h => by rw [pieces_inj e e' he he' (Option.some.inj h)]

theorem args_inj : ∀ args args' : List Expr, allPlain args = true → allPlain args' = true →
    argPieces args = argPieces args' → args = args'
  | [], args', _, hargs', h => by
    rcases operand_args args' hargs' with rfl | hoperand
    · rfl
    · exact absurd h.symm hoperand.ne_nil
  | e :: rest, args', hargs, hargs', h => by
    have hne : args' ≠ [] := by
      rintro rfl
      rcases operand_args (e :: rest) hargs with hnil | hoperand
      · cases hnil
      · exact hoperand.ne_nil h
    obtain ⟨e', rest', rfl, hfirst, hrest⟩ := argPieces_cons h hne
    obtain ⟨hl, hr⟩ := Bool.and_eq_true_iff.mp hargs
    obtain ⟨hl', hr'⟩ := Bool.and_eq_true_iff.mp hargs'
    rw [pieces_inj e e' hl hl' hfirst, args_inj rest rest' hr hr' hrest]

end

/-- Texts of plain expressions are equal only if the expressions are: no parentheses are missing,
so neither the tree nor a literal or a name can be mistaken for another. -/
theorem source_inj_of_isPlain {e e' : Expr} (he : e.isPlain = true) (he' : e'.isPlain = true) :
    e.source = e'.source ↔ e = e' := by
  refine ⟨fun h => pieces_inj e e' he he' ?_, fun h => h ▸ rfl⟩
  have htext : textOf e.pieces = textOf e'.pieces := by
    have hlist := congrArg String.toList h
    rwa [source, source, toList_sourceAt, toList_sourceAt] at hlist
  exact (operand_pieces e he).written.textOf_inj (operand_pieces e' he').written htext

/-- `((Stock) a).price(!b++, 2 - (x - 1)).unit` and `(Stock) a.price(!b++, 2 - x - 1).unit`. -/
theorem source_ne_of_cast_and_difference :
    let args (e : Expr) := [unary .not (unary .postInc (ident "b")), e]
    let grouped := field (call (some (cast (.plain "Stock") (ident "a"))) "price"
      (args (binary .sub (int 2) (binary .sub (ident "x") (int 1))))) "unit"
    let loose := cast (.plain "Stock") (field (call (some (ident "a")) "price"
      (args (binary .sub (binary .sub (int 2) (ident "x")) (int 1)))) "unit")
    grouped.isPlain = true ∧ loose.isPlain = true ∧ grouped.source ≠ loose.source := by
  intro args grouped loose
  have hgrouped : grouped.isPlain = true := by decide
  have hloose : loose.isPlain = true := by decide
  refine ⟨hgrouped, hloose, fun h => ?_⟩
  exact Expr.noConfusion ((source_inj_of_isPlain hgrouped hloose).mp h)

end Expr

end VersionWeave
