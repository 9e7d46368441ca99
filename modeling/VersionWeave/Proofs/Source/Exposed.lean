import VersionWeave.Proofs.Source.Pieces

namespace VersionWeave

namespace Token

/-- The number of open parentheses after a piece. -/
def nest : Token → Nat → Nat
  | opening, depth => depth + 1
  | closing, depth | casting, depth => depth - 1
  | _, depth => depth

/-- Operators count outside of parentheses, and a cast is an operator that ends one pair. -/
def isExposed : Token → Nat → Bool
  | op _, depth => depth = 0
  | casting, depth => depth = 1
  | _, _ => false

/-- How tightly the expression binds of which a piece is the outermost operator. -/
def rank : Token → Nat
  | op .comma => 0
  | op (.assign _) => Expr.assignLevel + 1
  | op (.binary o) => o.precedence + 1
  | op (.unary _) | casting => Expr.unaryLevel + 1
  | op .member => Expr.primaryLevel + 1
  | _ => Expr.primaryLevel + 2

end Token

/-- The operators outside of parentheses, read from a place inside `depth` pairs of them. -/
def exposed (depth : Nat) : List Token → List Token
  | [] => []
  | t :: ts => (if t.isExposed depth then [t] else []) ++ exposed (t.nest depth) ts

/-- Pieces whose parentheses are closed among themselves. -/
structure Closed (ts : List Token) : Prop where
  shown : ∀ rest, exposed 0 (ts ++ rest) = exposed 0 ts ++ exposed 0 rest
  hidden : ∀ depth rest, exposed (depth + 1) (ts ++ rest) = exposed (depth + 1) rest

namespace Closed

variable {xs ys : List Token}

theorem nil : Closed [] := ⟨fun _ => rfl, fun _ _ => rfl⟩

theorem append (hxs : Closed xs) (hys : Closed ys) : Closed (xs ++ ys) where
  shown rest := by
    rw [List.append_assoc, hxs.shown, hxs.shown, hys.shown, List.append_assoc]
  hidden depth rest := by
    rw [List.append_assoc, hxs.hidden, hys.hidden]

theorem of_append (hxs : Closed xs) (h : Closed (xs ++ ys)) : Closed ys where
  shown rest := by
    have hall := h.shown rest
    rw [List.append_assoc, hxs.shown, hxs.shown, List.append_assoc] at hall
    exact List.append_cancel_left hall
  hidden depth rest := by
    rw [← h.hidden depth rest, List.append_assoc, hxs.hidden]

theorem op (o : Oper) : Closed [.op o] := ⟨fun _ => rfl, fun _ _ => rfl⟩

theorem group (h : Closed xs) : Closed (.opening :: (xs ++ [.closing])) where
  shown rest := by
    change exposed 1 (xs ++ [.closing] ++ rest) = exposed 1 (xs ++ [.closing]) ++ exposed 0 rest
    rw [List.append_assoc, h.hidden, h.hidden]
    rfl
  hidden depth rest := by
    change exposed (depth + 2) (xs ++ [.closing] ++ rest) = _
    rw [List.append_assoc, h.hidden]
    rfl

theorem exposed_group (h : Closed xs) : exposed 0 (.opening :: (xs ++ [.closing])) = [] :=
  h.hidden 0 [.closing]

theorem exposed_op (h : Closed xs) (o : Oper) :
    exposed 0 (xs ++ .op o :: ys) = exposed 0 xs ++ .op o :: exposed 0 ys :=
  h.shown _

theorem mem_exposed_op (h : Closed xs) (o : Oper) : .op o ∈ exposed 0 (xs ++ .op o :: ys) := by
  rw [h.exposed_op]
  exact List.mem_append_right _ List.mem_cons_self

variable {xs' ys' : List Token} {o o' : Oper}

/-- Where two splits of the same pieces differ, the operator of one lies in a part of the other. -/
theorem split_cases (h : xs ++ .op o :: ys = xs' ++ .op o' :: ys') :
    (xs = xs' ∧ o = o' ∧ ys = ys') ∨
      (∃ ms, xs' = xs ++ .op o :: ms ∧ ys = ms ++ .op o' :: ys') ∨
      ∃ ms, xs = xs' ++ .op o' :: ms ∧ ys' = ms ++ .op o :: ys := by
  rcases List.append_eq_append_iff.mp h with ⟨ms, rfl, hms⟩ | ⟨ms, rfl, hms⟩
  · cases ms with
    | nil =>
      obtain ⟨hop, rfl⟩ := List.cons.inj hms
      exact .inl ⟨(List.append_nil _).symm, Token.op.inj hop, rfl⟩
    | cons m ms =>
      obtain ⟨rfl, rfl⟩ := List.cons.inj hms
      exact .inr (.inl ⟨ms, rfl, rfl⟩)
  · cases ms with
    | nil =>
      obtain ⟨hop, rfl⟩ := List.cons.inj hms
      exact .inl ⟨List.append_nil _, (Token.op.inj hop).symm, rfl⟩
    | cons m ms =>
      obtain ⟨rfl, rfl⟩ := List.cons.inj hms
      exact .inr (.inr ⟨ms, rfl, rfl⟩)

/-- Pieces are split in one way at an operator that the pieces before it do not expose. -/
theorem split_first (hxs : Closed xs) (hxs' : Closed xs')
    (h : xs ++ .op o :: ys = xs' ++ .op o' :: ys') (ho : .op o ∉ exposed 0 xs')
    (ho' : .op o' ∉ exposed 0 xs) : xs = xs' ∧ o = o' ∧ ys = ys' := by
  rcases split_cases h with hsame | ⟨ms, rfl, -⟩ | ⟨ms, rfl, -⟩
  · exact hsame
  · exact absurd (hxs.mem_exposed_op o) ho
  · exact absurd (hxs'.mem_exposed_op o') ho'

/-- Pieces are split in one way at an operator that the pieces after it do not expose. -/
theorem split_last (hxs : Closed xs) (hxs' : Closed xs')
    (h : xs ++ .op o :: ys = xs' ++ .op o' :: ys') (ho : .op o ∉ exposed 0 ys')
    (ho' : .op o' ∉ exposed 0 ys) : xs = xs' ∧ o = o' ∧ ys = ys' := by
  -- What lies between two operators is closed, so the later one is exposed after the earlier.
  rcases split_cases h with hsame | ⟨ms, rfl, rfl⟩ | ⟨ms, rfl, rfl⟩
  · exact hsame
  · exact absurd (((op o).of_append (hxs.of_append hxs')).mem_exposed_op o') ho'
  · exact absurd (((op o').of_append (hxs'.of_append hxs)).mem_exposed_op o) ho

end Closed

/-- Closed pieces whose exposed operators all bind at least as tightly as `least`. -/
structure Bounded (least : Nat) (ts : List Token) : Prop extends Closed ts where
  bound : ∀ t ∈ exposed 0 ts, least ≤ t.rank

namespace Bounded

variable {least : Nat} {xs ys : List Token}

theorem mono {lower : Nat} (h : Bounded least xs) (hle : lower ≤ least) : Bounded lower xs where
  toClosed := h.toClosed
  bound t ht := hle.trans (h.bound t ht)

theorem append (hxs : Bounded least xs) (hys : Bounded least ys) : Bounded least (xs ++ ys) where
  toClosed := hxs.toClosed.append hys.toClosed
  bound t ht := by
    rw [hxs.shown] at ht
    exact (List.mem_append.mp ht).elim (hxs.bound t) (hys.bound t)

theorem name (ty : TypeRef) : Bounded least [.name ty] := ⟨⟨fun _ => rfl, fun _ _ => rfl⟩, nofun⟩

theorem quoted (quote : Char) (content : List Char) : Bounded least [.quoted quote content] :=
  ⟨⟨fun _ => rfl, fun _ _ => rfl⟩, nofun⟩

theorem new : Bounded least [.new] := ⟨⟨fun _ => rfl, fun _ _ => rfl⟩, nofun⟩

theorem op {o : Oper} (h : least ≤ (Token.op o).rank) : Bounded least [.op o] where
  toClosed := .op o
  bound t ht := by
    cases List.mem_singleton.mp ht
    exact h

theorem casting (ty : TypeRef) (h : least ≤ Token.casting.rank) :
    Bounded least [.opening, .name ty, .casting] where
  shown _ := rfl
  hidden _ _ := rfl
  bound t ht := by
    cases List.mem_singleton.mp ht
    exact h

theorem group (h : Closed xs) : Bounded least (.opening :: (xs ++ [.closing])) where
  toClosed := h.group
  bound t ht := by
    rw [h.exposed_group] at ht
    cases ht

theorem joined {o : Oper} (hxs : Bounded least xs) (ho : least ≤ (Token.op o).rank)
    (hys : Bounded least ys) : Bounded least (xs ++ .op o :: ys) :=
  hxs.append ((Bounded.op ho).append hys)

/-- An operator that binds looser than all that the pieces expose is not among these. -/
theorem notMem {t : Token} (h : Bounded least xs) (ht : t.rank < least) : t ∉ exposed 0 xs :=
  fun hmem => absurd (h.bound t hmem) (Nat.not_le.mpr ht)

end Bounded

namespace BinaryOp

theorem precedence_pos (op : BinaryOp) : 0 < op.precedence := by cases op <;> decide

theorem precedence_lt (op : BinaryOp) : op.precedence < Expr.unaryLevel := by cases op <;> decide

end BinaryOp

namespace Expr

/-- Names, literals, creations and calls without a receiver have no operator of their own. -/
def isAtom : Expr → Bool
  | .literal _ | .ident _ | .this | .call none _ _ | .create .. => true
  | _ => false

/-- How tightly an expression binds, where atoms bind tighter than what has an operator. -/
def rank (e : Expr) : Nat :=
  if e.isAtom then primaryLevel + 2 else e.level + 1

theorem level_le (e : Expr) : e.level ≤ primaryLevel := by
  cases e with
  | assign => exact Nat.zero_le _
  | binary op => exact (op.precedence_lt.trans (by decide)).le
  | unary => exact Nat.le_succ unaryLevel
  | cast => exact Nat.le_succ unaryLevel
  | _ => exact le_rfl

theorem level_lt_rank (e : Expr) : e.level < e.rank := by
  unfold rank
  split
  next => exact Nat.lt_succ_of_le (e.level_le.trans (Nat.le_succ _))
  next => exact Nat.lt_succ_self _

theorem bounded_piecesAt {e : Expr} (least : Nat) (h : Bounded e.rank e.pieces) :
    Bounded (least + 1) (e.piecesAt least) := by
  unfold piecesAt enclose
  split
  next => exact .group h.toClosed
  next hlevel =>
    have := e.level_lt_rank
    exact h.mono (by omega)

theorem bounded_literal (least : Nat) (l : Literal) : Bounded least [l.token] := by
  cases l with
  | char => exact .quoted _ _
  | str => exact .quoted _ _
  | _ => exact .name _

mutual

/-- An expression exposes no operator that binds looser than its outermost one. -/
theorem bounded_pieces : ∀ e : Expr, Bounded e.rank e.pieces
  | .literal l => bounded_literal _ l
  | .ident _ => .name _
  | .this => .name _
  | .field receiver name =>
    (bounded_piecesAt primaryLevel (bounded_pieces receiver)).joined (o := .member) le_rfl
      (.name _)
  | .call none name args =>
    (Bounded.name _).append (.group (closed_args args))
  | .call (some receiver) name args => by
    rw [pieces_call, receiverPieces_some, List.append_assoc]
    exact (bounded_piecesAt primaryLevel (bounded_pieces receiver)).joined le_rfl
      ((Bounded.name _).append (.group (closed_args args)))
  | .create ty args =>
    Bounded.new.append ((Bounded.name _).append (.group (closed_args args)))
  | .assign target op value =>
    ((bounded_piecesAt primaryLevel (bounded_pieces target)).mono
      (Nat.succ_le_succ (Nat.zero_le _))).joined (o := .assign op) le_rfl
        (bounded_piecesAt assignLevel (bounded_pieces value))
  | .binary op lhs rhs =>
    (bounded_piecesAt op.precedence (bounded_pieces lhs)).joined (o := .binary op) le_rfl
      ((bounded_piecesAt (op.precedence + 1) (bounded_pieces rhs)).mono (Nat.le_succ _))
  | .unary op operand => by
    have hoperand := bounded_pieces operand
    cases hop : op.isPostfix with
    | true =>
      rw [pieces_trailing operand hop]
      exact ((bounded_piecesAt primaryLevel hoperand).mono (Nat.le_succ _)).append (.op le_rfl)
    | false =>
      rw [pieces_leading operand hop]
      exact (Bounded.op (o := .unary op) le_rfl).append (bounded_piecesAt unaryLevel hoperand)
  | .cast ty operand =>
    (Bounded.casting ty le_rfl).append (bounded_piecesAt unaryLevel (bounded_pieces operand))

theorem closed_args : ∀ args : List Expr, Closed (argPieces args)
  | [] => .nil
  | [e] => by
    rw [argPieces_singleton]
    exact (bounded_pieces e).toClosed
  | e :: e' :: rest => by
    rw [argPieces_cons_cons]
    exact (bounded_pieces e).toClosed.append ((Closed.op .comma).append (closed_args (e' :: rest)))

end

/-- The outermost operator of an expression is exposed. -/
theorem exists_exposed {e : Expr} (h : e.isAtom = false) :
    ∃ t ∈ exposed 0 e.pieces, t.rank = e.level + 1 := by
  have hclosed : ∀ (x : Expr) least, Closed (x.piecesAt least) := fun x least =>
    (bounded_piecesAt least x.bounded_pieces).toClosed
  cases e with
  | literal => cases h
  | ident => cases h
  | this => cases h
  | create => cases h
  | field receiver name => exact ⟨_, (hclosed receiver _).mem_exposed_op .member, rfl⟩
  | call receiver name args =>
    cases receiver with
    | none => cases h
    | some receiver =>
      rw [pieces_call, receiverPieces_some, List.append_assoc]
      exact ⟨_, (hclosed receiver _).mem_exposed_op .member, rfl⟩
  | assign target op value => exact ⟨_, (hclosed target _).mem_exposed_op (.assign op), rfl⟩
  | binary op lhs rhs => exact ⟨_, (hclosed lhs _).mem_exposed_op (.binary op), rfl⟩
  | unary op operand =>
    cases hop : op.isPostfix with
    | true =>
      rw [pieces_trailing operand hop]
      exact ⟨_, (hclosed operand _).mem_exposed_op (.unary op), rfl⟩
    | false =>
      rw [pieces_leading operand hop]
      exact ⟨_, List.mem_cons_self, rfl⟩
  | cast ty operand => exact ⟨.casting, List.mem_cons_self, rfl⟩

theorem rank_le_of_pieces {e e' : Expr} (h : e.pieces = e'.pieces) : e.rank ≤ e'.rank := by
  cases hatom : e'.isAtom with
  | true =>
    rw [rank, rank, if_pos hatom]
    split
    next => exact le_rfl
    next => exact Nat.succ_le_succ (e.level_le.trans (Nat.le_succ _))
  | false =>
    obtain ⟨t, ht, hrank⟩ := exists_exposed hatom
    have hsame : e'.rank = t.rank := by rw [rank, if_neg (by simp [hatom]), hrank]
    rw [hsame]
    exact e.bounded_pieces.bound t (h ▸ ht)

theorem level_of_isAtom {e : Expr} (h : e.isAtom = true) : e.level = primaryLevel := by
  cases e with
  | assign => cases h
  | binary => cases h
  | unary => cases h
  | cast => cases h
  | _ => rfl

/-- The pieces tell how tightly the outermost form binds, and whether it has an operator. -/
theorem form_of_pieces {e e' : Expr} (h : e.pieces = e'.pieces) :
    e.level = e'.level ∧ e.isAtom = e'.isAtom := by
  have hrank : e.rank = e'.rank := (rank_le_of_pieces h).antisymm (rank_le_of_pieces h.symm)
  have hle := e.level_le
  have hle' := e'.level_le
  unfold rank at hrank
  cases hatom : e.isAtom <;> cases hatom' : e'.isAtom <;>
    simp only [hatom, hatom', ↓reduceIte, Bool.false_eq_true] at hrank
  · exact ⟨Nat.succ.inj hrank, rfl⟩
  · omega
  · omega
  · exact ⟨(level_of_isAtom hatom).trans (level_of_isAtom hatom').symm, rfl⟩

theorem enclosed_ne_pieces (e e' : Expr) : .opening :: (e.pieces ++ [.closing]) ≠ e'.pieces := by
  intro h
  cases hatom : e'.isAtom with
  | false =>
    obtain ⟨t, ht, -⟩ := exists_exposed hatom
    rw [← h, e.bounded_pieces.toClosed.exposed_group] at ht
    cases ht
  | true =>
    cases e' with
    | literal l => cases l <;> cases (List.cons.inj h).1
    | ident => cases (List.cons.inj h).1
    | this => cases (List.cons.inj h).1
    | call receiver =>
      cases receiver with
      | none => cases (List.cons.inj h).1
      | some => cases hatom
    | create => cases (List.cons.inj h).1
    | _ => cases hatom

theorem pieces_of_piecesAt {least : Nat} {e e' : Expr}
    (h : e.piecesAt least = e'.piecesAt least) : e.pieces = e'.pieces := by
  unfold piecesAt enclose at h
  split at h <;> split at h
  · exact List.append_cancel_right (List.cons.inj h).2
  · exact absurd h (enclosed_ne_pieces e e')
  · exact absurd h.symm (enclosed_ne_pieces e' e)
  · exact h

end Expr

end VersionWeave
