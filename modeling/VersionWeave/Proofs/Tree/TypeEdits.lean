import VersionWeave.Proofs.Tree.Count

namespace VersionWeave

variable {ed ed' : Editor}

mutual

theorem Expr.editParts_congr (ht : ed.type = ed'.type) (he : ed.expr = ed'.expr) :
    ∀ e : Expr, e.editParts ed = e.editParts ed'
  | .literal _ | .ident _ | .this => rfl
  | .field e _ => by simp only [Expr.editParts, Expr.editParts_congr ht he e, he]
  | .call receiver _ args => by
    simp only [Expr.editParts, Expr.editOption_congr ht he receiver, Expr.editAll_congr ht he args]
  | .create _ args => by simp only [Expr.editParts, Expr.editAll_congr ht he args, ht]
  | .assign target _ value => by
    simp only [Expr.editParts, Expr.editParts_congr ht he target, Expr.editParts_congr ht he value,
      he]
  | .binary _ lhs rhs => by
    simp only [Expr.editParts, Expr.editParts_congr ht he lhs, Expr.editParts_congr ht he rhs, he]
  | .unary _ operand => by simp only [Expr.editParts, Expr.editParts_congr ht he operand, he]
  | .cast _ operand => by simp only [Expr.editParts, Expr.editParts_congr ht he operand, ht, he]

theorem Expr.editOption_congr (ht : ed.type = ed'.type) (he : ed.expr = ed'.expr) :
    ∀ e : Option Expr, Expr.editOption ed e = Expr.editOption ed' e
  | none => rfl
  | some e => by simp only [Expr.editOption, Expr.editParts_congr ht he e, he]

theorem Expr.editAll_congr (ht : ed.type = ed'.type) (he : ed.expr = ed'.expr) :
    ∀ es : List Expr, Expr.editAll ed es = Expr.editAll ed' es
  | [] => rfl
  | e :: rest => by
    simp only [Expr.editAll, Expr.editParts_congr ht he e, Expr.editAll_congr ht he rest, he]

end

theorem Expr.edit_congr (ht : ed.type = ed'.type) (he : ed.expr = ed'.expr) (e : Expr) :
    e.edit ed = e.edit ed' := by
  simp only [Expr.edit, Expr.editParts_congr ht he, he]

theorem Declarator.editAll_congr (ht : ed.type = ed'.type) (he : ed.expr = ed'.expr)
    (ds : List Declarator) : Declarator.editAll ed ds = Declarator.editAll ed' ds := by
  simp only [Declarator.editAll, Expr.editOption_congr ht he]

mutual

theorem Expr.editParts_id (ht : ed.type = id) (he : ed.expr = id) :
    ∀ e : Expr, e.editParts ed = e
  | .literal _ | .ident _ | .this => rfl
  | .field e _ => by simp only [Expr.editParts, Expr.editParts_id ht he e, he, id]
  | .call receiver _ args => by
    simp only [Expr.editParts, Expr.editOption_id ht he receiver, Expr.editAll_id ht he args]
  | .create _ args => by simp only [Expr.editParts, Expr.editAll_id ht he args, ht, id]
  | .assign target _ value => by
    simp only [Expr.editParts, Expr.editParts_id ht he target, Expr.editParts_id ht he value, he, id]
  | .binary _ lhs rhs => by
    simp only [Expr.editParts, Expr.editParts_id ht he lhs, Expr.editParts_id ht he rhs, he, id]
  | .unary _ operand => by
    simp only [Expr.editParts, Expr.editParts_id ht he operand, he, id, ite_self]
  | .cast _ operand => by simp only [Expr.editParts, Expr.editParts_id ht he operand, ht, he, id]

theorem Expr.editOption_id (ht : ed.type = id) (he : ed.expr = id) :
    ∀ e : Option Expr, Expr.editOption ed e = e
  | none => rfl
  | some e => by simp only [Expr.editOption, Expr.editParts_id ht he e, he, id]

theorem Expr.editAll_id (ht : ed.type = id) (he : ed.expr = id) :
    ∀ es : List Expr, Expr.editAll ed es = es
  | [] => rfl
  | e :: rest => by
    simp only [Expr.editAll, Expr.editParts_id ht he e, Expr.editAll_id ht he rest, he, id]

end

theorem Expr.edit_id (ht : ed.type = id) (he : ed.expr = id) (e : Expr) : e.edit ed = e := by
  simp only [Expr.edit, Expr.editParts_id ht he, he, id]

theorem Declarator.editAll_id (ht : ed.type = id) (he : ed.expr = id) (ds : List Declarator) :
    Declarator.editAll ed ds = ds := by
  simp only [Declarator.editAll, Expr.editOption_id ht he, List.map_id']

theorem Stmt.editAll_append (ed : Editor) (h : Nat) (xs ys : List Stmt) :
    Stmt.editAll ed h (xs ++ ys) = Stmt.editAll ed h xs ++ Stmt.editAll ed h ys := by
  induction xs with
  | nil => rfl
  | cons x rest ih => simp only [List.cons_append, Stmt.editAll, ih, List.append_assoc]

/-- An edit of types alone. -/
def Editor.onTypes (f : TypeRef → TypeRef) : Editor where
  type := f

theorem Editor.onTypes_addsCalls (f : TypeRef → TypeRef) (name : String) :
    (Editor.onTypes f).AddsCalls ({} : Notes Empty) name where
  expr _ := rfl
  single _ _ := rfl
  list _ x := by simp [Editor.onTypes, Edit.toList, Stmt.outlines]

end VersionWeave
