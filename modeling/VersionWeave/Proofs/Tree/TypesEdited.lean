import VersionWeave.Proofs.Tree.Types

namespace VersionWeave

/-- An editor that turns types of one property into types of another, and adds no others. -/
structure Editor.Carries (ed : Editor) (P Q : TypeRef → Prop) : Prop where
  type : ∀ t : TypeRef, t.outline.Types P → (ed.type t).outline.Types Q
  expr : ∀ e, e.outline.Types Q → (ed.expr e).outline.Types Q
  stmt : ∀ h x, x.outline.Types Q → Outline.AllTypes Q (Stmt.outlines (ed.stmt h x).toList)

theorem Edit.types_single {Q : TypeRef → Prop} {e : Edit Stmt}
    (h : Outline.AllTypes Q (Stmt.outlines e.toList)) : e.single.outline.Types Q := by
  cases e with
  | keep x => simpa [Edit.single, Edit.toList, Stmt.outlines] using h
  | remove => simp [Edit.single, Stmt.outline, Node.OnType]
  | splice xs => simpa [Edit.single, Edit.toList, Stmt.outline, Node.OnType] using h

namespace Editor.Carries

variable {ed : Editor} {P Q : TypeRef → Prop} (hc : ed.Carries P Q)
include hc

mutual

theorem exprParts : ∀ e : Expr, e.outline.Types P → (e.editParts ed).outline.Types Q
  | .literal _, _ | .ident _, _ | .this, _ => by
    simp [Expr.editParts, Expr.outline, Node.OnType]
  | .field e _, h => by
    simp only [Expr.outline, Outline.types_node, Outline.allTypes_cons] at h
    simp [Expr.editParts, Expr.outline, Node.OnType, hc.expr _ (exprParts e h.1.1.1.1)]
  | .call receiver _ args, h => by
    simp only [Expr.outline, Outline.types_node, Outline.allTypes_cons, Outline.allTypes_append] at h
    simp [Expr.editParts, Expr.outline, Node.OnType, exprOption receiver h.1.1.1.1,
      exprs args h.1.1.1.2]
  | .create ty args, h => by
    simp only [Expr.outline, Outline.types_node, Outline.allTypes_cons] at h
    simp [Expr.editParts, Expr.outline, Node.OnType, hc.type ty h.1.1, exprs args h.1.2]
  | .assign target _ value, h => by
    simp only [Expr.outline, Outline.types_node, Outline.allTypes_cons] at h
    simp [Expr.editParts, Expr.outline, Node.OnType, exprParts target h.1.1,
      hc.expr _ (exprParts value h.1.2.1)]
  | .binary _ lhs rhs, h => by
    simp only [Expr.outline, Outline.types_node, Outline.allTypes_cons] at h
    simp [Expr.editParts, Expr.outline, Node.OnType, hc.expr _ (exprParts lhs h.1.1),
      hc.expr _ (exprParts rhs h.1.2.1)]
  | .unary op operand, h => by
    simp only [Expr.outline, Outline.types_node, Outline.allTypes_cons] at h
    have hoperand := exprParts operand h.1.1
    cases hw : op.writes <;>
      simp [Expr.editParts, Expr.outline, Node.OnType, hw, hoperand, hc.expr _ hoperand]
  | .cast ty operand, h => by
    simp only [Expr.outline, Outline.types_node, Outline.allTypes_cons] at h
    simp [Expr.editParts, Expr.outline, Node.OnType, hc.type ty h.1.1,
      hc.expr _ (exprParts operand h.1.2.1)]

theorem exprOption : ∀ e : Option Expr, Outline.AllTypes P (Expr.optionOutline e) →
    Outline.AllTypes Q (Expr.optionOutline (Expr.editOption ed e))
  | none, _ => Outline.allTypes_nil
  | some e, h => by
    simp only [Expr.optionOutline, Outline.allTypes_cons] at h
    simp [Expr.editOption, Expr.optionOutline, hc.expr _ (exprParts e h.1)]

theorem exprs : ∀ es : List Expr, Outline.AllTypes P (Expr.outlines es) →
    Outline.AllTypes Q (Expr.outlines (Expr.editAll ed es))
  | [], _ => Outline.allTypes_nil
  | e :: rest, h => by
    simp only [Expr.outlines, Outline.allTypes_cons] at h
    simp [Expr.editAll, Expr.outlines, hc.expr _ (exprParts e h.1), exprs rest h.2]

end

theorem wholeExpr (e : Expr) (h : e.outline.Types P) : (e.edit ed).outline.Types Q :=
  hc.expr _ (hc.exprParts e h)

theorem declarators (ds : List Declarator) (h : Outline.AllTypes P (Declarator.outlines ds)) :
    Outline.AllTypes Q (Declarator.outlines (Declarator.editAll ed ds)) := by
  induction ds with
  | nil => exact Outline.allTypes_nil
  | cons d rest ih =>
    simp only [Declarator.outlines, Declarator.editAll, List.flatMap_cons, List.map_cons,
      Outline.allTypes_append] at h ih ⊢
    exact ⟨hc.exprOption d.init h.1, ih h.2⟩

theorem singleStmt (n : Nat) {x : Stmt} (h : x.outline.Types Q) :
    (ed.stmt n x).single.outline.Types Q :=
  Edit.types_single (hc.stmt n x h)

mutual

theorem stmtParts : ∀ (x : Stmt) (n : Nat), x.outline.Types P → (x.editParts ed n).outline.Types Q
  | .expr e, _, h => by
    simp only [Stmt.outline, Outline.types_node, Outline.allTypes_cons] at h
    simp [Stmt.editParts, Stmt.outline, Node.OnType, hc.wholeExpr e h.1.1]
  | .vars v, _, h => by
    simp only [Stmt.outline, LocalVars.outline, Outline.types_node, Outline.allTypes_cons] at h
    simp [Stmt.editParts, Stmt.outline, LocalVars.outline, LocalVars.edit, Node.OnType,
      hc.type v.ty h.1.1.1.1, hc.declarators _ h.1.1.1.2]
  | .block stmts, n, h => by
    simp only [Stmt.outline, Outline.types_node, Outline.allTypes_cons] at h
    simp [Stmt.editParts, Stmt.outline, Node.OnType, block stmts n h.1.1.1]
  | .ifElse cond thenBranch elseBranch, n, h => by
    simp only [Stmt.outline, Outline.types_node, Outline.allTypes_cons] at h
    simp [Stmt.editParts, Stmt.outline, Node.OnType, hc.wholeExpr cond h.1.1,
      hc.singleStmt n (stmtParts thenBranch n h.1.2.1), stmtOption elseBranch n h.1.2.2]
  | .whileLoop cond body, n, h => by
    simp only [Stmt.outline, Outline.types_node, Outline.allTypes_cons] at h
    simp [Stmt.editParts, Stmt.outline, Node.OnType, hc.wholeExpr cond h.1.1,
      hc.singleStmt n (stmtParts body n h.1.2.1)]
  | .forLoop init cond update body, n, h => by
    simp only [Stmt.outline, Outline.types_node, Outline.allTypes_cons, Outline.allTypes_append] at h
    obtain ⟨⟨⟨⟨hinit, hcond⟩, hupdate⟩, hbody, -⟩, -⟩ := h
    simp [Stmt.editParts, Stmt.outline, Node.OnType, block init (n + 1) hinit,
      hc.exprOption cond hcond, hc.exprs update hupdate, hc.singleStmt n (stmtParts body n hbody)]
  | .ret value, _, h => by
    simp only [Stmt.outline, Outline.types_node] at h
    simp [Stmt.editParts, Stmt.outline, Node.OnType, hc.exprOption value h.1]
  | .switch selector cases, n, h => by
    simp only [Stmt.outline, Outline.types_node, Outline.allTypes_cons] at h
    simp [Stmt.editParts, Stmt.outline, Node.OnType, hc.wholeExpr selector h.1.1, arms cases n h.1.2]
  | .throw e, _, h => by
    simp only [Stmt.outline, Outline.types_node, Outline.allTypes_cons] at h
    simp [Stmt.editParts, Stmt.outline, Node.OnType, hc.wholeExpr e h.1.1]
  | .breakOut, _, _ | .continueOn, _, _ | .empty, _, _ => by
    simp [Stmt.editParts, Stmt.outline, Node.OnType]

theorem stmtOption : ∀ (x : Option Stmt) (n : Nat), Outline.AllTypes P (Stmt.optionOutline x) →
    Outline.AllTypes Q (Stmt.optionOutline (Stmt.editOption ed n x))
  | none, _, _ => Outline.allTypes_nil
  | some x, n, h => by
    simp only [Stmt.optionOutline, Outline.allTypes_cons] at h
    simp [Stmt.editOption, Stmt.optionOutline, hc.singleStmt n (stmtParts x n h.1)]

theorem block : ∀ (xs : List Stmt) (n : Nat), Outline.AllTypes P (Stmt.outlines xs) →
    Outline.AllTypes Q (Stmt.outlines (Stmt.editAll ed n xs))
  | [], _, _ => Outline.allTypes_nil
  | x :: rest, n, h => by
    simp only [Stmt.outlines, Outline.allTypes_cons] at h
    simp only [Stmt.editAll, Stmt.outlines_append, Outline.allTypes_append]
    exact ⟨hc.stmt n _ (stmtParts x n h.1), block rest n h.2⟩

theorem arms : ∀ (cs : List SwitchCase) (n : Nat), Outline.AllTypes P (SwitchCase.outlines cs) →
    Outline.AllTypes Q (SwitchCase.outlines (SwitchCase.editAll ed n cs))
  | [], _, _ => Outline.allTypes_nil
  | ⟨labels, body⟩ :: rest, n, h => by
    simp only [SwitchCase.outlines, Outline.allTypes_append] at h
    simp only [SwitchCase.editAll, SwitchCase.outlines, Outline.allTypes_append]
    exact ⟨⟨hc.exprs labels h.1.1, block body n h.1.2⟩, arms rest n h.2⟩

end

theorem params (ps : List Param) (h : ∀ p ∈ ps, p.ty.outline.Types P) :
    ∀ p ∈ ps.map (Param.edit ed), p.ty.outline.Types Q := by
  intro p hp
  obtain ⟨q, hq, rfl⟩ := List.mem_map.mp hp
  exact hc.type q.ty (h q hq)

theorem field (f : FieldDecl) (h : f.outline.Types P) : (f.edit ed).outline.Types Q := by
  obtain ⟨hty, hinit⟩ := f.types_iff.mp h
  exact (FieldDecl.types_iff _).mpr ⟨hc.type f.ty hty, hc.declarators _ hinit⟩

theorem method (m : MethodDecl) (h : m.outline.Types P) : (m.edit ed).outline.Types Q := by
  obtain ⟨hreturn, hparams, hbody⟩ := m.types_iff.mp h
  refine (MethodDecl.types_iff _).mpr
    ⟨hc.type m.returnType hreturn, hc.params m.params hparams, fun b hb => ?_⟩
  obtain ⟨b', hb', rfl⟩ := Option.map_eq_some_iff.mp hb
  exact hc.block b' 0 (hbody b' hb')

theorem constructorDecl (c : ConstructorDecl) (h : c.outline.Types P) :
    (c.edit ed).outline.Types Q := by
  obtain ⟨hparams, hbody⟩ := c.types_iff.mp h
  exact (ConstructorDecl.types_iff _).mpr ⟨hc.params c.params hparams, hc.block c.body 0 hbody⟩

end Editor.Carries

end VersionWeave
