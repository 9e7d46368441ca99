import VersionWeave.Proofs.Tree.Editor
import VersionWeave.Proofs.Tree.Visitor

namespace VersionWeave

variable {σ ι : Type}

/--
A revision that does what an editor does and keeps its place in the state: the scope, the number of
loop headers around, and the notes so far.
-/
structure Reviser.Follows (r : Reviser σ) (ed : Scope → Editor) (notes : Scope → Notes ι)
    (state : Scope → Nat → List ι → σ) : Prop where
  enterType : ∀ t s h l, (r.enterType t).run (state s h l) = ((), state (s.enterType t.name) h l)
  leaveType : ∀ t s h l, (r.leaveType t).run (state s h l) = ((), state s.pop h l)
  enterMethod : ∀ m s h l, (r.enterMethod m).run (state s h l) = ((), state (s.enterMethod m) h l)
  leaveMethod : ∀ m s h l, (r.leaveMethod m).run (state s h l) = ((), state s.pop h l)
  enterConstructor : ∀ c s h l,
    (r.enterConstructor c).run (state s h l) = ((), state s.enterConstructor h l)
  leaveConstructor : ∀ c s h l, (r.leaveConstructor c).run (state s h l) = ((), state s.pop h l)
  enterForInit : ∀ s h l, r.enterForInit.run (state s h l) = ((), state s (h + 1) l)
  leaveForInit : ∀ s h l, r.leaveForInit.run (state s (h + 1) l) = ((), state s h l)
  unit : ∀ u, r.unit u = pure u
  typeDecl : ∀ t, r.typeDecl t = pure t
  member : ∀ m, r.member m = pure (.keep m)
  target : ∀ e, r.target e = pure e
  type : ∀ t s h l, (TypeRef.revise r t).run (state s h l) = ((ed s).type t, state s h l)
  expr : ∀ e s h l,
    (r.expr e).run (state s h l) = ((ed s).expr e, state s h (l ++ (notes s).expr e))
  stmt : ∀ x s h l,
    (r.stmt x).run (state s h l) = ((ed s).stmt h x, state s h (l ++ (notes s).stmt h x))

namespace Reviser.Follows

variable {r : Reviser σ} {ed : Scope → Editor} {notes : Scope → Notes ι}
  {state : Scope → Nat → List ι → σ}

mutual

theorem run_exprParts (hr : r.Follows ed notes state) (s : Scope) (h : Nat) :
    ∀ (e : Expr) (l : List ι),
    (e.reviseParts r).run (state s h l) =
      (e.editParts (ed s), state s h (l ++ e.partNotes (ed s) (notes s)))
  | .literal _, l | .ident _, l | .this, l => by
    simp only [Expr.reviseParts, Expr.editParts, Expr.partNotes, run_pure, List.append_nil]
  | .field e _, l => by
    simp only [Expr.reviseParts, Expr.editParts, Expr.partNotes, run_bind, run_pure,
      hr.run_exprParts s h e, hr.expr, List.append_assoc]
  | .call receiver _ args, l => by
    simp only [Expr.reviseParts, Expr.editParts, Expr.partNotes, run_bind, run_pure,
      hr.run_exprOption s h receiver, hr.run_exprAll s h args, List.append_assoc]
  | .create _ args, l => by
    simp only [Expr.reviseParts, Expr.editParts, Expr.partNotes, run_bind, run_pure, hr.type,
      hr.run_exprAll s h args]
  | .assign target _ value, l => by
    simp only [Expr.reviseParts, Expr.editParts, Expr.partNotes, run_bind, run_pure, hr.target,
      hr.run_exprParts s h target, hr.run_exprParts s h value, hr.expr, List.append_assoc]
  | .binary _ lhs rhs, l => by
    simp only [Expr.reviseParts, Expr.editParts, Expr.partNotes, run_bind, run_pure,
      hr.run_exprParts s h lhs, hr.run_exprParts s h rhs, hr.expr, List.append_assoc]
  | .unary op operand, l => by
    cases hw : op.writes with
    | true =>
      simp only [Expr.reviseParts, Expr.editParts, Expr.partNotes, run_bind, run_pure, hw,
        if_true, hr.run_exprParts s h operand, hr.target, List.append_nil]
    | false =>
      simp only [Expr.reviseParts, Expr.editParts, Expr.partNotes, run_bind, run_pure, hw,
        Bool.false_eq_true, if_false, hr.run_exprParts s h operand, hr.expr, List.append_assoc]
  | .cast _ operand, l => by
    simp only [Expr.reviseParts, Expr.editParts, Expr.partNotes, run_bind, run_pure, hr.type,
      hr.run_exprParts s h operand, hr.expr, List.append_assoc]

theorem run_exprOption (hr : r.Follows ed notes state) (s : Scope) (h : Nat) :
    ∀ (e : Option Expr) (l : List ι),
    (Expr.reviseOption r e).run (state s h l) =
      (Expr.editOption (ed s) e, state s h (l ++ Expr.optionNotes (ed s) (notes s) e))
  | none, l => by
    simp only [Expr.reviseOption, Expr.editOption, Expr.optionNotes, run_pure, List.append_nil]
  | some e, l => by
    simp only [Expr.reviseOption, Expr.editOption, Expr.optionNotes, run_bind, run_pure,
      hr.run_exprParts s h e, hr.expr, List.append_assoc]

theorem run_exprAll (hr : r.Follows ed notes state) (s : Scope) (h : Nat) :
    ∀ (es : List Expr) (l : List ι),
    (Expr.reviseAll r es).run (state s h l) =
      (Expr.editAll (ed s) es, state s h (l ++ Expr.allNotes (ed s) (notes s) es))
  | [], l => by simp only [Expr.reviseAll, Expr.editAll, Expr.allNotes, run_pure, List.append_nil]
  | e :: rest, l => by
    simp only [Expr.reviseAll, Expr.editAll, Expr.allNotes, run_bind, run_pure,
      hr.run_exprParts s h e, hr.expr, hr.run_exprAll s h rest, List.append_assoc]

end

theorem run_expr (hr : r.Follows ed notes state) (s : Scope) (h : Nat) (e : Expr) (l : List ι) :
    (e.revise r).run (state s h l) =
      (e.edit (ed s), state s h (l ++ e.notes (ed s) (notes s))) := by
  simp only [Expr.revise, Expr.edit, Expr.notes, run_bind, hr.run_exprParts s h e, hr.expr,
    List.append_assoc]

theorem run_declarators (hr : r.Follows ed notes state) (s : Scope) (h : Nat)
    (ds : List Declarator) (l : List ι) :
    (Declarator.reviseAll r ds).run (state s h l) =
      (Declarator.editAll (ed s) ds, state s h (l ++ Declarator.allNotes (ed s) (notes s) ds)) := by
  induction ds generalizing l with
  | nil =>
    simp only [Declarator.reviseAll, Declarator.editAll, Declarator.allNotes, run_pure,
      List.map_nil, List.flatMap_nil, List.append_nil]
  | cons d rest ih =>
    simp only [Declarator.reviseAll, run_bind, run_pure, hr.run_exprOption s h d.init, ih,
      Declarator.editAll, Declarator.allNotes, List.map_cons, List.flatMap_cons, List.append_assoc]

theorem run_params (hr : r.Follows ed notes state) (s : Scope) (h : Nat) (ps : List Param)
    (l : List ι) :
    (Param.reviseAll r ps).run (state s h l) = (ps.map (Param.edit (ed s)), state s h l) := by
  induction ps with
  | nil => simp only [Param.reviseAll, run_pure, List.map_nil]
  | cons p rest ih =>
    simp only [Param.reviseAll, run_bind, run_pure, hr.type, ih, Param.edit, List.map_cons]

theorem run_types (hr : r.Follows ed notes state) (s : Scope) (h : Nat) (ts : List TypeRef)
    (l : List ι) :
    (TypeRef.reviseAll r ts).run (state s h l) = (ts.map (ed s).type, state s h l) := by
  induction ts with
  | nil => simp only [TypeRef.reviseAll, run_pure, List.map_nil]
  | cons t rest ih => simp only [TypeRef.reviseAll, run_bind, run_pure, hr.type, ih, List.map_cons]

theorem run_typeOption (hr : r.Follows ed notes state) (s : Scope) (h : Nat) (t : Option TypeRef)
    (l : List ι) :
    (TypeRef.reviseOption r t).run (state s h l) = (t.map (ed s).type, state s h l) := by
  cases t with
  | none => simp only [TypeRef.reviseOption, run_pure, Option.map_none]
  | some t => simp only [TypeRef.reviseOption, run_bind, run_pure, hr.type, Option.map_some]

theorem run_field (hr : r.Follows ed notes state) (s : Scope) (h : Nat) (f : FieldDecl) (l : List ι) :
    (f.revise r).run (state s h l) =
      (f.edit (ed s), state s h (l ++ Declarator.allNotes (ed s) (notes s) f.declarators)) := by
  simp only [FieldDecl.revise, run_bind, run_pure, hr.type, hr.run_declarators, FieldDecl.edit]

mutual

theorem run_stmtParts (hr : r.Follows ed notes state) (s : Scope) : ∀ (x : Stmt) (h : Nat) (l : List ι),
    (x.reviseParts r).run (state s h l) =
      (x.editParts (ed s) h, state s h (l ++ x.partNotes (ed s) (notes s) h))
  | .expr e, h, l => by
    simp only [Stmt.reviseParts, Stmt.editParts, Stmt.partNotes, run_bind, run_pure,
      hr.run_expr s h e]
  | .vars v, h, l => by
    simp only [Stmt.reviseParts, LocalVars.revise, Stmt.editParts, LocalVars.edit, Stmt.partNotes,
      run_bind, run_pure, hr.type, hr.run_declarators s h v.declarators]
  | .block stmts, h, l => by
    simp only [Stmt.reviseParts, Stmt.editParts, Stmt.partNotes, run_bind, run_pure,
      hr.run_stmtAll s stmts h]
  | .ifElse cond thenBranch elseBranch, h, l => by
    simp only [Stmt.reviseParts, Stmt.editParts, Stmt.partNotes, run_bind, run_pure,
      hr.run_expr s h cond, hr.run_stmtParts s thenBranch h, hr.stmt, hr.run_stmtOption s elseBranch h,
      List.append_assoc]
  | .whileLoop cond body, h, l => by
    simp only [Stmt.reviseParts, Stmt.editParts, Stmt.partNotes, run_bind, run_pure,
      hr.run_expr s h cond, hr.run_stmtParts s body h, hr.stmt, List.append_assoc]
  | .forLoop init cond update body, h, l => by
    simp only [Stmt.reviseParts, Stmt.editParts, Stmt.partNotes, run_bind, run_pure,
      hr.enterForInit, hr.run_stmtAll s init (h + 1), hr.leaveForInit, hr.run_exprOption s h cond,
      hr.run_exprAll s h update, hr.run_stmtParts s body h, hr.stmt, List.append_assoc]
  | .ret value, h, l => by
    simp only [Stmt.reviseParts, Stmt.editParts, Stmt.partNotes, run_bind, run_pure,
      hr.run_exprOption s h value]
  | .switch selector cases, h, l => by
    simp only [Stmt.reviseParts, Stmt.editParts, Stmt.partNotes, run_bind, run_pure,
      hr.run_expr s h selector, hr.run_caseAll s cases h, List.append_assoc]
  | .throw e, h, l => by
    simp only [Stmt.reviseParts, Stmt.editParts, Stmt.partNotes, run_bind, run_pure,
      hr.run_expr s h e]
  | .breakOut, h, l | .continueOn, h, l | .empty, h, l => by
    simp only [Stmt.reviseParts, Stmt.editParts, Stmt.partNotes, run_pure, List.append_nil]

theorem run_stmtOption (hr : r.Follows ed notes state) (s : Scope) :
    ∀ (x : Option Stmt) (h : Nat) (l : List ι),
    (Stmt.reviseOption r x).run (state s h l) =
      (Stmt.editOption (ed s) h x, state s h (l ++ Stmt.optionNotes (ed s) (notes s) h x))
  | none, h, l => by
    simp only [Stmt.reviseOption, Stmt.editOption, Stmt.optionNotes, run_pure, List.append_nil]
  | some x, h, l => by
    simp only [Stmt.reviseOption, Stmt.editOption, Stmt.optionNotes, run_bind, run_pure,
      hr.run_stmtParts s x h, hr.stmt, List.append_assoc]

theorem run_stmtAll (hr : r.Follows ed notes state) (s : Scope) :
    ∀ (xs : List Stmt) (h : Nat) (l : List ι),
    (Stmt.reviseAll r xs).run (state s h l) =
      (Stmt.editAll (ed s) h xs, state s h (l ++ Stmt.allNotes (ed s) (notes s) h xs))
  | [], h, l => by
    simp only [Stmt.reviseAll, Stmt.editAll, Stmt.allNotes, run_pure, List.append_nil]
  | x :: rest, h, l => by
    simp only [Stmt.reviseAll, Stmt.editAll, Stmt.allNotes, run_bind, run_pure,
      hr.run_stmtParts s x h, hr.stmt, hr.run_stmtAll s rest h, List.append_assoc]

theorem run_caseAll (hr : r.Follows ed notes state) (s : Scope) :
    ∀ (cs : List SwitchCase) (h : Nat) (l : List ι),
    (SwitchCase.reviseAll r cs).run (state s h l) =
      (SwitchCase.editAll (ed s) h cs, state s h (l ++ SwitchCase.allNotes (ed s) (notes s) h cs))
  | [], h, l => by
    simp only [SwitchCase.reviseAll, SwitchCase.editAll, SwitchCase.allNotes, run_pure,
      List.append_nil]
  | ⟨labels, body⟩ :: rest, h, l => by
    simp only [SwitchCase.reviseAll, SwitchCase.editAll, SwitchCase.allNotes, run_bind, run_pure,
      hr.run_exprAll s h labels, hr.run_stmtAll s body h, hr.run_caseAll s rest h, List.append_assoc]

end

theorem run_method (hr : r.Follows ed notes state) (s : Scope) (m : MethodDecl) (l : List ι) :
    (m.revise r).run (state s 0 l) =
      (m.edit (ed (s.enterMethod m)), state s 0 (l ++ Stmt.allNotes (ed (s.enterMethod m))
        (notes (s.enterMethod m)) 0 (m.body.getD []))) := by
  have hpop : (s.enterMethod m).pop = s := rfl
  cases hb : m.body with
  | none =>
    simp only [MethodDecl.revise, run_bind, run_pure, hr.enterMethod, hr.leaveMethod, hr.type,
      hr.run_params, hb, Block.reviseOption, MethodDecl.edit, hpop, Option.getD_none, Stmt.allNotes,
      List.append_nil, Option.map_none]
  | some b =>
    simp only [MethodDecl.revise, run_bind, run_pure, hr.enterMethod, hr.leaveMethod, hr.type,
      hr.run_params, hb, Block.reviseOption, hr.run_stmtAll, MethodDecl.edit, hpop, Option.getD_some,
      Option.map_some]

theorem run_constructor (hr : r.Follows ed notes state) (s : Scope) (c : ConstructorDecl)
    (l : List ι) :
    (c.revise r).run (state s 0 l) =
      (c.edit (ed s.enterConstructor), state s 0 (l ++ Stmt.allNotes (ed s.enterConstructor)
        (notes s.enterConstructor) 0 c.body)) := by
  have hpop : s.enterConstructor.pop = s := rfl
  simp only [ConstructorDecl.revise, run_bind, run_pure, hr.enterConstructor, hr.leaveConstructor,
    hr.run_params, hr.run_stmtAll, ConstructorDecl.edit, hpop]

mutual

theorem run_member (hr : r.Follows ed notes state) : ∀ (m : Member) (s : Scope) (l : List ι),
    (m.revise r).run (state s 0 l) =
      (.keep (m.edit ed s), state s 0 (l ++ m.notes ed notes s))
  | .field f, s, l => by
    simp only [Member.revise, Member.edit, Member.notes, run_bind, run_pure, hr.member, hr.run_field]
  | .method m, s, l => by
    simp only [Member.revise, Member.edit, Member.notes, run_bind, run_pure, hr.member, hr.run_method]
  | .constructor c, s, l => by
    simp only [Member.revise, Member.edit, Member.notes, run_bind, run_pure, hr.member,
      hr.run_constructor]
  | .type t, s, l => by
    simp only [Member.revise, Member.edit, Member.notes, run_bind, run_pure, hr.member,
      hr.run_type t s]

theorem run_type (hr : r.Follows ed notes state) : ∀ (t : TypeDecl) (s : Scope) (l : List ι),
    (t.revise r).run (state s 0 l) = (t.edit ed s, state s 0 (l ++ t.notes ed notes s))
  | ⟨kind, modifiers, name, superclass, interfaces, members⟩, s, l => by
    have hpop : (s.enterType name).pop = s := rfl
    simp only [TypeDecl.revise, TypeDecl.edit, TypeDecl.notes, run_bind, run_pure, hr.enterType,
      hr.leaveType, hr.run_typeOption, hr.run_types, hr.run_memberAll members, hr.typeDecl, hpop]

theorem run_memberAll (hr : r.Follows ed notes state) : ∀ (ms : List Member) (s : Scope) (l : List ι),
    (Member.reviseAll r ms).run (state s 0 l) =
      (Member.editAll ed s ms, state s 0 (l ++ Member.allNotes ed notes s ms))
  | [], s, l => by
    simp only [Member.reviseAll, Member.editAll, Member.allNotes, run_pure, List.append_nil]
  | m :: rest, s, l => by
    simp only [Member.reviseAll, Member.editAll, Member.allNotes, run_bind, run_pure,
      hr.run_member m s, hr.run_memberAll rest s, Edit.toList, List.cons_append, List.nil_append,
      List.append_assoc]

end

/-- The whole run: the editor's tree, the scope as it was, and the editor's notes. -/
theorem run_unit (hr : r.Follows ed notes state) (u : CompilationUnit) (s : Scope) (l : List ι) :
    (u.revise r).run (state s 0 l) = (u.edit ed s, state s 0 (l ++ u.notes ed notes s)) := by
  have hall : ∀ (ts : List TypeDecl) (l : List ι),
      (TypeDecl.reviseAll r ts).run (state s 0 l) =
        (ts.map (TypeDecl.edit ed s), state s 0 (l ++ ts.flatMap (TypeDecl.notes ed notes s))) := by
    intro ts
    induction ts with
    | nil => intro l; simp only [TypeDecl.reviseAll, run_pure, List.map_nil, List.flatMap_nil,
        List.append_nil]
    | cons t rest ih =>
      intro l
      simp only [TypeDecl.reviseAll, run_bind, run_pure, hr.run_type t s, ih, List.map_cons,
        List.flatMap_cons, List.append_assoc]
  simp only [CompilationUnit.revise, run_bind, run_pure, hall, hr.unit, CompilationUnit.edit,
    CompilationUnit.notes]

end Reviser.Follows

end VersionWeave
