import VersionWeave.Proofs.Tree.Nodes

namespace VersionWeave

/-- A condition on nodes that asks something of types only. -/
def Node.OnType (P : TypeRef → Prop) : Node → Prop
  | .typeRef t => P t
  | _ => True

instance (P : TypeRef → Prop) [DecidablePred P] : DecidablePred (Node.OnType P) := fun n =>
  match n with
  | .typeRef t => inferInstanceAs (Decidable (P t))
  | .unit _ | .typeDecl _ | .member _ | .fieldDecl _ | .methodDecl _ | .constructorDecl _
  | .param _ | .block _ | .stmt _ | .localVars _ | .expr _ | .call _ _ _ | .fieldAccess _ _ =>
    inferInstanceAs (Decidable True)

namespace Outline

/-- Every type in an outline has the property, those among the arguments of another included. -/
def Types (P : TypeRef → Prop) (o : Outline) : Prop := ∀ n ∈ o.nodes, n.OnType P

def AllTypes (P : TypeRef → Prop) (os : List Outline) : Prop :=
  ∀ n ∈ Outline.allNodes os, n.OnType P

instance (P : TypeRef → Prop) [DecidablePred P] (o : Outline) : Decidable (o.Types P) :=
  inferInstanceAs (Decidable (∀ n ∈ o.nodes, n.OnType P))

variable {P Q : TypeRef → Prop}

@[simp] theorem types_node (n : Node) (children : List Outline) :
    (Outline.node n children).Types P ↔ AllTypes P children ∧ n.OnType P := by
  simp only [Types, AllTypes, Outline.nodes, List.forall_mem_append, List.forall_mem_singleton]

@[simp] theorem allTypes_nil : AllTypes P [] := by simp [AllTypes, Outline.allNodes]

@[simp] theorem allTypes_cons (o : Outline) (os : List Outline) :
    AllTypes P (o :: os) ↔ o.Types P ∧ AllTypes P os := by
  simp only [Types, AllTypes, Outline.allNodes, List.forall_mem_append]

@[simp] theorem allTypes_append (os ps : List Outline) :
    AllTypes P (os ++ ps) ↔ AllTypes P os ∧ AllTypes P ps := by
  simp only [AllTypes, Outline.allNodes_append, List.forall_mem_append]

theorem allTypes_iff {os : List Outline} : AllTypes P os ↔ ∀ o ∈ os, o.Types P := by
  induction os with
  | nil => simp
  | cons o rest ih => simp [ih]

@[simp] theorem allTypes_map {α : Type} (f : α → Outline) (items : List α) :
    AllTypes P (items.map f) ↔ ∀ a ∈ items, (f a).Types P := by
  simp [allTypes_iff]

theorem Types.mono (h : ∀ t, P t → Q t) {o : Outline} (ho : o.Types P) : o.Types Q := by
  intro n hn
  have hP := ho n hn
  cases n with
  | typeRef t => exact h t hP
  | _ => trivial

theorem Types.and {o : Outline} (hP : o.Types P) (hQ : o.Types Q) : o.Types fun t => P t ∧ Q t := by
  intro n hn
  have hboth := And.intro (hP n hn) (hQ n hn)
  cases n with
  | typeRef t => exact hboth
  | _ => trivial

end Outline

section

variable {P : TypeRef → Prop}

@[simp] theorem TypeRef.types_outline (name : String) (args : List TypeRef) (dims : UInt32) :
    (TypeRef.outline ⟨name, args, dims⟩).Types P ↔
      Outline.AllTypes P (TypeRef.outlines args) ∧ P ⟨name, args, dims⟩ := by
  simp [TypeRef.outline, Node.OnType]

theorem TypeRef.types_plain (name : String) : (TypeRef.plain name).outline.Types P ↔ P (.plain name) := by
  simp [TypeRef.plain, TypeRef.outlines]

theorem TypeRef.of_types {t : TypeRef} (h : t.outline.Types P) : P t := by
  obtain ⟨name, args, dims⟩ := t
  exact ((TypeRef.types_outline name args dims).mp h).2

theorem TypeRef.outlines_eq_map (ts : List TypeRef) : TypeRef.outlines ts = ts.map TypeRef.outline := by
  induction ts with
  | nil => rfl
  | cons t rest ih => rw [TypeRef.outlines, ih, List.map_cons]

theorem Member.outlines_eq_map (ms : List Member) : Member.outlines ms = ms.map Member.outline := by
  induction ms with
  | nil => rfl
  | cons m rest ih => rw [Member.outlines, ih, List.map_cons]

theorem Stmt.outlines_eq_map (xs : List Stmt) : Stmt.outlines xs = xs.map Stmt.outline := by
  induction xs with
  | nil => rfl
  | cons x rest ih => rw [Stmt.outlines, ih, List.map_cons]

theorem Param.types_iff (p : Param) : p.outline.Types P ↔ p.ty.outline.Types P := by
  simp [Param.outline, Node.OnType]

theorem FieldDecl.types_iff (f : FieldDecl) : f.outline.Types P ↔
    f.ty.outline.Types P ∧ Outline.AllTypes P (Declarator.outlines f.declarators) := by
  simp [FieldDecl.outline, Node.OnType]

theorem MethodDecl.types_iff (m : MethodDecl) : m.outline.Types P ↔ m.returnType.outline.Types P ∧
    (∀ p ∈ m.params, p.ty.outline.Types P) ∧
      ∀ b, m.body = some b → Outline.AllTypes P (Stmt.outlines b) := by
  simp [MethodDecl.outline, Block.outline, Param.types_iff, Node.OnType]

theorem ConstructorDecl.types_iff (c : ConstructorDecl) : c.outline.Types P ↔
    (∀ p ∈ c.params, p.ty.outline.Types P) ∧ Outline.AllTypes P (Stmt.outlines c.body) := by
  simp [ConstructorDecl.outline, Block.outline, Param.types_iff, Node.OnType]

@[simp] theorem Member.types_field (f : FieldDecl) :
    (Member.field f).outline.Types P ↔ f.outline.Types P := by
  simp [Member.outline, Node.OnType]

@[simp] theorem Member.types_method (m : MethodDecl) :
    (Member.method m).outline.Types P ↔ m.outline.Types P := by
  simp [Member.outline, Node.OnType]

@[simp] theorem Member.types_constructor (c : ConstructorDecl) :
    (Member.constructor c).outline.Types P ↔ c.outline.Types P := by
  simp [Member.outline, Node.OnType]

@[simp] theorem Member.types_type (t : TypeDecl) :
    (Member.type t).outline.Types P ↔ t.outline.Types P := by
  simp [Member.outline, Node.OnType]

/-- The types in a declaration are those of its header and those of its members. -/
theorem TypeDecl.types_iff (t : TypeDecl) : t.outline.Types P ↔
    (∀ s ∈ t.superclass, s.outline.Types P) ∧ (∀ i ∈ t.interfaces, i.outline.Types P) ∧
      ∀ m ∈ t.members, m.outline.Types P := by
  cases t
  simp [TypeDecl.outline, TypeRef.outlines_eq_map, Member.outlines_eq_map, Node.OnType]

theorem TypeDecl.types_of_mem_fields {t : TypeDecl} (h : t.outline.Types P) {f : FieldDecl}
    (hf : f ∈ t.fields) : f.outline.Types P := by
  obtain ⟨x, hx, hf⟩ := List.mem_filterMap.mp hf
  have htypes := (t.types_iff.mp h).2.2 x hx
  cases x with
  | field f' => cases Option.some.inj hf; exact (Member.types_field _).mp htypes
  | _ => cases hf

theorem TypeDecl.types_of_mem_constructors {t : TypeDecl} (h : t.outline.Types P)
    {c : ConstructorDecl} (hc : c ∈ t.constructors) : c.outline.Types P := by
  obtain ⟨x, hx, hc⟩ := List.mem_filterMap.mp hc
  have htypes := (t.types_iff.mp h).2.2 x hx
  cases x with
  | constructor c' => cases Option.some.inj hc; exact (Member.types_constructor _).mp htypes
  | _ => cases hc

theorem TypeDecl.types_of_mem_methods {t : TypeDecl} (h : t.outline.Types P) {m : MethodDecl}
    (hm : m ∈ t.methods) : m.outline.Types P := by
  obtain ⟨x, hx, hm⟩ := List.mem_filterMap.mp hm
  have htypes := (t.types_iff.mp h).2.2 x hx
  cases x with
  | method m' => cases Option.some.inj hm; exact (Member.types_method _).mp htypes
  | _ => cases hm

end

/--
An editor that leaves every node alone, and every type whose parts all have a property.
-/
structure Editor.Inert (ed : Editor) (P : TypeRef → Prop) : Prop where
  type : ∀ t : TypeRef, t.outline.Types P → ed.type t = t
  expr : ∀ e, ed.expr e = e
  stmt : ∀ h x, ed.stmt h x = .keep x

namespace Editor.Inert

variable {ed : Editor} {P : TypeRef → Prop} (hi : ed.Inert P)
include hi

mutual

theorem exprParts : ∀ e : Expr, e.outline.Types P → e.editParts ed = e
  | .literal _, _ | .ident _, _ | .this, _ => rfl
  | .field e _, h => by
    simp only [Expr.outline, Outline.types_node, Outline.allTypes_cons] at h
    rw [Expr.editParts, exprParts e h.1.1.1.1, hi.expr]
  | .call receiver _ args, h => by
    simp only [Expr.outline, Outline.types_node, Outline.allTypes_cons, Outline.allTypes_append] at h
    rw [Expr.editParts, exprOption receiver h.1.1.1.1, exprs args h.1.1.1.2]
  | .create ty args, h => by
    simp only [Expr.outline, Outline.types_node, Outline.allTypes_cons] at h
    rw [Expr.editParts, hi.type ty h.1.1, exprs args h.1.2]
  | .assign target _ value, h => by
    simp only [Expr.outline, Outline.types_node, Outline.allTypes_cons] at h
    rw [Expr.editParts, exprParts target h.1.1, exprParts value h.1.2.1, hi.expr]
  | .binary _ lhs rhs, h => by
    simp only [Expr.outline, Outline.types_node, Outline.allTypes_cons] at h
    rw [Expr.editParts, exprParts lhs h.1.1, exprParts rhs h.1.2.1, hi.expr, hi.expr]
  | .unary _ operand, h => by
    simp only [Expr.outline, Outline.types_node, Outline.allTypes_cons] at h
    rw [Expr.editParts, exprParts operand h.1.1, hi.expr, ite_self]
  | .cast ty operand, h => by
    simp only [Expr.outline, Outline.types_node, Outline.allTypes_cons] at h
    rw [Expr.editParts, hi.type ty h.1.1, exprParts operand h.1.2.1, hi.expr]

theorem exprOption : ∀ e : Option Expr, Outline.AllTypes P (Expr.optionOutline e) →
    Expr.editOption ed e = e
  | none, _ => rfl
  | some e, h => by
    simp only [Expr.optionOutline, Outline.allTypes_cons] at h
    rw [Expr.editOption, exprParts e h.1, hi.expr]

theorem exprs : ∀ es : List Expr, Outline.AllTypes P (Expr.outlines es) → Expr.editAll ed es = es
  | [], _ => rfl
  | e :: rest, h => by
    simp only [Expr.outlines, Outline.allTypes_cons] at h
    rw [Expr.editAll, exprParts e h.1, exprs rest h.2, hi.expr]

end

theorem wholeExpr (e : Expr) (h : e.outline.Types P) : e.edit ed = e := by
  rw [Expr.edit, hi.exprParts e h, hi.expr]

theorem declarators (ds : List Declarator) (h : Outline.AllTypes P (Declarator.outlines ds)) :
    Declarator.editAll ed ds = ds := by
  induction ds with
  | nil => rfl
  | cons d rest ih =>
    simp only [Declarator.outlines, List.flatMap_cons, Outline.allTypes_append] at h ih
    rw [Declarator.editAll, List.map_cons, hi.exprOption d.init h.1]
    exact congrArg (d :: ·) (ih h.2)

mutual

theorem stmtParts : ∀ (x : Stmt) (n : Nat), x.outline.Types P → x.editParts ed n = x
  | .expr e, _, h => by
    simp only [Stmt.outline, Outline.types_node, Outline.allTypes_cons] at h
    rw [Stmt.editParts, hi.wholeExpr e h.1.1]
  | .vars v, _, h => by
    simp only [Stmt.outline, LocalVars.outline, Outline.types_node, Outline.allTypes_cons] at h
    rw [Stmt.editParts, LocalVars.edit, hi.type v.ty h.1.1.1.1, hi.declarators _ h.1.1.1.2]
  | .block stmts, n, h => by
    simp only [Stmt.outline, Outline.types_node, Outline.allTypes_cons] at h
    rw [Stmt.editParts, block stmts n h.1.1.1]
  | .ifElse cond thenBranch elseBranch, n, h => by
    simp only [Stmt.outline, Outline.types_node, Outline.allTypes_cons] at h
    rw [Stmt.editParts, hi.wholeExpr cond h.1.1, stmtParts thenBranch n h.1.2.1, hi.stmt,
      stmtOption elseBranch n h.1.2.2, Edit.single]
  | .whileLoop cond body, n, h => by
    simp only [Stmt.outline, Outline.types_node, Outline.allTypes_cons] at h
    rw [Stmt.editParts, hi.wholeExpr cond h.1.1, stmtParts body n h.1.2.1, hi.stmt, Edit.single]
  | .forLoop init cond update body, n, h => by
    simp only [Stmt.outline, Outline.types_node, Outline.allTypes_cons, Outline.allTypes_append] at h
    obtain ⟨⟨⟨⟨hinit, hcond⟩, hupdate⟩, hbody, -⟩, -⟩ := h
    rw [Stmt.editParts, block init (n + 1) hinit, hi.exprOption cond hcond, hi.exprs update hupdate,
      stmtParts body n hbody, hi.stmt, Edit.single]
  | .ret value, _, h => by
    simp only [Stmt.outline, Outline.types_node] at h
    rw [Stmt.editParts, hi.exprOption value h.1]
  | .switch selector cases, n, h => by
    simp only [Stmt.outline, Outline.types_node, Outline.allTypes_cons] at h
    rw [Stmt.editParts, hi.wholeExpr selector h.1.1, arms cases n h.1.2]
  | .throw e, _, h => by
    simp only [Stmt.outline, Outline.types_node, Outline.allTypes_cons] at h
    rw [Stmt.editParts, hi.wholeExpr e h.1.1]
  | .breakOut, _, _ | .continueOn, _, _ | .empty, _, _ => rfl

theorem stmtOption : ∀ (x : Option Stmt) (n : Nat), Outline.AllTypes P (Stmt.optionOutline x) →
    Stmt.editOption ed n x = x
  | none, _, _ => rfl
  | some x, n, h => by
    simp only [Stmt.optionOutline, Outline.allTypes_cons] at h
    rw [Stmt.editOption, stmtParts x n h.1, hi.stmt, Edit.single]

theorem block : ∀ (xs : List Stmt) (n : Nat), Outline.AllTypes P (Stmt.outlines xs) →
    Stmt.editAll ed n xs = xs
  | [], _, _ => rfl
  | x :: rest, n, h => by
    simp only [Stmt.outlines, Outline.allTypes_cons] at h
    rw [Stmt.editAll, stmtParts x n h.1, hi.stmt, block rest n h.2, Edit.toList,
      List.singleton_append]

theorem arms : ∀ (cs : List SwitchCase) (n : Nat), Outline.AllTypes P (SwitchCase.outlines cs) →
    SwitchCase.editAll ed n cs = cs
  | [], _, _ => rfl
  | ⟨labels, body⟩ :: rest, n, h => by
    simp only [SwitchCase.outlines, Outline.allTypes_append] at h
    rw [SwitchCase.editAll, hi.exprs labels h.1.1, block body n h.1.2, arms rest n h.2]

end

theorem params (ps : List Param) (h : ∀ p ∈ ps, p.ty.outline.Types P) :
    ps.map (Param.edit ed) = ps := by
  have hsame : ∀ p ∈ ps, Param.edit ed p = p := by
    intro p hp
    rw [Param.edit, hi.type p.ty (h p hp)]
  exact (List.map_congr_left hsame).trans (List.map_id' ps)

theorem field (f : FieldDecl) (h : f.outline.Types P) : f.edit ed = f := by
  obtain ⟨hty, hinit⟩ := f.types_iff.mp h
  rw [FieldDecl.edit, hi.type f.ty hty, hi.declarators _ hinit]

theorem method (m : MethodDecl) (h : m.outline.Types P) : m.edit ed = m := by
  obtain ⟨hreturn, hparams, hbody⟩ := m.types_iff.mp h
  have hblock : m.body.map (Stmt.editAll ed 0) = m.body := by
    cases hb : m.body with
    | none => rfl
    | some b => rw [Option.map_some, hi.block b 0 (hbody b hb)]
  rw [MethodDecl.edit, hi.type m.returnType hreturn, hi.params m.params hparams, hblock]

theorem constructorDecl (c : ConstructorDecl) (h : c.outline.Types P) : c.edit ed = c := by
  obtain ⟨hparams, hbody⟩ := c.types_iff.mp h
  rw [ConstructorDecl.edit, hi.params c.params hparams, hi.block c.body 0 hbody]

end Editor.Inert

end VersionWeave
