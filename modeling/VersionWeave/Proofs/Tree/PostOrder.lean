import Mathlib.Data.List.Basic
import VersionWeave.Proofs.Tree.Nodes
import VersionWeave.Proofs.Tree.Walk

namespace VersionWeave

/-- Whether a revision is handed nodes of this kind. -/
def Node.isRevised : Node → Bool
  | .unit _ | .typeDecl _ | .member _ | .stmt _ | .expr _ | .typeRef _ => true
  | .fieldDecl _ | .methodDecl _ | .constructorDecl _ | .param _ | .block _ | .localVars _
  | .call _ _ _ | .fieldAccess _ _ => false

/-- The node that is left, if any is. -/
def Event.left? : Event → Option Node
  | .enter _ => none
  | .leave n => some n

/-- The nodes that events leave, of the kinds that a revision is handed. -/
def leftRevised (events : List Event) : List Node :=
  (events.filterMap Event.left?).filter Node.isRevised

namespace Outline

def revised (o : Outline) : List Node := o.nodes.filter Node.isRevised

def allRevised (os : List Outline) : List Node := (allNodes os).filter Node.isRevised

/-- The same below the root only. -/
def inner : Outline → List Node
  | .node _ children => allRevised children

theorem revised_node (n : Node) (children : List Outline) :
    (node n children).revised = allRevised children ++ if n.isRevised then [n] else [] := by
  simp only [revised, nodes, List.filter_append, List.filter_singleton, allRevised, cond_eq_ite]

@[simp] theorem allRevised_nil : allRevised [] = [] := rfl

@[simp] theorem allRevised_cons (o : Outline) (os : List Outline) :
    allRevised (o :: os) = o.revised ++ allRevised os := by
  simp only [allRevised, revised, allNodes, List.filter_append]

@[simp] theorem allRevised_append (os ps : List Outline) :
    allRevised (os ++ ps) = allRevised os ++ allRevised ps := by
  simp only [allRevised, allNodes_append, List.filter_append]

mutual

/-- A walk into everything leaves every node, each after its children. -/
theorem left_walk : ∀ o : Outline, (o.walk fun _ => .descend).1.filterMap Event.left? = o.nodes
  | .node n children => by
    have hfinished : (walkAll (fun _ => .descend) children).2 = true :=
      (nested_walkAll (fun _ => Reply.noConfusion) children).1
    rw [walk_of_descend children rfl, hfinished]
    simp only [List.filterMap_cons, List.filterMap_append, left_walkAll children, if_true, nodes]
    rfl

theorem left_walkAll : ∀ os : List Outline,
    (walkAll (fun _ => .descend) os).1.filterMap Event.left? = allNodes os
  | [] => rfl
  | o :: os => by
    rw [walkAll_cons, if_pos (nested_walk (fun _ => Reply.noConfusion) o).1, List.filterMap_append,
      left_walk o, left_walkAll os, allNodes]

end

theorem leftRevised_walk (o : Outline) : leftRevised (o.walk fun _ => .descend).1 = o.revised := by
  rw [leftRevised, left_walk, revised]

end Outline

theorem TypeRef.revised_outline (t : TypeRef) : t.outline.revised = t.outline.inner ++ [.typeRef t] := by
  cases t
  exact Outline.revised_node _ _

theorem Expr.revised_outline (e : Expr) : e.outline.revised = e.outline.inner ++ [.expr e] := by
  cases e <;> exact Outline.revised_node _ _

theorem Stmt.revised_outline (s : Stmt) : s.outline.revised = s.outline.inner ++ [.stmt s] := by
  cases s <;> exact Outline.revised_node _ _

variable {σ τ α β : Type}

/--
A computation that returns a value whatever its state, and of whose state one sees that a step was
made for each of some nodes.
-/
def Shows (view : σ → τ) (step : τ → Node → τ) (x : StateM σ α) (a : α) (nodes : List Node) : Prop :=
  ∀ st, (x.run st).1 = a ∧ view (x.run st).2 = nodes.foldl step (view st)

namespace Shows

variable {view : σ → τ} {step : τ → Node → τ}

theorem pure (a : α) : Shows view step (Pure.pure a) a [] := fun _ => ⟨rfl, rfl⟩

theorem bind {x : StateM σ α} {f : α → StateM σ β} {a : α} {b : β} {ns ms : List Node}
    (hx : Shows view step x a ns) (hf : Shows view step (f a) b ms) :
    Shows view step (x >>= f) b (ns ++ ms) := by
  intro st
  obtain ⟨hvalue, hview⟩ := hx st
  obtain ⟨hvalue', hview'⟩ := hf (x.run st).2
  have hrun : (x >>= f).run st = (f a).run (x.run st).2 := by rw [← hvalue]; rfl
  rw [hrun, List.foldl_append, ← hview]
  exact ⟨hvalue', hview'⟩

theorem of_eq {x : StateM σ α} {a : α} {ns ms : List Node} (hx : Shows view step x a ns)
    (h : ns = ms) : Shows view step x a ms := h ▸ hx

end Shows

/--
A revision that hands back every node as it came, and of whose state one sees a step for each node
that it is handed and nothing else.
-/
structure Reviser.Records (r : Reviser σ) (view : σ → τ) (step : τ → Node → τ) : Prop where
  enterType : ∀ t, Shows view step (r.enterType t) () []
  leaveType : ∀ t, Shows view step (r.leaveType t) () []
  enterMethod : ∀ m, Shows view step (r.enterMethod m) () []
  leaveMethod : ∀ m, Shows view step (r.leaveMethod m) () []
  enterConstructor : ∀ c, Shows view step (r.enterConstructor c) () []
  leaveConstructor : ∀ c, Shows view step (r.leaveConstructor c) () []
  enterForInit : Shows view step r.enterForInit () []
  leaveForInit : Shows view step r.leaveForInit () []
  unit : ∀ u, Shows view step (r.unit u) u [.unit u]
  typeDecl : ∀ t, Shows view step (r.typeDecl t) t [.typeDecl t]
  member : ∀ m, Shows view step (r.member m) (.keep m) [.member m]
  stmt : ∀ s, Shows view step (r.stmt s) (.keep s) [.stmt s]
  expr : ∀ e, Shows view step (r.expr e) e [.expr e]
  target : ∀ e, Shows view step (r.target e) e [.expr e]
  typeRef : ∀ t, Shows view step (r.typeRef t) t [.typeRef t]

namespace Reviser.Records

variable {r : Reviser σ} {view : σ → τ} {step : τ → Node → τ}

mutual

theorem type (hr : r.Records view step) : ∀ t : TypeRef,
    Shows view step (t.revise r) t t.outline.revised
  | ⟨name, args, dims⟩ => by
    refine .of_eq (.bind (hr.typeAll args) (hr.typeRef ⟨name, args, dims⟩)) ?_
    exact (TypeRef.revised_outline ⟨name, args, dims⟩).symm

theorem typeAll (hr : r.Records view step) : ∀ ts : List TypeRef,
    Shows view step (TypeRef.reviseAll r ts) ts (Outline.allRevised (TypeRef.outlines ts))
  | [] => .pure _
  | t :: rest => by
    refine .of_eq (.bind (hr.type t) <| .bind (hr.typeAll rest) <| .pure _) ?_
    rw [TypeRef.outlines, Outline.allRevised_cons, List.append_nil]

end

mutual

theorem exprParts (hr : r.Records view step) : ∀ e : Expr,
    Shows view step (e.reviseParts r) e e.outline.inner
  | .literal _ => .pure _
  | .ident _ => .pure _
  | .this => .pure _
  | .field receiver name => by
    refine .of_eq (.bind (hr.exprParts receiver) <| .bind (hr.expr receiver) <| .pure _) ?_
    simp [Expr.outline, Outline.inner, Outline.revised_node, Node.isRevised, Expr.revised_outline]
  | .call receiver name args => by
    refine .of_eq (.bind (hr.exprOption receiver) <| .bind (hr.exprAll args) <| .pure _) ?_
    simp [Expr.outline, Outline.inner, Outline.revised_node, Node.isRevised]
  | .create ty args => by
    refine .of_eq (.bind (hr.type ty) <| .bind (hr.exprAll args) <| .pure _) ?_
    simp [Expr.outline, Outline.inner]
  | .assign target op value => by
    refine .of_eq (.bind (hr.exprParts target) <| .bind (hr.target target) <|
      .bind (hr.exprParts value) <| .bind (hr.expr value) <| .pure _) ?_
    simp [Expr.outline, Outline.inner, Expr.revised_outline]
  | .binary op lhs rhs => by
    refine .of_eq (.bind (hr.exprParts lhs) <| .bind (hr.expr lhs) <| .bind (hr.exprParts rhs) <|
      .bind (hr.expr rhs) <| .pure _) ?_
    simp [Expr.outline, Outline.inner, Expr.revised_outline]
  | .unary op operand => by
    have hhook : Shows view step
        (if op.writes then r.target operand >>= fun e => Pure.pure (Expr.unary op e)
          else r.expr operand >>= fun e => Pure.pure (Expr.unary op e))
        (.unary op operand) [.expr operand] := by
      split
      next => exact (hr.target operand).bind (.pure _)
      next => exact (hr.expr operand).bind (.pure _)
    refine .of_eq (.bind (hr.exprParts operand) hhook) ?_
    simp [Expr.outline, Outline.inner, Expr.revised_outline]
  | .cast ty operand => by
    refine .of_eq (.bind (hr.type ty) <| .bind (hr.exprParts operand) <| .bind (hr.expr operand) <|
      .pure _) ?_
    simp [Expr.outline, Outline.inner, Expr.revised_outline]

theorem exprOption (hr : r.Records view step) : ∀ e : Option Expr,
    Shows view step (Expr.reviseOption r e) e (Outline.allRevised (Expr.optionOutline e))
  | none => .pure _
  | some e => by
    refine .of_eq (.bind (hr.exprParts e) <| .bind (hr.expr e) <| .pure _) ?_
    simp [Expr.optionOutline, Expr.revised_outline]

theorem exprAll (hr : r.Records view step) : ∀ es : List Expr,
    Shows view step (Expr.reviseAll r es) es (Outline.allRevised (Expr.outlines es))
  | [] => .pure _
  | e :: rest => by
    refine .of_eq (.bind (hr.exprParts e) <| .bind (hr.expr e) <| .bind (hr.exprAll rest) <|
      .pure _) ?_
    simp [Expr.outlines, Expr.revised_outline]

end

theorem wholeExpr (hr : r.Records view step) (e : Expr) :
    Shows view step (e.revise r) e e.outline.revised :=
  ((hr.exprParts e).bind (hr.expr e)).of_eq e.revised_outline.symm

theorem declarators (hr : r.Records view step) (ds : List Declarator) :
    Shows view step (Declarator.reviseAll r ds) ds (Outline.allRevised (Declarator.outlines ds)) := by
  induction ds with
  | nil => exact .pure _
  | cons d rest ih =>
    refine .of_eq (.bind (hr.exprOption d.init) <| .bind ih <| .pure _) ?_
    simp [Declarator.outlines]

theorem localVars (hr : r.Records view step) (v : LocalVars) :
    Shows view step (v.revise r) v v.outline.revised := by
  refine .of_eq (.bind (hr.type v.ty) <| .bind (hr.declarators v.declarators) <| .pure _) ?_
  simp [LocalVars.outline, Outline.revised_node, Node.isRevised]

mutual

theorem stmtParts (hr : r.Records view step) : ∀ s : Stmt,
    Shows view step (s.reviseParts r) s s.outline.inner
  | .expr e => by
    refine .of_eq (.bind (hr.wholeExpr e) (.pure _)) ?_
    simp [Stmt.outline, Outline.inner]
  | .vars v => by
    refine .of_eq (.bind (hr.localVars v) (.pure _)) ?_
    simp [Stmt.outline, Outline.inner]
  | .block stmts => by
    refine .of_eq (.bind (hr.stmtAll stmts) (.pure _)) ?_
    simp [Stmt.outline, Outline.inner, Outline.revised_node, Node.isRevised]
  | .ifElse cond thenBranch elseBranch => by
    refine .of_eq (.bind (hr.wholeExpr cond) <| .bind (hr.stmtParts thenBranch) <|
      .bind (hr.stmt thenBranch) <| .bind (hr.stmtOption elseBranch) <| .pure _) ?_
    simp [Stmt.outline, Outline.inner, Stmt.revised_outline]
  | .whileLoop cond body => by
    refine .of_eq (.bind (hr.wholeExpr cond) <| .bind (hr.stmtParts body) <| .bind (hr.stmt body) <|
      .pure _) ?_
    simp [Stmt.outline, Outline.inner, Stmt.revised_outline]
  | .forLoop init cond update body => by
    refine .of_eq (.bind hr.enterForInit <| .bind (hr.stmtAll init) <| .bind hr.leaveForInit <|
      .bind (hr.exprOption cond) <| .bind (hr.exprAll update) <| .bind (hr.stmtParts body) <|
      .bind (hr.stmt body) <| .pure _) ?_
    simp [Stmt.outline, Outline.inner, Stmt.revised_outline]
  | .ret value => by
    refine .of_eq (.bind (hr.exprOption value) (.pure _)) ?_
    simp [Stmt.outline, Outline.inner]
  | .switch selector cases => by
    refine .of_eq (.bind (hr.wholeExpr selector) <| .bind (hr.caseAll cases) <| .pure _) ?_
    simp [Stmt.outline, Outline.inner]
  | .breakOut => .pure _
  | .continueOn => .pure _
  | .throw e => by
    refine .of_eq (.bind (hr.wholeExpr e) (.pure _)) ?_
    simp [Stmt.outline, Outline.inner]
  | .empty => .pure _

theorem stmtOption (hr : r.Records view step) : ∀ s : Option Stmt,
    Shows view step (Stmt.reviseOption r s) s (Outline.allRevised (Stmt.optionOutline s))
  | none => .pure _
  | some s => by
    refine .of_eq (.bind (hr.stmtParts s) <| .bind (hr.stmt s) <| .pure _) ?_
    simp [Stmt.optionOutline, Stmt.revised_outline]

theorem stmtAll (hr : r.Records view step) : ∀ ss : List Stmt,
    Shows view step (Stmt.reviseAll r ss) ss (Outline.allRevised (Stmt.outlines ss))
  | [] => .pure _
  | s :: rest => by
    refine .of_eq (.bind (hr.stmtParts s) <| .bind (hr.stmt s) <| .bind (hr.stmtAll rest) <|
      .pure _) ?_
    simp [Stmt.outlines, Stmt.revised_outline]

theorem caseAll (hr : r.Records view step) : ∀ cs : List SwitchCase,
    Shows view step (SwitchCase.reviseAll r cs) cs (Outline.allRevised (SwitchCase.outlines cs))
  | [] => .pure _
  | ⟨labels, body⟩ :: rest => by
    refine .of_eq (.bind (hr.exprAll labels) <| .bind (hr.stmtAll body) <|
      .bind (hr.caseAll rest) <| .pure _) ?_
    simp [SwitchCase.outlines]

end

theorem params (hr : r.Records view step) (ps : List Param) :
    Shows view step (Param.reviseAll r ps) ps (Outline.allRevised (ps.map Param.outline)) := by
  induction ps with
  | nil => exact .pure _
  | cons p rest ih =>
    refine .of_eq (.bind (hr.type p.ty) <| .bind ih <| .pure _) ?_
    simp [Param.outline, Outline.revised_node, Node.isRevised]

theorem field (hr : r.Records view step) (f : FieldDecl) :
    Shows view step (f.revise r) f f.outline.revised := by
  refine .of_eq (.bind (hr.type f.ty) <| .bind (hr.declarators f.declarators) <| .pure _) ?_
  simp [FieldDecl.outline, Outline.revised_node, Node.isRevised]

theorem block (hr : r.Records view step) : ∀ b : Option Block,
    Shows view step (Block.reviseOption r b) b (Outline.allRevised (b.toList.map Block.outline))
  | none => .pure _
  | some b => by
    refine .of_eq (.bind (hr.stmtAll b) (.pure _)) ?_
    simp [Block.outline, Outline.revised_node, Node.isRevised]

theorem method (hr : r.Records view step) (m : MethodDecl) :
    Shows view step (m.revise r) m m.outline.revised := by
  refine .of_eq (.bind (hr.enterMethod m) <| .bind (hr.type m.returnType) <|
    .bind (hr.params m.params) <| .bind (hr.block m.body) <| .bind (hr.leaveMethod m) <| .pure _) ?_
  simp [MethodDecl.outline, Outline.revised_node, Node.isRevised]

theorem constructor (hr : r.Records view step) (c : ConstructorDecl) :
    Shows view step (c.revise r) c c.outline.revised := by
  refine .of_eq (.bind (hr.enterConstructor c) <| .bind (hr.params c.params) <|
    .bind (hr.stmtAll c.body) <| .bind (hr.leaveConstructor c) <| .pure _) ?_
  simp [ConstructorDecl.outline, Block.outline, Outline.revised_node, Node.isRevised]

theorem superclass (hr : r.Records view step) : ∀ t : Option TypeRef,
    Shows view step (TypeRef.reviseOption r t) t
      (Outline.allRevised (t.toList.map TypeRef.outline))
  | none => .pure _
  | some t => by
    refine .of_eq (.bind (hr.type t) (.pure _)) ?_
    simp

mutual

theorem wholeMember (hr : r.Records view step) : ∀ m : Member,
    Shows view step (m.revise r) (.keep m) m.outline.revised
  | .field f => by
    refine .of_eq (.bind (hr.field f) (hr.member (.field f))) ?_
    simp [Member.outline, Outline.revised_node, Node.isRevised]
  | .method m => by
    refine .of_eq (.bind (hr.method m) (hr.member (.method m))) ?_
    simp [Member.outline, Outline.revised_node, Node.isRevised]
  | .constructor c => by
    refine .of_eq (.bind (hr.constructor c) (hr.member (.constructor c))) ?_
    simp [Member.outline, Outline.revised_node, Node.isRevised]
  | .type t => by
    refine .of_eq (.bind (hr.wholeType t) (hr.member (.type t))) ?_
    simp [Member.outline, Outline.revised_node, Node.isRevised]

theorem wholeType (hr : r.Records view step) : ∀ t : TypeDecl,
    Shows view step (t.revise r) t t.outline.revised
  | ⟨kind, modifiers, name, superclass, interfaces, members⟩ => by
    let t : TypeDecl := ⟨kind, modifiers, name, superclass, interfaces, members⟩
    refine .of_eq (.bind (hr.enterType t) <| .bind (hr.superclass superclass) <|
      .bind (hr.typeAll interfaces) <| .bind (hr.memberAll members) <| .bind (hr.leaveType t) <|
      hr.typeDecl t) ?_
    simp [t, TypeDecl.outline, Outline.revised_node, Node.isRevised]

theorem memberAll (hr : r.Records view step) : ∀ ms : List Member,
    Shows view step (Member.reviseAll r ms) ms (Outline.allRevised (Member.outlines ms))
  | [] => .pure _
  | m :: rest => by
    refine .of_eq (.bind (hr.wholeMember m) <| .bind (hr.memberAll rest) <| .pure _) ?_
    simp [Member.outlines]

end

theorem typeDecls (hr : r.Records view step) (ts : List TypeDecl) :
    Shows view step (TypeDecl.reviseAll r ts) ts (Outline.allRevised (ts.map TypeDecl.outline)) := by
  induction ts with
  | nil => exact .pure _
  | cons t rest ih =>
    refine .of_eq (.bind (hr.wholeType t) <| .bind ih <| .pure _) ?_
    simp

/-- The whole run: the unit as it came, and a step for every node that a walk leaves. -/
theorem wholeUnit (hr : r.Records view step) (u : CompilationUnit) :
    Shows view step (u.revise r) u u.outline.revised := by
  refine .of_eq (.bind (hr.typeDecls u.types) (hr.unit u)) ?_
  simp [CompilationUnit.outline, Outline.revised_node, Node.isRevised]

end Reviser.Records

/-- A revision without hooks of its own never changes its state. -/
theorem Reviser.records_default : ({} : Reviser σ).Records id fun st _ => st where
  enterType _ := .pure _
  leaveType _ := .pure _
  enterMethod _ := .pure _
  leaveMethod _ := .pure _
  enterConstructor _ := .pure _
  leaveConstructor _ := .pure _
  enterForInit := .pure _
  leaveForInit := .pure _
  unit _ _ := ⟨rfl, rfl⟩
  typeDecl _ _ := ⟨rfl, rfl⟩
  member _ _ := ⟨rfl, rfl⟩
  stmt _ _ := ⟨rfl, rfl⟩
  expr _ _ := ⟨rfl, rfl⟩
  target _ _ := ⟨rfl, rfl⟩
  typeRef _ _ := ⟨rfl, rfl⟩

/--
Revisions and walks agree. A revision without hooks of its own returns the unit as it came. One that
hands back every node and lists those that it is handed lists the nodes that a walk into everything
leaves, in the order in which it leaves them.
-/
theorem CompilationUnit.revision_follows_walk (u : CompilationUnit) :
    (∀ {σ : Type} (st : σ), (u.revise {}).run st = (u, st)) ∧
      ∀ {σ : Type} (r : Reviser σ) (log : σ → List Node),
        (r.Records log fun nodes n => nodes ++ [n]) → ∀ st, ((u.revise r).run st).1 = u ∧
          log ((u.revise r).run st).2 = log st ++ leftRevised (u.outline.walk fun _ => .descend).1 := by
  refine ⟨fun st => ?_, fun r log hr st => ?_⟩
  · obtain ⟨hvalue, hstate⟩ := Reviser.records_default.wholeUnit u st
    rw [List.foldl_fixed] at hstate
    exact Prod.ext hvalue hstate
  · obtain ⟨hvalue, hlog⟩ := hr.wholeUnit u st
    refine ⟨hvalue, ?_⟩
    rw [hlog, Outline.leftRevised_walk, List.foldl_append_eq_append,
      ← List.flatMap_def, List.flatMap_singleton']

def record (n : Node) (a : α) : StateM (List Node) α := do
  modify (· ++ [n])
  return a

/-- Lists the nodes that it is handed. -/
def Reviser.recorder : Reviser (List Node) where
  unit u := record (.unit u) u
  typeDecl t := record (.typeDecl t) t
  member m := record (.member m) (.keep m)
  stmt s := record (.stmt s) (.keep s)
  expr e := record (.expr e) e
  typeRef t := record (.typeRef t) t

theorem Reviser.records_recorder : Reviser.recorder.Records id fun nodes n => nodes ++ [n] where
  enterType _ := .pure _
  leaveType _ := .pure _
  enterMethod _ := .pure _
  leaveMethod _ := .pure _
  enterConstructor _ := .pure _
  leaveConstructor _ := .pure _
  enterForInit := .pure _
  leaveForInit := .pure _
  unit _ _ := ⟨rfl, rfl⟩
  typeDecl _ _ := ⟨rfl, rfl⟩
  member _ _ := ⟨rfl, rfl⟩
  stmt _ _ := ⟨rfl, rfl⟩
  expr _ _ := ⟨rfl, rfl⟩
  target _ _ := ⟨rfl, rfl⟩
  typeRef _ _ := ⟨rfl, rfl⟩

/-- `class Main { List<Key> keys = last = new Key(); }` -/
def CompilationUnit.keys : CompilationUnit :=
  let value : Expr := .assign (.ident "last") .assign (.create (.plain "Key") [])
  { types := [{ name := "Main", members := [.field
      { ty := { name := "List", args := [.plain "Key"] },
        declarators := [{ name := "keys", init := some value }] }] }] }

theorem CompilationUnit.revision_follows_walk_keys :
    (Reviser.recorder.Records id fun nodes n => nodes ++ [n]) ∧
      ((keys.revise Reviser.recorder).run []).2 =
        leftRevised (keys.outline.walk fun _ => .descend).1 ∧
      ((keys.revise Reviser.recorder).run []).2.length = 9 :=
  ⟨Reviser.records_recorder,
    (keys.revision_follows_walk.2 Reviser.recorder id Reviser.records_recorder []).2, rfl⟩

end VersionWeave
