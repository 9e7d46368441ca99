import VersionWeave.Proofs.Tree.Editor
import VersionWeave.Tree.Outline

namespace VersionWeave

mutual

/-- Every node of an outline, each after its children. -/
def Outline.nodes : Outline → List Node
  | .node n children => Outline.allNodes children ++ [n]

def Outline.allNodes : List Outline → List Node
  | [] => []
  | o :: rest => o.nodes ++ Outline.allNodes rest

end

@[simp] theorem Outline.allNodes_append (os ps : List Outline) :
    Outline.allNodes (os ++ ps) = Outline.allNodes os ++ Outline.allNodes ps := by
  induction os with
  | nil => rfl
  | cons o rest ih =>
    simp only [List.cons_append, Outline.allNodes, ih, List.append_assoc]

def Node.isCall (name : String) : Node → Bool
  | .call _ n _ => n == name
  | _ => false

/-- A loop header as it can be written: one declaration of locals, or expressions only. -/
def Stmt.plainHeader : List Stmt → Bool
  | [.vars _] => true
  | init => init.all fun
    | .expr _ => true
    | _ => false

theorem Stmt.exprs_of_plainHeader {init : List Stmt} (hp : Stmt.plainHeader init = true) :
    (∃ v, init = [.vars v]) ∨ ∀ x ∈ init, ∃ e, x = .expr e := by
  unfold Stmt.plainHeader at hp
  split at hp
  next v => exact .inl ⟨v, rfl⟩
  next =>
    refine .inr fun x hx => ?_
    have hall := List.all_eq_true.mp hp x hx
    split at hall
    next e => exact ⟨e, rfl⟩
    next => contradiction

theorem Stmt.plainHeader_of_exprs {init : List Stmt} (h : ∀ x ∈ init, ∃ e, x = .expr e) :
    Stmt.plainHeader init = true := by
  unfold Stmt.plainHeader
  split
  next => rfl
  next =>
    refine List.all_eq_true.mpr fun x hx => ?_
    obtain ⟨e, rfl⟩ := h x hx
    rfl

/-- A node that is no loop, or a loop whose header can be written. -/
def Node.headerPlain : Node → Bool
  | .stmt (.forLoop init _ _ _) => Stmt.plainHeader init
  | _ => true

namespace Outline

/-- How many calls of a name stand in an outline. -/
def calls (name : String) (o : Outline) : Nat := o.nodes.countP (Node.isCall name)

def allCalls (name : String) (os : List Outline) : Nat :=
  (Outline.allNodes os).countP (Node.isCall name)

def headersPlain (o : Outline) : Bool := o.nodes.all Node.headerPlain

def allHeadersPlain (os : List Outline) : Bool := (Outline.allNodes os).all Node.headerPlain

variable {name : String}

@[simp] theorem calls_node (n : Node) (children : List Outline) :
    (Outline.node n children).calls name =
      allCalls name children + (n.isCall name).toNat := by
  cases hn : n.isCall name <;>
    simp [calls, allCalls, Outline.nodes, List.countP_append, hn]

@[simp] theorem allCalls_nil : allCalls name [] = 0 := rfl

@[simp] theorem allCalls_cons (o : Outline) (os : List Outline) :
    allCalls name (o :: os) = o.calls name + allCalls name os := by
  simp [calls, allCalls, Outline.allNodes, List.countP_append]

@[simp] theorem allCalls_append (os ps : List Outline) :
    allCalls name (os ++ ps) = allCalls name os + allCalls name ps := by
  simp [allCalls, List.countP_append]

@[simp] theorem headersPlain_node (n : Node) (children : List Outline) :
    (Outline.node n children).headersPlain = (allHeadersPlain children && n.headerPlain) := by
  simp [headersPlain, allHeadersPlain, Outline.nodes, List.all_append]

@[simp] theorem allHeadersPlain_nil : allHeadersPlain [] = true := rfl

@[simp] theorem allHeadersPlain_cons (o : Outline) (os : List Outline) :
    allHeadersPlain (o :: os) = (o.headersPlain && allHeadersPlain os) := by
  simp [headersPlain, allHeadersPlain, Outline.allNodes, List.all_append]

@[simp] theorem allHeadersPlain_append (os ps : List Outline) :
    allHeadersPlain (os ++ ps) = (allHeadersPlain os && allHeadersPlain ps) := by
  simp [allHeadersPlain, List.all_append]

/-- No call of a name, and only loop headers that can be written. -/
def Free (name : String) (o : Outline) : Prop := o.calls name = 0 ∧ o.headersPlain = true

def AllFree (name : String) (os : List Outline) : Prop :=
  allCalls name os = 0 ∧ allHeadersPlain os = true

theorem free_node {n : Node} {children : List Outline} :
    (Outline.node n children).Free name ↔
      AllFree name children ∧ n.isCall name = false ∧ n.headerPlain = true := by
  cases hn : n.isCall name <;> simp [Free, AllFree, hn, and_assoc]

theorem allFree_cons {o : Outline} {os : List Outline} :
    AllFree name (o :: os) ↔ o.Free name ∧ AllFree name os := by
  simp [Free, AllFree, and_assoc, and_left_comm]

theorem allFree_append {os ps : List Outline} :
    AllFree name (os ++ ps) ↔ AllFree name os ∧ AllFree name ps := by
  simp [AllFree, and_assoc, and_left_comm]

end Outline

@[simp] theorem Stmt.outlines_append (xs ys : List Stmt) :
    Stmt.outlines (xs ++ ys) = Stmt.outlines xs ++ Stmt.outlines ys := by
  induction xs with
  | nil => rfl
  | cons x rest ih => simp only [List.cons_append, Stmt.outlines, ih]

/-! No statement stands in a type or in an expression. -/

mutual

@[simp] theorem TypeRef.headersPlain_outline : ∀ t : TypeRef, t.outline.headersPlain = true
  | ⟨_, args, _⟩ => by
    simp [TypeRef.outline, Node.headerPlain, TypeRef.allHeadersPlain_outlines args]

@[simp] theorem TypeRef.allHeadersPlain_outlines :
    ∀ ts : List TypeRef, Outline.allHeadersPlain (TypeRef.outlines ts) = true
  | [] => rfl
  | t :: rest => by
    simp [TypeRef.outlines, TypeRef.headersPlain_outline t, TypeRef.allHeadersPlain_outlines rest]

end

@[simp] theorem TypeRef.allHeadersPlain_map_outline (ts : List TypeRef) :
    Outline.allHeadersPlain (ts.map TypeRef.outline) = true := by
  induction ts with
  | nil => rfl
  | cons t rest ih => simp [ih]

@[simp] theorem Param.allHeadersPlain_outlines (ps : List Param) :
    Outline.allHeadersPlain (ps.map Param.outline) = true := by
  induction ps with
  | nil => rfl
  | cons p rest ih => simp [Param.outline, Node.headerPlain, ih]

mutual

@[simp] theorem Expr.headersPlain_outline : ∀ e : Expr, e.outline.headersPlain = true
  | .literal _ | .ident _ | .this => by simp [Expr.outline, Node.headerPlain]
  | .field e _ => by simp [Expr.outline, Node.headerPlain, Expr.headersPlain_outline e]
  | .call receiver _ args => by
    simp [Expr.outline, Node.headerPlain, Expr.allHeadersPlain_option receiver,
      Expr.allHeadersPlain_outlines args]
  | .create _ args => by simp [Expr.outline, Node.headerPlain, Expr.allHeadersPlain_outlines args]
  | .assign target _ value => by
    simp [Expr.outline, Node.headerPlain, Expr.headersPlain_outline target,
      Expr.headersPlain_outline value]
  | .binary _ lhs rhs => by
    simp [Expr.outline, Node.headerPlain, Expr.headersPlain_outline lhs,
      Expr.headersPlain_outline rhs]
  | .unary _ operand => by simp [Expr.outline, Node.headerPlain, Expr.headersPlain_outline operand]
  | .cast _ operand => by simp [Expr.outline, Node.headerPlain, Expr.headersPlain_outline operand]

@[simp] theorem Expr.allHeadersPlain_option :
    ∀ e : Option Expr, Outline.allHeadersPlain (Expr.optionOutline e) = true
  | none => rfl
  | some e => by simp [Expr.optionOutline, Expr.headersPlain_outline e]

@[simp] theorem Expr.allHeadersPlain_outlines :
    ∀ es : List Expr, Outline.allHeadersPlain (Expr.outlines es) = true
  | [] => rfl
  | e :: rest => by
    simp [Expr.outlines, Expr.headersPlain_outline e, Expr.allHeadersPlain_outlines rest]

end

@[simp] theorem Declarator.allHeadersPlain_outlines (ds : List Declarator) :
    Outline.allHeadersPlain (Declarator.outlines ds) = true := by
  induction ds with
  | nil => rfl
  | cons d rest ih =>
    simp only [Declarator.outlines] at ih
    simp [Declarator.outlines, ih]

end VersionWeave
