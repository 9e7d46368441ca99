import VersionWeave.Proofs.Tree.Nodes

namespace VersionWeave

namespace Outline

/-- How many nodes of an outline pass a test. -/
def count (p : Node → Bool) (o : Outline) : Nat := o.nodes.countP p

def countAll (p : Node → Bool) (os : List Outline) : Nat := (Outline.allNodes os).countP p

variable {p : Node → Bool}

@[simp] theorem count_node (n : Node) (children : List Outline) :
    (Outline.node n children).count p = countAll p children + (p n).toNat := by
  cases hn : p n <;> simp [count, countAll, Outline.nodes, List.countP_append, hn]

@[simp] theorem countAll_nil : countAll p [] = 0 := rfl

@[simp] theorem countAll_cons (o : Outline) (os : List Outline) :
    countAll p (o :: os) = o.count p + countAll p os := by
  simp [count, countAll, Outline.allNodes, List.countP_append]

@[simp] theorem countAll_append (os ps : List Outline) :
    countAll p (os ++ ps) = countAll p os + countAll p ps := by
  simp [countAll, List.countP_append]

end Outline

mutual

/-- A test that no type passes finds nothing in a type. -/
theorem TypeRef.count_outline {p : Node → Bool} (hp : ∀ t, p (.typeRef t) = false) :
    ∀ t : TypeRef, t.outline.count p = 0
  | ⟨_, args, _⟩ => by simp [TypeRef.outline, hp, TypeRef.countAll_outlines hp args]

theorem TypeRef.countAll_outlines {p : Node → Bool} (hp : ∀ t, p (.typeRef t) = false) :
    ∀ ts : List TypeRef, Outline.countAll p (TypeRef.outlines ts) = 0
  | [] => rfl
  | t :: rest => by
    simp [TypeRef.outlines, TypeRef.count_outline hp t, TypeRef.countAll_outlines hp rest]

end

namespace Node

/-- A node that a shallow test can pass: a literal or a call. -/
@[reducible] def speaks : Node → Bool
  | .expr (.literal _) | .call .. => true
  | _ => false

/-- A test that passes literals and calls only, and of a call looks at the name alone. -/
structure Shallow (p : Node → Bool) : Prop where
  silent : ∀ n, n.speaks = false → p n = false
  call : ∀ receiver receiver' name args args',
    p (.call receiver name args) = p (.call receiver' name args')

namespace Shallow

variable {p : Node → Bool} (hp : Shallow p)
include hp

theorem type (t : TypeRef) : t.outline.count p = 0 :=
  TypeRef.count_outline (fun _ => hp.silent _ rfl) t

theorem types (ts : List TypeRef) : Outline.countAll p (TypeRef.outlines ts) = 0 :=
  TypeRef.countAll_outlines (fun _ => hp.silent _ rfl) ts

theorem typeList (ts : List TypeRef) : Outline.countAll p (ts.map TypeRef.outline) = 0 := by
  induction ts with
  | nil => rfl
  | cons t rest ih => rw [List.map_cons, Outline.countAll_cons, hp.type, ih]

theorem params (ps : List Param) : Outline.countAll p (ps.map Param.outline) = 0 := by
  induction ps with
  | nil => rfl
  | cons x rest ih =>
    rw [List.map_cons, Outline.countAll_cons, ih, Param.outline, Outline.count_node,
      Outline.countAll_cons, hp.type, hp.silent _ rfl]
    rfl

theorem block (xs : List Stmt) :
    (Stmt.block xs).outline.count p = Outline.countAll p (Stmt.outlines xs) := by
  simp (disch := rfl) [Stmt.outline, hp.silent]

end Shallow

theorem shallow_isCall (name : String) : Shallow (isCall name) where
  silent n h := by
    cases n with
    | call receiver name args => cases h
    | _ => rfl
  call _ _ _ _ _ := rfl

end Node

variable {ι : Type} {p : Node → Bool} {q : ι → Bool}

/-- Every edit of a node adds as many nodes that pass a test as are noted and counted about it. -/
structure Editor.Adds (ed : Editor) (notes : Notes ι) (p : Node → Bool) (q : ι → Bool) : Prop where
  shallow : Node.Shallow p
  expr : ∀ e, (ed.expr e).outline.count p = e.outline.count p + (notes.expr e).countP q
  single : ∀ h x,
    (ed.stmt h x).single.outline.count p = x.outline.count p + (notes.stmt h x).countP q
  list : ∀ h x, Outline.countAll p (Stmt.outlines (ed.stmt h x).toList) =
    x.outline.count p + (notes.stmt h x).countP q

namespace Editor.Adds

variable {ed : Editor} {notes : Notes ι}

mutual

theorem count_exprParts (ha : ed.Adds notes p q) : ∀ e : Expr,
    (e.editParts ed).outline.count p = e.outline.count p + (e.partNotes ed notes).countP q
  | .literal _ | .ident _ | .this => by simp [Expr.editParts, Expr.partNotes]
  | .field e _ => by
    have he := ha.count_exprParts e
    simp (disch := rfl) only [Expr.editParts, Expr.partNotes, Expr.outline, Outline.count_node,
      Outline.countAll_cons, Outline.countAll_nil, ha.shallow.silent, Bool.toNat_false,
      List.countP_append, ha.expr, he]
    omega
  | .call receiver n args => by
    have hr := ha.count_exprOption receiver
    have hs := ha.count_exprAll args
    have hcall := ha.shallow.call (Expr.editOption ed receiver) receiver n
      (Expr.editAll ed args) args
    simp (disch := rfl) only [Expr.editParts, Expr.partNotes, Expr.outline, Outline.count_node,
      Outline.countAll_cons, Outline.countAll_append, Outline.countAll_nil, ha.shallow.silent,
      Bool.toNat_false, List.countP_append, hcall, hr, hs]
    omega
  | .create _ args => by
    have hs := ha.count_exprAll args
    simp (disch := rfl) only [Expr.editParts, Expr.partNotes, Expr.outline, Outline.count_node,
      Outline.countAll_cons, ha.shallow.type, ha.shallow.silent, Bool.toNat_false, hs]
    omega
  | .assign target _ value => by
    have ht := ha.count_exprParts target
    have hv := ha.count_exprParts value
    simp (disch := rfl) only [Expr.editParts, Expr.partNotes, Expr.outline, Outline.count_node,
      Outline.countAll_cons, Outline.countAll_nil, ha.shallow.silent, Bool.toNat_false,
      List.countP_append, ha.expr, ht, hv]
    omega
  | .binary _ lhs rhs => by
    have hl := ha.count_exprParts lhs
    have hr := ha.count_exprParts rhs
    simp (disch := rfl) only [Expr.editParts, Expr.partNotes, Expr.outline, Outline.count_node,
      Outline.countAll_cons, Outline.countAll_nil, ha.shallow.silent, Bool.toNat_false,
      List.countP_append, ha.expr, hl, hr]
    omega
  | .unary op operand => by
    have ho := ha.count_exprParts operand
    cases hw : op.writes <;>
      simp (disch := rfl) only [Expr.editParts, Expr.partNotes, Expr.outline, Outline.count_node,
        Outline.countAll_cons, Outline.countAll_nil, ha.shallow.silent, Bool.toNat_false,
        List.countP_append, hw, if_true, Bool.false_eq_true, if_false, List.countP_nil, ha.expr,
        ho] <;>
      omega
  | .cast _ operand => by
    have ho := ha.count_exprParts operand
    simp (disch := rfl) only [Expr.editParts, Expr.partNotes, Expr.outline, Outline.count_node,
      Outline.countAll_cons, Outline.countAll_nil, ha.shallow.type, ha.shallow.silent,
      Bool.toNat_false, List.countP_append, ha.expr, ho]
    omega

theorem count_exprOption (ha : ed.Adds notes p q) : ∀ e : Option Expr,
    Outline.countAll p (Expr.optionOutline (Expr.editOption ed e)) =
      Outline.countAll p (Expr.optionOutline e) + (Expr.optionNotes ed notes e).countP q
  | none => rfl
  | some e => by
    have he := ha.count_exprParts e
    simp only [Expr.editOption, Expr.optionNotes, Expr.optionOutline, Outline.countAll_cons,
      Outline.countAll_nil, List.countP_append, ha.expr, he]
    omega

theorem count_exprAll (ha : ed.Adds notes p q) : ∀ es : List Expr,
    Outline.countAll p (Expr.outlines (Expr.editAll ed es)) =
      Outline.countAll p (Expr.outlines es) + (Expr.allNotes ed notes es).countP q
  | [] => rfl
  | e :: rest => by
    have he := ha.count_exprParts e
    have hr := ha.count_exprAll rest
    simp only [Expr.editAll, Expr.allNotes, Expr.outlines, Outline.countAll_cons,
      List.countP_append, ha.expr, he, hr]
    omega

end

theorem count_expr (ha : ed.Adds notes p q) (e : Expr) :
    (e.edit ed).outline.count p = e.outline.count p + (e.notes ed notes).countP q := by
  simp only [Expr.edit, Expr.notes, ha.expr, ha.count_exprParts, List.countP_append]
  omega

theorem count_declarators (ha : ed.Adds notes p q) (ds : List Declarator) :
    Outline.countAll p (Declarator.outlines (Declarator.editAll ed ds)) =
      Outline.countAll p (Declarator.outlines ds)
        + (Declarator.allNotes ed notes ds).countP q := by
  induction ds with
  | nil => rfl
  | cons d rest ih =>
    have hd := ha.count_exprOption d.init
    simp only [Declarator.outlines, Declarator.editAll, Declarator.allNotes] at ih ⊢
    simp only [List.map_cons, List.flatMap_cons, Outline.countAll_append, List.countP_append, hd,
      ih]
    omega

mutual

theorem count_stmtParts (ha : ed.Adds notes p q) : ∀ (x : Stmt) (h : Nat),
    (x.editParts ed h).outline.count p =
      x.outline.count p + (x.partNotes ed notes h).countP q
  | .expr e, h => by
    simp (disch := rfl) only [Stmt.editParts, Stmt.partNotes, Stmt.outline, Outline.count_node,
      Outline.countAll_cons, Outline.countAll_nil, ha.shallow.silent, Bool.toNat_false,
      ha.count_expr]
    omega
  | .vars v, h => by
    simp (disch := rfl) only [Stmt.editParts, Stmt.partNotes, Stmt.outline, LocalVars.edit,
      LocalVars.outline, Outline.count_node, Outline.countAll_cons, Outline.countAll_nil,
      ha.shallow.silent, Bool.toNat_false, ha.shallow.type, ha.count_declarators]
    omega
  | .block stmts, h => by
    have hs := ha.count_stmtAll stmts h
    simp (disch := rfl) only [Stmt.editParts, Stmt.partNotes, Stmt.outline, Outline.count_node,
      Outline.countAll_cons, Outline.countAll_nil, ha.shallow.silent, Bool.toNat_false, hs]
    omega
  | .ifElse cond thenBranch elseBranch, h => by
    have ht := ha.count_stmtParts thenBranch h
    have he := ha.count_stmtOption elseBranch h
    simp (disch := rfl) only [Stmt.editParts, Stmt.partNotes, Stmt.outline, Outline.count_node,
      Outline.countAll_cons, ha.shallow.silent, Bool.toNat_false, List.countP_append, ha.count_expr,
      ha.single, ht, he]
    omega
  | .whileLoop cond body, h => by
    have hb := ha.count_stmtParts body h
    simp (disch := rfl) only [Stmt.editParts, Stmt.partNotes, Stmt.outline, Outline.count_node,
      Outline.countAll_cons, Outline.countAll_nil, ha.shallow.silent, Bool.toNat_false,
      List.countP_append, ha.count_expr, ha.single, hb]
    omega
  | .forLoop init cond update body, h => by
    have hi := ha.count_stmtAll init (h + 1)
    have hb := ha.count_stmtParts body h
    simp (disch := rfl) only [Stmt.editParts, Stmt.partNotes, Stmt.outline, Outline.count_node,
      Outline.countAll_cons, Outline.countAll_append, Outline.countAll_nil, ha.shallow.silent,
      Bool.toNat_false, List.countP_append, ha.count_exprOption, ha.count_exprAll, ha.single, hi,
      hb]
    omega
  | .ret value, h => by
    simp (disch := rfl) only [Stmt.editParts, Stmt.partNotes, Stmt.outline, Outline.count_node,
      ha.shallow.silent, Bool.toNat_false, ha.count_exprOption]
    omega
  | .switch selector cases, h => by
    have hc := ha.count_caseAll cases h
    simp (disch := rfl) only [Stmt.editParts, Stmt.partNotes, Stmt.outline, Outline.count_node,
      Outline.countAll_cons, ha.shallow.silent, Bool.toNat_false, List.countP_append, ha.count_expr,
      hc]
    omega
  | .throw e, h => by
    simp (disch := rfl) only [Stmt.editParts, Stmt.partNotes, Stmt.outline, Outline.count_node,
      Outline.countAll_cons, Outline.countAll_nil, ha.shallow.silent, Bool.toNat_false,
      ha.count_expr]
    omega
  | .breakOut, h | .continueOn, h | .empty, h => by simp [Stmt.editParts, Stmt.partNotes]

theorem count_stmtOption (ha : ed.Adds notes p q) : ∀ (x : Option Stmt) (h : Nat),
    Outline.countAll p (Stmt.optionOutline (Stmt.editOption ed h x)) =
      Outline.countAll p (Stmt.optionOutline x) + (Stmt.optionNotes ed notes h x).countP q
  | none, h => rfl
  | some x, h => by
    have hx := ha.count_stmtParts x h
    simp only [Stmt.editOption, Stmt.optionNotes, Stmt.optionOutline, Outline.countAll_cons,
      Outline.countAll_nil, List.countP_append, ha.single, hx]
    omega

theorem count_stmtAll (ha : ed.Adds notes p q) : ∀ (xs : List Stmt) (h : Nat),
    Outline.countAll p (Stmt.outlines (Stmt.editAll ed h xs)) =
      Outline.countAll p (Stmt.outlines xs) + (Stmt.allNotes ed notes h xs).countP q
  | [], h => rfl
  | x :: rest, h => by
    have hx := ha.count_stmtParts x h
    have hr := ha.count_stmtAll rest h
    simp only [Stmt.editAll, Stmt.allNotes, Stmt.outlines_append, Stmt.outlines,
      Outline.countAll_append, Outline.countAll_cons, List.countP_append, ha.list, hx, hr]
    omega

theorem count_caseAll (ha : ed.Adds notes p q) : ∀ (cs : List SwitchCase) (h : Nat),
    Outline.countAll p (SwitchCase.outlines (SwitchCase.editAll ed h cs)) =
      Outline.countAll p (SwitchCase.outlines cs) + (SwitchCase.allNotes ed notes h cs).countP q
  | [], h => rfl
  | ⟨labels, body⟩ :: rest, h => by
    have hb := ha.count_stmtAll body h
    have hr := ha.count_caseAll rest h
    simp only [SwitchCase.editAll, SwitchCase.allNotes, SwitchCase.outlines,
      Outline.countAll_append, List.countP_append, ha.count_exprAll, hb, hr]
    omega

end

theorem count_block (ha : ed.Adds notes p q) (b : Block) :
    (Block.outline (Stmt.editAll ed 0 b)).count p =
      (Block.outline b).count p + (Stmt.allNotes ed notes 0 b).countP q := by
  simp (disch := rfl) only [Block.outline, Outline.count_node, ha.shallow.silent, Bool.toNat_false,
    ha.count_stmtAll]
  omega

end Editor.Adds

section Declarations

variable {ed : Scope → Editor} {notes : Scope → Notes ι}

theorem FieldDecl.count_edit (ha : ∀ s, (ed s).Adds (notes s) p q) (f : FieldDecl)
    (s : Scope) :
    (f.edit (ed s)).outline.count p =
      f.outline.count p + (Declarator.allNotes (ed s) (notes s) f.declarators).countP q := by
  simp (disch := rfl) only [FieldDecl.outline, FieldDecl.edit, Outline.count_node,
    Outline.countAll_cons, (ha s).shallow.type, (ha s).shallow.silent, Bool.toNat_false,
    (ha s).count_declarators]
  omega

theorem MethodDecl.count_edit (ha : ∀ s, (ed s).Adds (notes s) p q) (m : MethodDecl)
    (s : Scope) :
    (m.edit (ed s)).outline.count p =
      m.outline.count p + (Stmt.allNotes (ed s) (notes s) 0 (m.body.getD [])).countP q := by
  cases hb : m.body with
  | none =>
    simp (disch := rfl) only [MethodDecl.outline, MethodDecl.edit, hb, Option.map_none,
      Option.toList_none, List.map_nil, Outline.count_node, Outline.countAll_append,
      Outline.countAll_cons, Outline.countAll_nil, List.cons_append, (ha s).shallow.type,
      (ha s).shallow.params, (ha s).shallow.silent, Bool.toNat_false, Option.getD_none,
      Stmt.allNotes, List.countP_nil]
  | some b =>
    have hc := (ha s).count_block b
    simp (disch := rfl) only [MethodDecl.outline, MethodDecl.edit, hb, Option.map_some,
      Option.toList_some, List.map_cons, List.map_nil, Outline.count_node, Outline.countAll_append,
      Outline.countAll_cons, Outline.countAll_nil, List.cons_append, (ha s).shallow.type,
      (ha s).shallow.params, (ha s).shallow.silent, Bool.toNat_false, Option.getD_some, hc]
    omega

theorem ConstructorDecl.count_edit (ha : ∀ s, (ed s).Adds (notes s) p q)
    (c : ConstructorDecl) (s : Scope) :
    (c.edit (ed s)).outline.count p =
      c.outline.count p + (Stmt.allNotes (ed s) (notes s) 0 c.body).countP q := by
  have hc := (ha s).count_block c.body
  simp (disch := rfl) only [ConstructorDecl.outline, ConstructorDecl.edit, Outline.count_node,
    Outline.countAll_append, Outline.countAll_cons, Outline.countAll_nil, (ha s).shallow.params,
    (ha s).shallow.silent, Bool.toNat_false, hc]
  omega

mutual

theorem Member.count_edit (ha : ∀ s, (ed s).Adds (notes s) p q) : ∀ (m : Member) (s : Scope),
    (m.edit ed s).outline.count p = m.outline.count p + (m.notes ed notes s).countP q
  | .field f, s => by
    simp (disch := rfl) only [Member.edit, Member.notes, Member.outline, Outline.count_node,
      Outline.countAll_cons, Outline.countAll_nil, (ha s).shallow.silent, Bool.toNat_false,
      FieldDecl.count_edit ha]
    omega
  | .method m, s => by
    simp (disch := rfl) only [Member.edit, Member.notes, Member.outline, Outline.count_node,
      Outline.countAll_cons, Outline.countAll_nil, (ha s).shallow.silent, Bool.toNat_false,
      MethodDecl.count_edit ha]
    omega
  | .constructor c, s => by
    simp (disch := rfl) only [Member.edit, Member.notes, Member.outline, Outline.count_node,
      Outline.countAll_cons, Outline.countAll_nil, (ha s).shallow.silent, Bool.toNat_false,
      ConstructorDecl.count_edit ha]
    omega
  | .type t, s => by
    have ht := TypeDecl.count_edit ha t s
    simp (disch := rfl) only [Member.edit, Member.notes, Member.outline, Outline.count_node,
      Outline.countAll_cons, Outline.countAll_nil, (ha s).shallow.silent, Bool.toNat_false, ht]
    omega

theorem TypeDecl.count_edit (ha : ∀ s, (ed s).Adds (notes s) p q) :
    ∀ (t : TypeDecl) (s : Scope),
    (t.edit ed s).outline.count p = t.outline.count p + (t.notes ed notes s).countP q
  | ⟨_, _, n, _, _, members⟩, s => by
    have hm := Member.count_editAll ha members (s.enterType n)
    simp (disch := rfl) only [TypeDecl.edit, TypeDecl.notes, TypeDecl.outline, Outline.count_node,
      Outline.countAll_append, (ha s).shallow.typeList, (ha s).shallow.types,
      (ha s).shallow.silent, Bool.toNat_false, hm]
    omega

theorem Member.count_editAll (ha : ∀ s, (ed s).Adds (notes s) p q) :
    ∀ (ms : List Member) (s : Scope),
    Outline.countAll p (Member.outlines (Member.editAll ed s ms)) =
      Outline.countAll p (Member.outlines ms) + (Member.allNotes ed notes s ms).countP q
  | [], s => rfl
  | m :: rest, s => by
    have hm := Member.count_edit ha m s
    have hr := Member.count_editAll ha rest s
    simp only [Member.editAll, Member.allNotes, Member.outlines, Outline.countAll_cons,
      List.countP_append, hm, hr]
    omega

end

/-- What a test passes in an edited unit is what it passed before and what is noted. -/
theorem CompilationUnit.count_edit (ha : ∀ s, (ed s).Adds (notes s) p q)
    (u : CompilationUnit) (s : Scope) :
    (u.edit ed s).outline.count p = u.outline.count p + (u.notes ed notes s).countP q := by
  have hall : ∀ ts : List TypeDecl,
      Outline.countAll p ((ts.map (TypeDecl.edit ed s)).map TypeDecl.outline) =
        Outline.countAll p (ts.map TypeDecl.outline)
          + (ts.flatMap (TypeDecl.notes ed notes s)).countP q := by
    intro ts
    induction ts with
    | nil => rfl
    | cons t rest ih =>
      have ht := TypeDecl.count_edit ha t s
      simp only [List.map_cons, Outline.countAll_cons, List.flatMap_cons, List.countP_append, ht,
        ih]
      omega
  simp (disch := rfl) only [CompilationUnit.outline, CompilationUnit.edit, CompilationUnit.notes,
    Outline.count_node, (ha s).shallow.silent, Bool.toNat_false, Nat.add_zero, hall]

end Declarations

section Calls

variable {name : String}

/-- Every edit of a node adds as many calls of a name as are noted about it. -/
structure Editor.AddsCalls (ed : Editor) (notes : Notes ι) (name : String) : Prop where
  expr : ∀ e, (ed.expr e).outline.calls name = e.outline.calls name + (notes.expr e).length
  single : ∀ h x,
    (ed.stmt h x).single.outline.calls name = x.outline.calls name + (notes.stmt h x).length
  list : ∀ h x, Outline.allCalls name (Stmt.outlines (ed.stmt h x).toList) =
    x.outline.calls name + (notes.stmt h x).length

theorem Editor.addsCalls_iff {ed : Editor} {notes : Notes ι} :
    ed.AddsCalls notes name ↔ ed.Adds notes (Node.isCall name) fun _ => true := by
  constructor
  · rintro ⟨hexpr, hsingle, hlist⟩
    simp only [← List.countP_true] at hexpr hsingle hlist
    exact ⟨Node.shallow_isCall name, hexpr, hsingle, hlist⟩
  · rintro ⟨-, hexpr, hsingle, hlist⟩
    simp only [List.countP_true] at hexpr hsingle hlist
    exact ⟨hexpr, hsingle, hlist⟩

theorem Editor.AddsCalls.calls_stmtParts {ed : Editor} {notes : Notes ι}
    (ha : ed.AddsCalls notes name) (x : Stmt) (h : Nat) :
    (x.editParts ed h).outline.calls name =
      x.outline.calls name + (x.partNotes ed notes h).length := by
  rw [← List.countP_true]
  exact (Editor.addsCalls_iff.mp ha).count_stmtParts x h

/-- The calls of an edited unit are those it had and those that are noted. -/
theorem CompilationUnit.calls_edit {ed : Scope → Editor} {notes : Scope → Notes ι}
    (ha : ∀ s, (ed s).AddsCalls (notes s) name) (u : CompilationUnit) (s : Scope) :
    (u.edit ed s).outline.calls name = u.outline.calls name + (u.notes ed notes s).length := by
  rw [← List.countP_true]
  exact CompilationUnit.count_edit (fun s => Editor.addsCalls_iff.mp (ha s)) u s

end Calls

section Integers

/-- The number that an integer literal writes. -/
def Node.int? : Node → Option Int64
  | .expr (.literal (.int i)) => some i
  | _ => none

def Node.isInt (i : Int64) (n : Node) : Bool := n.int? == some i

theorem Node.shallow_isInt (i : Int64) : Node.Shallow (Node.isInt i) where
  silent n h := by
    cases n with
    | expr e =>
      cases e with
      | literal l => cases h
      | _ => rfl
    | _ => rfl
  call _ _ _ _ _ := rfl

namespace Outline

/-- The numbers that the integer literals of an outline write, in source order. -/
def ints (o : Outline) : List Int64 := o.nodes.filterMap Node.int?

def allInts (os : List Outline) : List Int64 := (Outline.allNodes os).filterMap Node.int?

@[simp] theorem ints_node (n : Node) (children : List Outline) :
    (Outline.node n children).ints = allInts children ++ n.int?.toList := by
  cases hn : n.int? <;> simp [ints, allInts, Outline.nodes, List.filterMap_append, hn]

@[simp] theorem allInts_nil : allInts [] = [] := rfl

@[simp] theorem allInts_cons (o : Outline) (os : List Outline) :
    allInts (o :: os) = o.ints ++ allInts os := by
  simp [ints, allInts, Outline.allNodes, List.filterMap_append]

@[simp] theorem allInts_append (os ps : List Outline) :
    allInts (os ++ ps) = allInts os ++ allInts ps := by
  simp [allInts, List.filterMap_append]

theorem count_ints (o : Outline) (i : Int64) : o.ints.count i = o.count (Node.isInt i) :=
  List.count_filterMap

theorem count_allInts (os : List Outline) (i : Int64) :
    (allInts os).count i = countAll (Node.isInt i) os :=
  List.count_filterMap

end Outline

/-- The numbers of a method are those of its body. -/
theorem MethodDecl.mem_ints {m : MethodDecl} {body : Block} (hbody : m.body = some body)
    {i : Int64} : i ∈ m.outline.ints ↔ i ∈ Outline.allInts (Stmt.outlines body) := by
  have hp := Node.shallow_isInt i
  rw [← List.count_pos_iff, ← List.count_pos_iff, Outline.count_ints, Outline.count_allInts]
  simp (disch := rfl) [MethodDecl.outline, Block.outline, hbody, hp.type, hp.params, hp.silent]

end Integers

end VersionWeave
