import VersionWeave.Proofs.Tree.Editor

namespace VersionWeave

variable {ι : Type} {P : ι → Prop}

section

variable {ed : Editor} {notes : Notes ι} (h : ∀ e, ∀ x ∈ notes.expr e, P x)
include h

mutual

theorem Expr.forall_partNotes : ∀ e : Expr, ∀ x ∈ e.partNotes ed notes, P x
  | .literal _ => by simp [Expr.partNotes]
  | .ident _ => by simp [Expr.partNotes]
  | .this => by simp [Expr.partNotes]
  | .field receiver _ => List.forall_mem_append.mpr ⟨Expr.forall_partNotes receiver, h _⟩
  | .call receiver _ args =>
    List.forall_mem_append.mpr ⟨Expr.forall_optionNotes receiver, Expr.forall_allNotes args⟩
  | .create _ args => Expr.forall_allNotes args
  | .assign target _ value => by
    simp only [Expr.partNotes, List.forall_mem_append]
    exact ⟨Expr.forall_partNotes target, Expr.forall_partNotes value, h _⟩
  | .binary _ lhs rhs => by
    simp only [Expr.partNotes, List.forall_mem_append]
    exact ⟨⟨Expr.forall_partNotes lhs, h _⟩, Expr.forall_partNotes rhs, h _⟩
  | .unary op operand => by
    simp only [Expr.partNotes, List.forall_mem_append]
    refine ⟨Expr.forall_partNotes operand, ?_⟩
    split
    next => simp
    next => exact h _
  | .cast _ operand => List.forall_mem_append.mpr ⟨Expr.forall_partNotes operand, h _⟩

theorem Expr.forall_optionNotes : ∀ e : Option Expr, ∀ x ∈ Expr.optionNotes ed notes e, P x
  | none => by simp [Expr.optionNotes]
  | some e => List.forall_mem_append.mpr ⟨Expr.forall_partNotes e, h _⟩

theorem Expr.forall_allNotes : ∀ es : List Expr, ∀ x ∈ Expr.allNotes ed notes es, P x
  | [] => by simp [Expr.allNotes]
  | e :: rest => by
    simp only [Expr.allNotes, List.forall_mem_append]
    exact ⟨⟨Expr.forall_partNotes e, h _⟩, Expr.forall_allNotes rest⟩

end

theorem Expr.forall_notes (e : Expr) : ∀ x ∈ e.notes ed notes, P x :=
  List.forall_mem_append.mpr ⟨Expr.forall_partNotes h e, h _⟩

theorem Declarator.forall_allNotes (ds : List Declarator) :
    ∀ x ∈ Declarator.allNotes ed notes ds, P x := by
  intro x hx
  obtain ⟨d, -, hx⟩ := List.mem_flatMap.mp hx
  exact Expr.forall_optionNotes h d.init x hx

end

/-- Whatever is written down about one node has the property. -/
structure Notes.All (notes : Notes ι) (P : ι → Prop) : Prop where
  expr : ∀ e, ∀ x ∈ notes.expr e, P x
  stmt : ∀ h s, ∀ x ∈ notes.stmt h s, P x

namespace Notes.All

variable {ed : Editor} {notes : Notes ι} (h : notes.All P)
include h

mutual

theorem stmtParts (headers : Nat) : ∀ s : Stmt, ∀ x ∈ s.partNotes ed notes headers, P x
  | .expr e => Expr.forall_notes h.expr e
  | .vars v => Declarator.forall_allNotes h.expr v.declarators
  | .block stmts => block headers stmts
  | .ifElse cond thenBranch elseBranch => by
    simp only [Stmt.partNotes, List.forall_mem_append]
    exact ⟨⟨Expr.forall_notes h.expr cond, stmtParts headers thenBranch, h.stmt _ _⟩,
      stmtOption headers elseBranch⟩
  | .whileLoop cond body => by
    simp only [Stmt.partNotes, List.forall_mem_append]
    exact ⟨Expr.forall_notes h.expr cond, stmtParts headers body, h.stmt _ _⟩
  | .forLoop init cond update body => by
    simp only [Stmt.partNotes, List.forall_mem_append]
    exact ⟨⟨⟨block (headers + 1) init, Expr.forall_optionNotes h.expr cond⟩,
      Expr.forall_allNotes h.expr update⟩, stmtParts headers body, h.stmt _ _⟩
  | .ret value => Expr.forall_optionNotes h.expr value
  | .switch selector cases =>
    List.forall_mem_append.mpr ⟨Expr.forall_notes h.expr selector, arms headers cases⟩
  | .breakOut => by simp [Stmt.partNotes]
  | .continueOn => by simp [Stmt.partNotes]
  | .throw e => Expr.forall_notes h.expr e
  | .empty => by simp [Stmt.partNotes]

theorem stmtOption (headers : Nat) :
    ∀ s : Option Stmt, ∀ x ∈ Stmt.optionNotes ed notes headers s, P x
  | none => by simp [Stmt.optionNotes]
  | some s => List.forall_mem_append.mpr ⟨stmtParts headers s, h.stmt _ _⟩

theorem block (headers : Nat) : ∀ ss : List Stmt, ∀ x ∈ Stmt.allNotes ed notes headers ss, P x
  | [] => by simp [Stmt.allNotes]
  | s :: rest => by
    simp only [Stmt.allNotes, List.forall_mem_append]
    exact ⟨⟨stmtParts headers s, h.stmt _ _⟩, block headers rest⟩

theorem arms (headers : Nat) :
    ∀ cs : List SwitchCase, ∀ x ∈ SwitchCase.allNotes ed notes headers cs, P x
  | [] => by simp [SwitchCase.allNotes]
  | ⟨labels, body⟩ :: rest => by
    simp only [SwitchCase.allNotes, List.forall_mem_append]
    exact ⟨⟨Expr.forall_allNotes h.expr labels, block headers body⟩, arms headers rest⟩

end

end Notes.All

/-- The scopes of one batch: the same table and marker, whatever is around. -/
structure Scope.Over (table : SymbolTable) (marker : Marker) (s : Scope) : Prop where
  table : s.table = table
  marker : s.marker = marker

namespace Scope.Over

variable {table : SymbolTable} {marker : Marker} {s : Scope} (h : s.Over table marker)
include h

theorem enterType (name : String) : (s.enterType name).Over table marker := ⟨h.table, h.marker⟩

theorem enterMethod (m : MethodDecl) : (s.enterMethod m).Over table marker := ⟨h.table, h.marker⟩

theorem enterConstructor : s.enterConstructor.Over table marker := ⟨h.table, h.marker⟩

end Scope.Over

section

variable {ed : Scope → Editor} {notes : Scope → Notes ι} {table : SymbolTable} {marker : Marker}

mutual

theorem Member.notes_all (h : ∀ s, s.Over table marker → (notes s).All P) :
    ∀ (m : Member) (s : Scope), s.Over table marker → ∀ x ∈ m.notes ed notes s, P x
  | .field f, s, hs => Declarator.forall_allNotes (h s hs).expr f.declarators
  | .method m, _, hs => (h _ (hs.enterMethod m)).block 0 _
  | .constructor c, _, hs => (h _ hs.enterConstructor).block 0 c.body
  | .type t, s, hs => TypeDecl.notes_all h t s hs

theorem TypeDecl.notes_all (h : ∀ s, s.Over table marker → (notes s).All P) :
    ∀ (t : TypeDecl) (s : Scope), s.Over table marker → ∀ x ∈ t.notes ed notes s, P x
  | ⟨_, _, name, _, _, members⟩, _, hs => Member.allNotes_all h members _ (hs.enterType name)

theorem Member.allNotes_all (h : ∀ s, s.Over table marker → (notes s).All P) :
    ∀ (ms : List Member) (s : Scope), s.Over table marker → ∀ x ∈ Member.allNotes ed notes s ms, P x
  | [], _, _ => by simp [Member.allNotes]
  | m :: rest, s, hs =>
    List.forall_mem_append.mpr ⟨Member.notes_all h m s hs, Member.allNotes_all h rest s hs⟩

end

/-- What every scope of the batch writes down about one node holds of all that a unit yields. -/
theorem CompilationUnit.notes_all (h : ∀ s, s.Over table marker → (notes s).All P)
    (u : CompilationUnit) {s : Scope} (hs : s.Over table marker) : ∀ x ∈ u.notes ed notes s, P x := by
  intro x hx
  obtain ⟨t, -, hx⟩ := List.mem_flatMap.mp hx
  exact TypeDecl.notes_all h t s hs x hx

end

/-- What is written down about a node is worked out, item by item, from what other notes have. -/
structure Notes.From {κ : Type} (derived : Notes κ) (notes : Notes ι) (f : ι → List κ) : Prop where
  expr : ∀ e, derived.expr e = (notes.expr e).flatMap f
  stmt : ∀ h x, derived.stmt h x = (notes.stmt h x).flatMap f

namespace Notes.From

variable {κ : Type} {ed : Editor} {derived : Notes κ} {notes : Notes ι} {f : ι → List κ}
  (h : derived.From notes f)
include h

mutual

theorem exprParts : ∀ e : Expr, e.partNotes ed derived = (e.partNotes ed notes).flatMap f
  | .literal _ => rfl
  | .ident _ => rfl
  | .this => rfl
  | .field receiver _ => by
    simp only [Expr.partNotes, List.flatMap_append, exprParts receiver, h.expr]
  | .call receiver _ args => by
    simp only [Expr.partNotes, List.flatMap_append, exprOption receiver, exprs args]
  | .create _ args => by simp only [Expr.partNotes, exprs args]
  | .assign target _ value => by
    simp only [Expr.partNotes, List.flatMap_append, exprParts target, exprParts value, h.expr]
  | .binary _ lhs rhs => by
    simp only [Expr.partNotes, List.flatMap_append, exprParts lhs, exprParts rhs, h.expr]
  | .unary op operand => by
    cases hw : op.writes <;>
      simp only [Expr.partNotes, List.flatMap_append, exprParts operand, h.expr, hw, if_true,
        Bool.false_eq_true, if_false, List.flatMap_nil]
  | .cast _ operand => by
    simp only [Expr.partNotes, List.flatMap_append, exprParts operand, h.expr]

theorem exprOption : ∀ e : Option Expr,
    Expr.optionNotes ed derived e = (Expr.optionNotes ed notes e).flatMap f
  | none => rfl
  | some e => by simp only [Expr.optionNotes, List.flatMap_append, exprParts e, h.expr]

theorem exprs : ∀ es : List Expr,
    Expr.allNotes ed derived es = (Expr.allNotes ed notes es).flatMap f
  | [] => rfl
  | e :: rest => by
    simp only [Expr.allNotes, List.flatMap_append, exprParts e, exprs rest, h.expr]

end

theorem wholeExpr (e : Expr) : e.notes ed derived = (e.notes ed notes).flatMap f := by
  simp only [Expr.notes, List.flatMap_append, h.exprParts, h.expr]

theorem declarators (ds : List Declarator) :
    Declarator.allNotes ed derived ds = (Declarator.allNotes ed notes ds).flatMap f := by
  simp only [Declarator.allNotes, List.flatMap_assoc, h.exprOption]

mutual

theorem stmtParts (headers : Nat) : ∀ x : Stmt,
    x.partNotes ed derived headers = (x.partNotes ed notes headers).flatMap f
  | .expr e => h.wholeExpr e
  | .vars v => h.declarators v.declarators
  | .block stmts => block headers stmts
  | .ifElse cond thenBranch elseBranch => by
    simp only [Stmt.partNotes, List.flatMap_append, h.wholeExpr, h.stmt,
      stmtParts headers thenBranch, stmtOption headers elseBranch]
  | .whileLoop cond body => by
    simp only [Stmt.partNotes, List.flatMap_append, h.wholeExpr, h.stmt, stmtParts headers body]
  | .forLoop init cond update body => by
    simp only [Stmt.partNotes, List.flatMap_append, h.exprOption, h.exprs, h.stmt,
      block (headers + 1) init, stmtParts headers body]
  | .ret value => h.exprOption value
  | .switch selector cases => by
    simp only [Stmt.partNotes, List.flatMap_append, h.wholeExpr, arms headers cases]
  | .breakOut => rfl
  | .continueOn => rfl
  | .throw e => h.wholeExpr e
  | .empty => rfl

theorem stmtOption (headers : Nat) : ∀ x : Option Stmt,
    Stmt.optionNotes ed derived headers x = (Stmt.optionNotes ed notes headers x).flatMap f
  | none => rfl
  | some x => by simp only [Stmt.optionNotes, List.flatMap_append, stmtParts headers x, h.stmt]

theorem block (headers : Nat) : ∀ xs : List Stmt,
    Stmt.allNotes ed derived headers xs = (Stmt.allNotes ed notes headers xs).flatMap f
  | [] => rfl
  | x :: rest => by
    simp only [Stmt.allNotes, List.flatMap_append, stmtParts headers x, block headers rest, h.stmt]

theorem arms (headers : Nat) : ∀ cs : List SwitchCase,
    SwitchCase.allNotes ed derived headers cs = (SwitchCase.allNotes ed notes headers cs).flatMap f
  | [] => rfl
  | ⟨labels, body⟩ :: rest => by
    simp only [SwitchCase.allNotes, List.flatMap_append, h.exprs, block headers body,
      arms headers rest]

end

end Notes.From

section

variable {κ : Type} {ed : Scope → Editor} {derived : Scope → Notes κ} {notes : Scope → Notes ι}
  {f : ι → List κ}

mutual

theorem Member.notes_from (h : ∀ s, (derived s).From (notes s) f) : ∀ (m : Member) (s : Scope),
    m.notes ed derived s = (m.notes ed notes s).flatMap f
  | .field x, s => (h s).declarators x.declarators
  | .method _, _ => (h _).block 0 _
  | .constructor c, _ => (h _).block 0 c.body
  | .type t, s => TypeDecl.notes_from h t s

theorem TypeDecl.notes_from (h : ∀ s, (derived s).From (notes s) f) : ∀ (t : TypeDecl) (s : Scope),
    t.notes ed derived s = (t.notes ed notes s).flatMap f
  | ⟨_, _, _, _, _, members⟩, _ => Member.allNotes_from h members _

theorem Member.allNotes_from (h : ∀ s, (derived s).From (notes s) f) :
    ∀ (ms : List Member) (s : Scope),
      Member.allNotes ed derived s ms = (Member.allNotes ed notes s ms).flatMap f
  | [], _ => rfl
  | m :: rest, s => by
    simp only [Member.allNotes, List.flatMap_append, Member.notes_from h m s,
      Member.allNotes_from h rest s]

end

/-- What is worked out node by node is worked out for the whole unit. -/
theorem CompilationUnit.notes_from (h : ∀ s, (derived s).From (notes s) f) (u : CompilationUnit)
    (s : Scope) : u.notes ed derived s = (u.notes ed notes s).flatMap f := by
  rw [CompilationUnit.notes, CompilationUnit.notes, List.flatMap_assoc]
  exact congrArg (u.types.flatMap ·) (funext fun t => TypeDecl.notes_from h t s)

end

end VersionWeave
