import VersionWeave.Scope
import VersionWeave.Tree.Revise

namespace VersionWeave

/--
What is made of each node of a body once its parts are done, without any state. A statement is
handed over with the number of loop headers around it; a place that is written to is left alone.
-/
structure Editor where
  type : TypeRef → TypeRef := id
  expr : Expr → Expr := id
  stmt : Nat → Stmt → Edit Stmt := fun _ s => .keep s

/--
What is written down about the nodes of a body, in the order in which they are done. Of a statement
the number of loop headers around it is known.
-/
structure Notes (ι : Type) where
  expr : Expr → List ι := fun _ => []
  stmt : Nat → Stmt → List ι := fun _ _ => []

/-- As many notes about each node, whatever they say. -/
structure Notes.Tallies {ι κ : Type} (tally : Notes ι) (notes : Notes κ) : Prop where
  expr : ∀ e, (tally.expr e).length = (notes.expr e).length
  stmt : ∀ h x, (tally.stmt h x).length = (notes.stmt h x).length

variable {ι : Type}

mutual

def Expr.editParts (ed : Editor) : Expr → Expr
  | .literal l => .literal l
  | .ident n => .ident n
  | .this => .this
  | .field receiver name => .field (ed.expr (receiver.editParts ed)) name
  | .call receiver name args => .call (Expr.editOption ed receiver) name (Expr.editAll ed args)
  | .create ty args => .create (ed.type ty) (Expr.editAll ed args)
  | .assign target op value => .assign (target.editParts ed) op (ed.expr (value.editParts ed))
  | .binary op lhs rhs => .binary op (ed.expr (lhs.editParts ed)) (ed.expr (rhs.editParts ed))
  | .unary op operand =>
    .unary op (if op.writes then operand.editParts ed else ed.expr (operand.editParts ed))
  | .cast ty operand => .cast (ed.type ty) (ed.expr (operand.editParts ed))

def Expr.editOption (ed : Editor) : Option Expr → Option Expr
  | none => none
  | some e => some (ed.expr (e.editParts ed))

def Expr.editAll (ed : Editor) : List Expr → List Expr
  | [] => []
  | e :: rest => ed.expr (e.editParts ed) :: Expr.editAll ed rest

end

mutual

def Expr.partNotes (ed : Editor) (notes : Notes ι) : Expr → List ι
  | .literal _ => []
  | .ident _ => []
  | .this => []
  | .field receiver _ => receiver.partNotes ed notes ++ notes.expr (receiver.editParts ed)
  | .call receiver _ args => Expr.optionNotes ed notes receiver ++ Expr.allNotes ed notes args
  | .create _ args => Expr.allNotes ed notes args
  | .assign target _ value =>
    target.partNotes ed notes ++ (value.partNotes ed notes ++ notes.expr (value.editParts ed))
  | .binary _ lhs rhs =>
    lhs.partNotes ed notes ++ notes.expr (lhs.editParts ed)
      ++ (rhs.partNotes ed notes ++ notes.expr (rhs.editParts ed))
  | .unary op operand =>
    operand.partNotes ed notes ++ if op.writes then [] else notes.expr (operand.editParts ed)
  | .cast _ operand => operand.partNotes ed notes ++ notes.expr (operand.editParts ed)

def Expr.optionNotes (ed : Editor) (notes : Notes ι) : Option Expr → List ι
  | none => []
  | some e => e.partNotes ed notes ++ notes.expr (e.editParts ed)

def Expr.allNotes (ed : Editor) (notes : Notes ι) : List Expr → List ι
  | [] => []
  | e :: rest =>
    e.partNotes ed notes ++ notes.expr (e.editParts ed) ++ Expr.allNotes ed notes rest

end

def Expr.edit (ed : Editor) (e : Expr) : Expr := ed.expr (e.editParts ed)

def Expr.notes (ed : Editor) (notes : Notes ι) (e : Expr) : List ι :=
  e.partNotes ed notes ++ notes.expr (e.editParts ed)

def Declarator.editAll (ed : Editor) (declarators : List Declarator) : List Declarator :=
  declarators.map fun d => { d with init := Expr.editOption ed d.init }

def Declarator.allNotes (ed : Editor) (notes : Notes ι) (declarators : List Declarator) : List ι :=
  declarators.flatMap fun d => Expr.optionNotes ed notes d.init

def LocalVars.edit (ed : Editor) (v : LocalVars) : LocalVars where
  ty := ed.type v.ty
  declarators := Declarator.editAll ed v.declarators

mutual

def Stmt.editParts (ed : Editor) (headers : Nat) : Stmt → Stmt
  | .expr e => .expr (e.edit ed)
  | .vars v => .vars (v.edit ed)
  | .block stmts => .block (Stmt.editAll ed headers stmts)
  | .ifElse cond thenBranch elseBranch =>
    .ifElse (cond.edit ed) (ed.stmt headers (thenBranch.editParts ed headers)).single
      (Stmt.editOption ed headers elseBranch)
  | .whileLoop cond body =>
    .whileLoop (cond.edit ed) (ed.stmt headers (body.editParts ed headers)).single
  | .forLoop init cond update body =>
    .forLoop (Stmt.editAll ed (headers + 1) init) (Expr.editOption ed cond) (Expr.editAll ed update)
      (ed.stmt headers (body.editParts ed headers)).single
  | .ret value => .ret (Expr.editOption ed value)
  | .switch selector cases => .switch (selector.edit ed) (SwitchCase.editAll ed headers cases)
  | .breakOut => .breakOut
  | .continueOn => .continueOn
  | .throw e => .throw (e.edit ed)
  | .empty => .empty

def Stmt.editOption (ed : Editor) (headers : Nat) : Option Stmt → Option Stmt
  | none => none
  | some s => some (ed.stmt headers (s.editParts ed headers)).single

def Stmt.editAll (ed : Editor) (headers : Nat) : List Stmt → List Stmt
  | [] => []
  | s :: rest => (ed.stmt headers (s.editParts ed headers)).toList ++ Stmt.editAll ed headers rest

def SwitchCase.editAll (ed : Editor) (headers : Nat) : List SwitchCase → List SwitchCase
  | [] => []
  | ⟨labels, body⟩ :: rest =>
    ⟨Expr.editAll ed labels, Stmt.editAll ed headers body⟩ :: SwitchCase.editAll ed headers rest

end

mutual

def Stmt.partNotes (ed : Editor) (notes : Notes ι) (headers : Nat) : Stmt → List ι
  | .expr e => e.notes ed notes
  | .vars v => Declarator.allNotes ed notes v.declarators
  | .block stmts => Stmt.allNotes ed notes headers stmts
  | .ifElse cond thenBranch elseBranch =>
    cond.notes ed notes
      ++ (thenBranch.partNotes ed notes headers
        ++ notes.stmt headers (thenBranch.editParts ed headers))
      ++ Stmt.optionNotes ed notes headers elseBranch
  | .whileLoop cond body =>
    cond.notes ed notes
      ++ (body.partNotes ed notes headers ++ notes.stmt headers (body.editParts ed headers))
  | .forLoop init cond update body =>
    Stmt.allNotes ed notes (headers + 1) init ++ Expr.optionNotes ed notes cond
      ++ Expr.allNotes ed notes update
      ++ (body.partNotes ed notes headers ++ notes.stmt headers (body.editParts ed headers))
  | .ret value => Expr.optionNotes ed notes value
  | .switch selector cases => selector.notes ed notes ++ SwitchCase.allNotes ed notes headers cases
  | .breakOut => []
  | .continueOn => []
  | .throw e => e.notes ed notes
  | .empty => []

def Stmt.optionNotes (ed : Editor) (notes : Notes ι) (headers : Nat) : Option Stmt → List ι
  | none => []
  | some s => s.partNotes ed notes headers ++ notes.stmt headers (s.editParts ed headers)

def Stmt.allNotes (ed : Editor) (notes : Notes ι) (headers : Nat) : List Stmt → List ι
  | [] => []
  | s :: rest =>
    s.partNotes ed notes headers ++ notes.stmt headers (s.editParts ed headers)
      ++ Stmt.allNotes ed notes headers rest

def SwitchCase.allNotes (ed : Editor) (notes : Notes ι) (headers : Nat) : List SwitchCase → List ι
  | [] => []
  | ⟨labels, body⟩ :: rest =>
    Expr.allNotes ed notes labels ++ Stmt.allNotes ed notes headers body
      ++ SwitchCase.allNotes ed notes headers rest

end

def Param.edit (ed : Editor) (p : Param) : Param := { p with ty := ed.type p.ty }

def FieldDecl.edit (ed : Editor) (f : FieldDecl) : FieldDecl :=
  { f with ty := ed.type f.ty, declarators := Declarator.editAll ed f.declarators }

def MethodDecl.edit (ed : Editor) (m : MethodDecl) : MethodDecl :=
  { m with
    returnType := ed.type m.returnType
    params := m.params.map (Param.edit ed)
    body := m.body.map (Stmt.editAll ed 0) }

def ConstructorDecl.edit (ed : Editor) (c : ConstructorDecl) : ConstructorDecl :=
  { c with params := c.params.map (Param.edit ed), body := Stmt.editAll ed 0 c.body }

mutual

/-- The scope goes down as an argument: no stack is kept. -/
def Member.edit (ed : Scope → Editor) (s : Scope) : Member → Member
  | .field f => .field (f.edit (ed s))
  | .method m => .method (m.edit (ed (s.enterMethod m)))
  | .constructor c => .constructor (c.edit (ed s.enterConstructor))
  | .type t => .type (t.edit ed s)

def TypeDecl.edit (ed : Scope → Editor) (s : Scope) : TypeDecl → TypeDecl
  | ⟨kind, modifiers, name, superclass, interfaces, members⟩ =>
    ⟨kind, modifiers, name, superclass.map (ed (s.enterType name)).type,
      interfaces.map (ed (s.enterType name)).type, Member.editAll ed (s.enterType name) members⟩

def Member.editAll (ed : Scope → Editor) (s : Scope) : List Member → List Member
  | [] => []
  | m :: rest => m.edit ed s :: Member.editAll ed s rest

end

mutual

def Member.notes (ed : Scope → Editor) (notes : Scope → Notes ι) (s : Scope) : Member → List ι
  | .field f => Declarator.allNotes (ed s) (notes s) f.declarators
  | .method m =>
    Stmt.allNotes (ed (s.enterMethod m)) (notes (s.enterMethod m)) 0 (m.body.getD [])
  | .constructor c => Stmt.allNotes (ed s.enterConstructor) (notes s.enterConstructor) 0 c.body
  | .type t => t.notes ed notes s

def TypeDecl.notes (ed : Scope → Editor) (notes : Scope → Notes ι) (s : Scope) : TypeDecl → List ι
  | ⟨_, _, name, _, _, members⟩ => Member.allNotes ed notes (s.enterType name) members

def Member.allNotes (ed : Scope → Editor) (notes : Scope → Notes ι) (s : Scope) :
    List Member → List ι
  | [] => []
  | m :: rest => m.notes ed notes s ++ Member.allNotes ed notes s rest

end

def CompilationUnit.edit (ed : Scope → Editor) (s : Scope) (u : CompilationUnit) :
    CompilationUnit :=
  { u with types := u.types.map (TypeDecl.edit ed s) }

/-- The same edit everywhere, whatever the scope. -/
def CompilationUnit.editEvenly (ed : Editor) (u : CompilationUnit) : CompilationUnit :=
  u.edit (fun _ => ed) { table := {}, marker := .standard }

def CompilationUnit.notes (ed : Scope → Editor) (notes : Scope → Notes ι) (s : Scope)
    (u : CompilationUnit) : List ι :=
  u.types.flatMap (TypeDecl.notes ed notes s)

end VersionWeave
