import VersionWeave.Tree.Basic

namespace VersionWeave

/-- What becomes of an item of a list: it stays, it goes, or others take its place. -/
inductive Edit (α : Type) where
  | keep (item : α)
  | remove
  | splice (items : List α)

namespace Edit

variable {α β : Type}

def toList : Edit α → List α
  | .keep a => [a]
  | .remove => []
  | .splice items => items

def map (f : α → β) : Edit α → Edit β
  | .keep a => .keep (f a)
  | .remove => .remove
  | .splice items => .splice (items.map f)

/-- Where one statement is required, nothing is the empty statement and several are a block. -/
def single : Edit Stmt → Stmt
  | .keep s => s
  | .remove => .empty
  | .splice stmts => .block stmts

end Edit

/--
What a revision does at each node, over a state. A node is handed over after its parts have been
revised. Types, methods, constructors and loop headers are also announced before their parts and
after them. What stands in a position that is written to goes to `target`.
-/
structure Reviser (σ : Type) where
  enterType : TypeDecl → StateM σ Unit := fun _ => pure ()
  leaveType : TypeDecl → StateM σ Unit := fun _ => pure ()
  enterMethod : MethodDecl → StateM σ Unit := fun _ => pure ()
  leaveMethod : MethodDecl → StateM σ Unit := fun _ => pure ()
  enterConstructor : ConstructorDecl → StateM σ Unit := fun _ => pure ()
  leaveConstructor : ConstructorDecl → StateM σ Unit := fun _ => pure ()
  enterForInit : StateM σ Unit := pure ()
  leaveForInit : StateM σ Unit := pure ()
  unit : CompilationUnit → StateM σ CompilationUnit := pure
  typeDecl : TypeDecl → StateM σ TypeDecl := pure
  member : Member → StateM σ (Edit Member) := fun m => pure (.keep m)
  stmt : Stmt → StateM σ (Edit Stmt) := fun s => pure (.keep s)
  expr : Expr → StateM σ Expr := pure
  target : Expr → StateM σ Expr := expr
  typeRef : TypeRef → StateM σ TypeRef := pure

variable {σ : Type}

mutual

def TypeRef.revise (r : Reviser σ) : TypeRef → StateM σ TypeRef
  | ⟨name, args, dims⟩ => do
    let args ← TypeRef.reviseAll r args
    r.typeRef ⟨name, args, dims⟩

def TypeRef.reviseAll (r : Reviser σ) : List TypeRef → StateM σ (List TypeRef)
  | [] => pure []
  | t :: rest => do
    let t ← t.revise r
    let rest ← TypeRef.reviseAll r rest
    return t :: rest

end

/-- Increments and decrements write to their operand. -/
def UnaryOp.writes : UnaryOp → Bool
  | .neg | .not => false
  | _ => true

mutual

/-- Revises the parts of an expression, not yet the expression itself. -/
def Expr.reviseParts (r : Reviser σ) : Expr → StateM σ Expr
  | .literal l => pure (.literal l)
  | .ident n => pure (.ident n)
  | .this => pure .this
  | .field receiver name => do
    let receiver ← r.expr (← receiver.reviseParts r)
    return .field receiver name
  | .call receiver name args => do
    let receiver ← Expr.reviseOption r receiver
    let args ← Expr.reviseAll r args
    return .call receiver name args
  | .create ty args => do
    let ty ← ty.revise r
    let args ← Expr.reviseAll r args
    return .create ty args
  | .assign target op value => do
    let target ← r.target (← target.reviseParts r)
    let value ← r.expr (← value.reviseParts r)
    return .assign target op value
  | .binary op lhs rhs => do
    let lhs ← r.expr (← lhs.reviseParts r)
    let rhs ← r.expr (← rhs.reviseParts r)
    return .binary op lhs rhs
  | .unary op operand => do
    let parts ← operand.reviseParts r
    let operand ← if op.writes then r.target parts else r.expr parts
    return .unary op operand
  | .cast ty operand => do
    let ty ← ty.revise r
    let operand ← r.expr (← operand.reviseParts r)
    return .cast ty operand

def Expr.reviseOption (r : Reviser σ) : Option Expr → StateM σ (Option Expr)
  | none => pure none
  | some e => do
    let e ← r.expr (← e.reviseParts r)
    return some e

def Expr.reviseAll (r : Reviser σ) : List Expr → StateM σ (List Expr)
  | [] => pure []
  | e :: rest => do
    let e ← r.expr (← e.reviseParts r)
    let rest ← Expr.reviseAll r rest
    return e :: rest

end

def Expr.revise (r : Reviser σ) (e : Expr) : StateM σ Expr := do
  r.expr (← e.reviseParts r)

def Declarator.reviseAll (r : Reviser σ) : List Declarator → StateM σ (List Declarator)
  | [] => pure []
  | d :: rest => do
    let init ← Expr.reviseOption r d.init
    let rest ← Declarator.reviseAll r rest
    return { d with init } :: rest

def LocalVars.revise (r : Reviser σ) (v : LocalVars) : StateM σ LocalVars := do
  let ty ← v.ty.revise r
  let declarators ← Declarator.reviseAll r v.declarators
  return { ty, declarators }

mutual

/-- Revises the parts of a statement, not yet the statement itself. -/
def Stmt.reviseParts (r : Reviser σ) : Stmt → StateM σ Stmt
  | .expr e => do return .expr (← e.revise r)
  | .vars v => do return .vars (← v.revise r)
  | .block stmts => do return .block (← Stmt.reviseAll r stmts)
  | .ifElse cond thenBranch elseBranch => do
    let cond ← cond.revise r
    let thenBranch ← r.stmt (← thenBranch.reviseParts r)
    let elseBranch ← Stmt.reviseOption r elseBranch
    return .ifElse cond thenBranch.single elseBranch
  | .whileLoop cond body => do
    let cond ← cond.revise r
    let body ← r.stmt (← body.reviseParts r)
    return .whileLoop cond body.single
  | .forLoop init cond update body => do
    r.enterForInit
    let init ← Stmt.reviseAll r init
    r.leaveForInit
    let cond ← Expr.reviseOption r cond
    let update ← Expr.reviseAll r update
    let body ← r.stmt (← body.reviseParts r)
    return .forLoop init cond update body.single
  | .ret value => do return .ret (← Expr.reviseOption r value)
  | .switch selector cases => do
    let selector ← selector.revise r
    let cases ← SwitchCase.reviseAll r cases
    return .switch selector cases
  | .breakOut => pure .breakOut
  | .continueOn => pure .continueOn
  | .throw e => do return .throw (← e.revise r)
  | .empty => pure .empty

def Stmt.reviseOption (r : Reviser σ) : Option Stmt → StateM σ (Option Stmt)
  | none => pure none
  | some s => do
    let s ← r.stmt (← s.reviseParts r)
    return some s.single

def Stmt.reviseAll (r : Reviser σ) : List Stmt → StateM σ (List Stmt)
  | [] => pure []
  | s :: rest => do
    let s ← r.stmt (← s.reviseParts r)
    let rest ← Stmt.reviseAll r rest
    return s.toList ++ rest

def SwitchCase.reviseAll (r : Reviser σ) : List SwitchCase → StateM σ (List SwitchCase)
  | [] => pure []
  | ⟨labels, body⟩ :: rest => do
    let labels ← Expr.reviseAll r labels
    let body ← Stmt.reviseAll r body
    let rest ← SwitchCase.reviseAll r rest
    return ⟨labels, body⟩ :: rest

end

/-- A statement among others. -/
def Stmt.revise (r : Reviser σ) (s : Stmt) : StateM σ (Edit Stmt) := do
  r.stmt (← s.reviseParts r)

/-- A statement in a place for exactly one. -/
def Stmt.reviseSingle (r : Reviser σ) (s : Stmt) : StateM σ Stmt := do
  return (← s.revise r).single

def Stmt.reviseForInit (r : Reviser σ) (init : List Stmt) : StateM σ (List Stmt) := do
  r.enterForInit
  let init ← Stmt.reviseAll r init
  r.leaveForInit
  return init

def Param.reviseAll (r : Reviser σ) : List Param → StateM σ (List Param)
  | [] => pure []
  | p :: rest => do
    let ty ← p.ty.revise r
    let rest ← Param.reviseAll r rest
    return { p with ty } :: rest

def FieldDecl.revise (r : Reviser σ) (f : FieldDecl) : StateM σ FieldDecl := do
  let ty ← f.ty.revise r
  let declarators ← Declarator.reviseAll r f.declarators
  return { f with ty, declarators }

def Block.reviseOption (r : Reviser σ) : Option Block → StateM σ (Option Block)
  | none => pure none
  | some b => do return some (← Stmt.reviseAll r b)

def MethodDecl.revise (r : Reviser σ) (m : MethodDecl) : StateM σ MethodDecl := do
  r.enterMethod m
  let returnType ← m.returnType.revise r
  let params ← Param.reviseAll r m.params
  let body ← Block.reviseOption r m.body
  let m := { m with returnType, params, body }
  r.leaveMethod m
  return m

def ConstructorDecl.revise (r : Reviser σ) (c : ConstructorDecl) : StateM σ ConstructorDecl := do
  r.enterConstructor c
  let params ← Param.reviseAll r c.params
  let body ← Stmt.reviseAll r c.body
  let c := { c with params, body }
  r.leaveConstructor c
  return c

def TypeRef.reviseOption (r : Reviser σ) : Option TypeRef → StateM σ (Option TypeRef)
  | none => pure none
  | some t => do return some (← t.revise r)

mutual

def Member.revise (r : Reviser σ) : Member → StateM σ (Edit Member)
  | .field f => do r.member (.field (← f.revise r))
  | .method m => do r.member (.method (← m.revise r))
  | .constructor c => do r.member (.constructor (← c.revise r))
  | .type t => do r.member (.type (← t.revise r))

def TypeDecl.revise (r : Reviser σ) : TypeDecl → StateM σ TypeDecl
  | ⟨kind, modifiers, name, superclass, interfaces, members⟩ => do
    r.enterType ⟨kind, modifiers, name, superclass, interfaces, members⟩
    let superclass ← TypeRef.reviseOption r superclass
    let interfaces ← TypeRef.reviseAll r interfaces
    let members ← Member.reviseAll r members
    r.leaveType ⟨kind, modifiers, name, superclass, interfaces, members⟩
    r.typeDecl ⟨kind, modifiers, name, superclass, interfaces, members⟩

def Member.reviseAll (r : Reviser σ) : List Member → StateM σ (List Member)
  | [] => pure []
  | m :: rest => do
    let m ← m.revise r
    let rest ← Member.reviseAll r rest
    return m.toList ++ rest

end

def TypeDecl.reviseAll (r : Reviser σ) : List TypeDecl → StateM σ (List TypeDecl)
  | [] => pure []
  | t :: rest => do
    let t ← t.revise r
    let rest ← TypeDecl.reviseAll r rest
    return t :: rest

def CompilationUnit.revise (r : Reviser σ) (u : CompilationUnit) : StateM σ CompilationUnit := do
  let types ← TypeDecl.reviseAll r u.types
  r.unit { u with types }

end VersionWeave
