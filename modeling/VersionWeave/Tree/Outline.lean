import VersionWeave.Tree.Basic

namespace VersionWeave

/-- A node of the tree of a unit. A call and a field access are nodes inside their expression. -/
inductive Node where
  | unit (u : CompilationUnit)
  | typeDecl (t : TypeDecl)
  | member (m : Member)
  | fieldDecl (f : FieldDecl)
  | methodDecl (m : MethodDecl)
  | constructorDecl (c : ConstructorDecl)
  | param (p : Param)
  | block (b : Block)
  | stmt (s : Stmt)
  | localVars (v : LocalVars)
  | expr (e : Expr)
  | call (receiver : Option Expr) (name : String) (args : List Expr)
  | fieldAccess (receiver : Expr) (name : String)
  | typeRef (t : TypeRef)

/-- A node with the outlines of its children, in source order. -/
inductive Outline where
  | node (label : Node) (children : List Outline)

mutual

def TypeRef.outline : TypeRef → Outline
  | ⟨name, args, dims⟩ => .node (.typeRef ⟨name, args, dims⟩) (TypeRef.outlines args)

def TypeRef.outlines : List TypeRef → List Outline
  | [] => []
  | t :: rest => t.outline :: TypeRef.outlines rest

end

mutual

def Expr.outline : Expr → Outline
  | .literal l => .node (.expr (.literal l)) []
  | .ident n => .node (.expr (.ident n)) []
  | .this => .node (.expr .this) []
  | .field receiver name =>
    .node (.expr (.field receiver name))
      [.node (.fieldAccess receiver name) [receiver.outline]]
  | .call receiver name args =>
    .node (.expr (.call receiver name args))
      [.node (.call receiver name args) (Expr.optionOutline receiver ++ Expr.outlines args)]
  | .create ty args => .node (.expr (.create ty args)) (ty.outline :: Expr.outlines args)
  | .assign target op value =>
    .node (.expr (.assign target op value)) [target.outline, value.outline]
  | .binary op lhs rhs => .node (.expr (.binary op lhs rhs)) [lhs.outline, rhs.outline]
  | .unary op operand => .node (.expr (.unary op operand)) [operand.outline]
  | .cast ty operand => .node (.expr (.cast ty operand)) [ty.outline, operand.outline]

def Expr.optionOutline : Option Expr → List Outline
  | none => []
  | some e => [e.outline]

def Expr.outlines : List Expr → List Outline
  | [] => []
  | e :: rest => e.outline :: Expr.outlines rest

end

/-- The initial values of the variables that have one. -/
def Declarator.outlines (declarators : List Declarator) : List Outline :=
  declarators.flatMap fun d => Expr.optionOutline d.init

def LocalVars.outline (v : LocalVars) : Outline :=
  .node (.localVars v) (v.ty.outline :: Declarator.outlines v.declarators)

mutual

def Stmt.outline : Stmt → Outline
  | .expr e => .node (.stmt (.expr e)) [e.outline]
  | .vars v => .node (.stmt (.vars v)) [v.outline]
  | .block stmts => .node (.stmt (.block stmts)) [.node (.block stmts) (Stmt.outlines stmts)]
  | .ifElse cond thenBranch elseBranch =>
    .node (.stmt (.ifElse cond thenBranch elseBranch))
      (cond.outline :: thenBranch.outline :: Stmt.optionOutline elseBranch)
  | .whileLoop cond body => .node (.stmt (.whileLoop cond body)) [cond.outline, body.outline]
  | .forLoop init cond update body =>
    .node (.stmt (.forLoop init cond update body))
      (Stmt.outlines init ++ Expr.optionOutline cond ++ Expr.outlines update ++ [body.outline])
  | .ret value => .node (.stmt (.ret value)) (Expr.optionOutline value)
  | .switch selector cases =>
    .node (.stmt (.switch selector cases)) (selector.outline :: SwitchCase.outlines cases)
  | .breakOut => .node (.stmt .breakOut) []
  | .continueOn => .node (.stmt .continueOn) []
  | .throw e => .node (.stmt (.throw e)) [e.outline]
  | .empty => .node (.stmt .empty) []

def Stmt.optionOutline : Option Stmt → List Outline
  | none => []
  | some s => [s.outline]

def Stmt.outlines : List Stmt → List Outline
  | [] => []
  | s :: rest => s.outline :: Stmt.outlines rest

/-- The labels and the body of each arm. -/
def SwitchCase.outlines : List SwitchCase → List Outline
  | [] => []
  | ⟨labels, body⟩ :: rest => Expr.outlines labels ++ Stmt.outlines body ++ SwitchCase.outlines rest

end

def Block.outline (b : Block) : Outline :=
  .node (.block b) (Stmt.outlines b)

def Param.outline (p : Param) : Outline :=
  .node (.param p) [p.ty.outline]

def FieldDecl.outline (f : FieldDecl) : Outline :=
  .node (.fieldDecl f) (f.ty.outline :: Declarator.outlines f.declarators)

def MethodDecl.outline (m : MethodDecl) : Outline :=
  .node (.methodDecl m)
    (m.returnType.outline :: m.params.map Param.outline ++ m.body.toList.map Block.outline)

def ConstructorDecl.outline (c : ConstructorDecl) : Outline :=
  .node (.constructorDecl c) (c.params.map Param.outline ++ [Block.outline c.body])

mutual

def Member.outline : Member → Outline
  | .field f => .node (.member (.field f)) [f.outline]
  | .method m => .node (.member (.method m)) [m.outline]
  | .constructor c => .node (.member (.constructor c)) [c.outline]
  | .type t => .node (.member (.type t)) [t.outline]

def TypeDecl.outline : TypeDecl → Outline
  | ⟨kind, modifiers, name, superclass, interfaces, members⟩ =>
    .node (.typeDecl ⟨kind, modifiers, name, superclass, interfaces, members⟩)
      (superclass.toList.map TypeRef.outline ++ TypeRef.outlines interfaces
        ++ Member.outlines members)

def Member.outlines : List Member → List Outline
  | [] => []
  | m :: rest => m.outline :: Member.outlines rest

end

def CompilationUnit.outline (u : CompilationUnit) : Outline :=
  .node (.unit u) (u.types.map TypeDecl.outline)

/-- What a visitor asks for when it meets a node. -/
inductive Reply where
  | descend
  | skip
  | stop
  deriving DecidableEq, Repr

/-- What is done on entering a node and on leaving it, with a state that is carried along. -/
structure Visitor (σ : Type) where
  enter : Node → StateM σ Reply := fun _ => return .descend
  leave : Node → StateM σ Unit := fun _ => return ()

variable {σ : Type}

mutual

/--
Takes a visitor through an outline and tells whether it came to the end. A skipped node is left at
once; after a stop nothing is left any more.
-/
def Outline.visit (v : Visitor σ) : Outline → StateM σ Bool
  | .node n children => do
    match ← v.enter n with
    | .stop => return false
    | .skip =>
      v.leave n
      return true
    | .descend =>
      let finished ← Outline.visitAll v children
      if finished then v.leave n
      return finished

def Outline.visitAll (v : Visitor σ) : List Outline → StateM σ Bool
  | [] => return true
  | o :: rest => do
    if ← Outline.visit v o then Outline.visitAll v rest else return false

end

inductive Event where
  | enter (n : Node)
  | leave (n : Node)

/-- The visitor that writes down where it comes, and whose reply to a node is the same each time. -/
def Visitor.recorder (reply : Node → Reply) : Visitor (List Event) where
  enter n := do
    modify (· ++ [.enter n])
    return reply n
  leave n := modify (· ++ [.leave n])

namespace Outline

/-- The events of a walk and whether it ran to its end. -/
def walk (reply : Node → Reply) (o : Outline) : List Event × Bool :=
  ((o.visit (.recorder reply)).run []).swap

def walkAll (reply : Node → Reply) (os : List Outline) : List Event × Bool :=
  ((visitAll (.recorder reply) os).run []).swap

end Outline

end VersionWeave
