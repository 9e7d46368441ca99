namespace VersionWeave

/-- Access level of a declaration; `pkg` is the level without a keyword. -/
inductive Visibility where
  | pub
  | prot
  | priv
  | pkg
  deriving DecidableEq, Repr, Inhabited

structure Modifiers where
  visibility : Visibility := .pkg
  isStatic : Bool := false
  isFinal : Bool := false
  isAbstract : Bool := false
  deriving DecidableEq, Repr, Inhabited

namespace Modifiers

def pub : Modifiers := { visibility := .pub }

def priv : Modifiers := { visibility := .priv }

def withStatic (m : Modifiers) : Modifiers := { m with isStatic := true }

def withFinal (m : Modifiers) : Modifiers := { m with isFinal := true }

def isPublic (m : Modifiers) : Bool := m.visibility == .pub

end Modifiers

/-- A type as it is written: a name, type arguments, array dimensions. -/
structure TypeRef where
  name : String
  args : List TypeRef := []
  dims : UInt32 := 0
  deriving Repr, Inhabited

namespace TypeRef

def plain (name : String) : TypeRef := { name }

def void : TypeRef := plain "void"

def isVoid (t : TypeRef) : Bool :=
  t.name == "void" && t.args.isEmpty && t.dims == 0

def arrayOf (t : TypeRef) : TypeRef := { t with dims := t.dims + 1 }

end TypeRef

/-- A literal; a floating-point literal is its own text, suffix included. -/
inductive Literal where
  | int (value : Int64)
  | long (value : Int64)
  | float (text : String)
  | double (text : String)
  | bool (value : Bool)
  | char (value : Char)
  | str (text : String)
  | null
  deriving DecidableEq, Inhabited

/-- The type a literal has by itself; `null` has none. -/
def Literal.staticType? : Literal → Option String
  | .int _ => some "int"
  | .long _ => some "long"
  | .float _ => some "float"
  | .double _ => some "double"
  | .bool _ => some "boolean"
  | .char _ => some "char"
  | .str _ => some "String"
  | .null => none

inductive BinaryOp where
  | add
  | sub
  | mul
  | div
  | rem
  | eq
  | ne
  | lt
  | le
  | gt
  | ge
  | and
  | or
  deriving DecidableEq, Repr, Inhabited

inductive UnaryOp where
  | neg
  | not
  | preInc
  | preDec
  | postInc
  | postDec
  deriving DecidableEq, Repr, Inhabited

/-- Plain assignment, or one that applies an operator first. -/
inductive AssignOp where
  | assign
  | add
  | sub
  | mul
  | div
  | rem
  deriving DecidableEq, Repr, Inhabited

/-- The operator that a compound assignment applies. -/
def AssignOp.binaryOp? : AssignOp → Option BinaryOp
  | .assign => none
  | .add => some .add
  | .sub => some .sub
  | .mul => some .mul
  | .div => some .div
  | .rem => some .rem

inductive Expr where
  | literal (value : Literal)
  | ident (name : String)
  | this
  | field (receiver : Expr) (name : String)
  | call (receiver : Option Expr) (name : String) (args : List Expr)
  | create (ty : TypeRef) (args : List Expr)
  | assign (target : Expr) (op : AssignOp) (value : Expr)
  | binary (op : BinaryOp) (lhs rhs : Expr)
  | unary (op : UnaryOp) (operand : Expr)
  | cast (ty : TypeRef) (operand : Expr)
  deriving Inhabited

namespace Expr

def int (value : Int64) : Expr := .literal (.int value)

def string (text : String) : Expr := .literal (.str text)

def thisField (name : String) : Expr := .field .this name

/-- The call `receiver.name(args)`. -/
def callOn (receiver : Expr) (name : String) (args : List Expr) : Expr :=
  .call (some receiver) name args

/-- The plain assignment `target = value`. -/
def set (target value : Expr) : Expr := .assign target .assign value

def ident? : Expr → Option String
  | .ident n => some n
  | _ => none

end Expr

/-- One declared variable with its initial value. -/
structure Declarator where
  name : String
  init : Option Expr := none
  deriving Inhabited

/-- A declaration of local variables. -/
structure LocalVars where
  ty : TypeRef
  declarators : List Declarator
  deriving Inhabited

mutual

inductive Stmt where
  | expr (e : Expr)
  | vars (v : LocalVars)
  | block (stmts : List Stmt)
  | ifElse (cond : Expr) (thenBranch : Stmt) (elseBranch : Option Stmt)
  | whileLoop (cond : Expr) (body : Stmt)
  | forLoop (init : List Stmt) (cond : Option Expr) (update : List Expr) (body : Stmt)
  | ret (value : Option Expr)
  | switch (selector : Expr) (cases : List SwitchCase)
  | breakOut
  | continueOn
  | throw (e : Expr)
  | empty

/-- One arm of a switch; an arm without labels is the default. -/
structure SwitchCase where
  labels : List Expr := []
  body : List Stmt := []

end

deriving instance Inhabited for Stmt
deriving instance Inhabited for SwitchCase

abbrev Block := List Stmt

/-- The receiver, name and arguments of a statement that is nothing but a call. -/
def Stmt.call? : Stmt → Option (Option Expr × String × List Expr)
  | .expr (.call receiver name args) => some (receiver, name, args)
  | _ => none

structure FieldDecl where
  modifiers : Modifiers := {}
  ty : TypeRef
  declarators : List Declarator
  deriving Inhabited

/-- A field of one variable without initial value. -/
def FieldDecl.single (modifiers : Modifiers) (ty : TypeRef) (name : String) : FieldDecl :=
  { modifiers, ty, declarators := [{ name }] }

structure Param where
  ty : TypeRef
  name : String
  deriving Inhabited

/-- A method; one without a body is abstract or belongs to an interface. -/
structure MethodDecl where
  modifiers : Modifiers := {}
  returnType : TypeRef
  name : String
  params : List Param := []
  body : Option Block := none
  deriving Inhabited

structure ConstructorDecl where
  modifiers : Modifiers := {}
  name : String
  params : List Param := []
  body : Block := []
  deriving Inhabited

inductive TypeKind where
  | classType
  | interfaceType
  deriving DecidableEq, Repr, Inhabited

mutual

inductive Member where
  | field (decl : FieldDecl)
  | method (decl : MethodDecl)
  | constructor (decl : ConstructorDecl)
  | type (decl : TypeDecl)

/-- A class or an interface. -/
structure TypeDecl where
  kind : TypeKind := .classType
  modifiers : Modifiers := {}
  name : String
  superclass : Option TypeRef := none
  interfaces : List TypeRef := []
  members : List Member := []

end

deriving instance Inhabited for TypeDecl
deriving instance Inhabited for Member

namespace Member

def method? : Member → Option MethodDecl
  | .method m => some m
  | _ => none

def field? : Member → Option FieldDecl
  | .field f => some f
  | _ => none

def constructor? : Member → Option ConstructorDecl
  | .constructor c => some c
  | _ => none

def isField (m : Member) : Bool := m.field?.isSome

/-- A nested type of this name and kind. -/
def type? (name : String) (kind : TypeKind) : Member → Option TypeDecl
  | .type t => if t.kind = kind ∧ t.name = name then some t else none
  | _ => none

end Member

namespace TypeDecl

def methods (t : TypeDecl) : List MethodDecl := t.members.filterMap Member.method?

def fields (t : TypeDecl) : List FieldDecl := t.members.filterMap Member.field?

def constructors (t : TypeDecl) : List ConstructorDecl := t.members.filterMap Member.constructor?

/-- The first directly nested type of this name and kind. -/
def nested? (t : TypeDecl) (name : String) (kind : TypeKind) : Option TypeDecl :=
  t.members.findSome? (Member.type? name kind)

def append (t : TypeDecl) (members : List Member) : TypeDecl :=
  { t with members := t.members ++ members }

end TypeDecl

/-- One source file. -/
structure CompilationUnit where
  package : Option String := none
  imports : List String := []
  types : List TypeDecl := []
  deriving Inhabited

/-- The first public top-level type, or else the first of all. -/
def CompilationUnit.primary? (u : CompilationUnit) : Option TypeDecl :=
  (u.types.find? fun t => t.modifiers.isPublic).or u.types.head?

def CompilationUnit.primaryName? (u : CompilationUnit) : Option String :=
  u.primary?.map TypeDecl.name

end VersionWeave
