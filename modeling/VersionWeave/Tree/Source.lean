import VersionWeave.Tree.Basic

namespace VersionWeave

/-- Four spaces for each level. -/
def pad (depth : Nat) : String :=
  String.ofList (List.replicate (4 * depth) ' ')

def commas (items : List String) : String :=
  ", ".intercalate items

def Visibility.keyword? : Visibility → Option String
  | .pub => some "public"
  | .prot => some "protected"
  | .priv => some "private"
  | .pkg => none

def Modifiers.source (m : Modifiers) : String :=
  (m.visibility.keyword?.elim "" (· ++ " "))
    ++ (if m.isAbstract then "abstract " else "")
    ++ (if m.isStatic then "static " else "")
    ++ (if m.isFinal then "final " else "")

mutual

/-- The written form of a type, which also stands for the type in signatures. -/
def TypeRef.source : TypeRef → String
  | ⟨name, args, dims⟩ =>
    name
      ++ (if args.isEmpty then "" else "<" ++ commas (TypeRef.sources args) ++ ">")
      ++ String.join (List.replicate dims.toNat "[]")

def TypeRef.sources : List TypeRef → List String
  | [] => []
  | t :: rest => t.source :: TypeRef.sources rest

end

/-- An escape pair for a backslash, a line break, a return, a tab and the quote in use. -/
def escapeQuoted (quote c : Char) : List Char :=
  if c = '\\' then ['\\', '\\']
  else if c = '\n' then ['\\', 'n']
  else if c = '\r' then ['\\', 'r']
  else if c = '\t' then ['\\', 't']
  else if c = quote then ['\\', c]
  else [c]

def quoted (quote : Char) (text : List Char) : String :=
  String.ofList (quote :: text.flatMap (escapeQuoted quote) ++ [quote])

def Literal.source : Literal → String
  | .int i => i.toInt.repr
  | .long i => i.toInt.repr ++ "L"
  | .float text => text
  | .double text => text
  | .bool b => if b then "true" else "false"
  | .char c => quoted '\'' [c]
  | .str s => quoted '"' s.toList
  | .null => "null"

def BinaryOp.symbol : BinaryOp → String
  | .add => "+"
  | .sub => "-"
  | .mul => "*"
  | .div => "/"
  | .rem => "%"
  | .eq => "=="
  | .ne => "!="
  | .lt => "<"
  | .le => "<="
  | .gt => ">"
  | .ge => ">="
  | .and => "&&"
  | .or => "||"

/-- How tightly an operator binds; higher is tighter. -/
def BinaryOp.precedence : BinaryOp → Nat
  | .or => 1
  | .and => 2
  | .eq | .ne => 3
  | .lt | .le | .gt | .ge => 4
  | .add | .sub => 5
  | .mul | .div | .rem => 6

def AssignOp.symbol : AssignOp → String
  | .assign => "="
  | .add => "+="
  | .sub => "-="
  | .mul => "*="
  | .div => "/="
  | .rem => "%="

def UnaryOp.symbol : UnaryOp → String
  | .neg => "-"
  | .not => "!"
  | .preInc | .postInc => "++"
  | .preDec | .postDec => "--"

def UnaryOp.isPostfix : UnaryOp → Bool
  | .postInc | .postDec => true
  | _ => false

namespace Expr

def assignLevel : Nat := 0

def unaryLevel : Nat := 7

def primaryLevel : Nat := 8

/-- How tightly the outermost form of an expression binds. -/
def level : Expr → Nat
  | .assign .. => assignLevel
  | .binary op _ _ => op.precedence
  | .unary .. | .cast .. => unaryLevel
  | _ => primaryLevel

end Expr

/-- Parentheses around an expression that binds looser than its place asks for. -/
def parenthesize (least level : Nat) (text : String) : String :=
  if level < least then "(" ++ text ++ ")" else text

mutual

/-- An expression in a place that asks for a form binding at least as tightly as `least`. -/
def Expr.sourceAt (least : Nat) : Expr → String
  | .literal l => parenthesize least Expr.primaryLevel l.source
  | .ident n => parenthesize least Expr.primaryLevel n
  | .this => parenthesize least Expr.primaryLevel "this"
  | .field receiver name =>
    parenthesize least Expr.primaryLevel
      (receiver.sourceAt Expr.primaryLevel ++ "." ++ name)
  | .call receiver name args =>
    parenthesize least Expr.primaryLevel
      (Expr.receiverSource receiver ++ name ++ "(" ++ commas (Expr.sources args) ++ ")")
  | .create ty args =>
    parenthesize least Expr.primaryLevel
      ("new " ++ ty.source ++ "(" ++ commas (Expr.sources args) ++ ")")
  | .assign target op value =>
    parenthesize least Expr.assignLevel
      (target.sourceAt Expr.primaryLevel ++ " " ++ op.symbol ++ " "
        ++ value.sourceAt Expr.assignLevel)
  | .binary op lhs rhs =>
    parenthesize least op.precedence
      (lhs.sourceAt op.precedence ++ " " ++ op.symbol ++ " " ++ rhs.sourceAt (op.precedence + 1))
  | .unary op operand =>
    parenthesize least Expr.unaryLevel
      (if op.isPostfix then operand.sourceAt Expr.primaryLevel ++ op.symbol
        else op.symbol ++ operand.sourceAt Expr.unaryLevel)
  | .cast ty operand =>
    parenthesize least Expr.unaryLevel
      ("(" ++ ty.source ++ ") " ++ operand.sourceAt Expr.unaryLevel)

def Expr.receiverSource : Option Expr → String
  | none => ""
  | some e => e.sourceAt Expr.primaryLevel ++ "."

def Expr.sources : List Expr → List String
  | [] => []
  | e :: rest => e.sourceAt Expr.assignLevel :: Expr.sources rest

end

def Expr.source (e : Expr) : String :=
  e.sourceAt Expr.assignLevel

def Declarator.source (d : Declarator) : String :=
  d.name ++ d.init.elim "" (" = " ++ ·.source)

def LocalVars.source (v : LocalVars) : String :=
  v.ty.source ++ " " ++ commas (v.declarators.map Declarator.source)

/-- Text written so far and the indentation for what comes next. -/
structure Page where
  text : String := ""
  depth : Nat := 0
  deriving Inhabited

namespace Page

def indent (p : Page) : Page := { p with depth := p.depth + 1 }

/-- At the margin there is nothing to take back. -/
def dedent (p : Page) : Page := { p with depth := p.depth - 1 }

def token (p : Page) (text : String) : Page := { p with text := p.text ++ text }

def addIndent (p : Page) : Page := p.token (pad p.depth)

def newline (p : Page) : Page := p.token "\n"

end Page

namespace Stmt

def isBlock : Stmt → Bool
  | .block _ => true
  | _ => false

def isIf : Stmt → Bool
  | .ifElse .. => true
  | _ => false

/-- The header part of a statement that a loop header can hold. -/
def headerSource : Stmt → String
  | .expr e => e.source
  | .vars v => v.source
  | _ => ""

/-- A loop header holds one declaration of locals, or expressions only. -/
def fitsHeader : List Stmt → Bool
  | [.vars _] => true
  | init => init.all fun
    | .expr _ => true
    | _ => false

/-- The body of a control statement: a block on the same line, anything else on its own. -/
def attach (body : Stmt) (write : Page → Page) (p : Page) : Page :=
  if body.isBlock then write (p.token " ")
  else (write p.newline.indent.addIndent).dedent

/-- A loop with its header, and what writes its body. -/
def writeLoop (init : String) (cond : Option Expr) (update : List Expr) (body : Stmt)
    (write : Page → Page) (p : Page) : Page :=
  attach body write
    (p.token ("for (" ++ init ++ ";" ++ cond.elim "" (" " ++ ·.source) ++ ";"
      ++ (if update.isEmpty then "" else " " ++ commas (update.map Expr.source)) ++ ")"))

end Stmt

/-- A label of an arm on a line of its own. -/
def SwitchCase.writeLabel (p : Page) (label : Expr) : Page :=
  (p.addIndent.token ("case " ++ label.source ++ ":")).newline

mutual

/-- A statement from where its line starts, without the line break after it. -/
def Stmt.writeInline : Stmt → Page → Page
  | .expr e, p => p.token (e.source ++ ";")
  | .vars v, p => p.token (v.source ++ ";")
  | .block stmts, p =>
    (Stmt.writeAll stmts (p.token "\x7b").newline.indent).dedent.addIndent.token "\x7d"
  | .ifElse cond thenBranch elseBranch, p =>
    Stmt.writeElse thenBranch.isBlock elseBranch
      (Stmt.attach thenBranch (fun p => thenBranch.writeInline p)
        (p.token ("if (" ++ cond.source ++ ")")))
  | .whileLoop cond body, p =>
    Stmt.attach body (fun p => body.writeInline p) (p.token ("while (" ++ cond.source ++ ")"))
  | .forLoop init cond update body, p =>
    if Stmt.fitsHeader init then
      Stmt.writeLoop (commas (init.map Stmt.headerSource)) cond update body
        (fun p => body.writeInline p) p
    else
      (Stmt.writeLoop "" cond update body (fun p => body.writeInline p)
        (Stmt.writeAll init (p.token "\x7b").newline.indent).addIndent).newline.dedent.addIndent.token
          "\x7d"
  | .ret value, p => p.token ("return" ++ value.elim "" (" " ++ ·.source) ++ ";")
  | .switch selector cases, p =>
    (SwitchCase.writeAll cases
      (p.token ("switch (" ++ selector.source ++ ") \x7b")).newline.indent).dedent.addIndent.token
        "\x7d"
  | .breakOut, p => p.token "break;"
  | .continueOn, p => p.token "continue;"
  | .throw e, p => p.token ("throw " ++ e.source ++ ";")
  | .empty, p => p.token ";"

/-- An else stays on the line of a block; after it, another if goes on the same line. -/
def Stmt.writeElse (afterBlock : Bool) : Option Stmt → Page → Page
  | none, p => p
  | some s, p =>
    let p := (if afterBlock then p.token " " else p.newline.addIndent).token "else"
    if s.isIf then s.writeInline (p.token " ") else Stmt.attach s (fun p => s.writeInline p) p

/-- Statements on lines of their own. -/
def Stmt.writeAll : List Stmt → Page → Page
  | [], p => p
  | s :: rest, p => Stmt.writeAll rest (s.writeInline p.addIndent).newline

def SwitchCase.writeAll : List SwitchCase → Page → Page
  | [], p => p
  | c :: rest, p => SwitchCase.writeAll rest (c.write p)

/-- The labels of an arm, and its statements one level deeper. -/
def SwitchCase.write : SwitchCase → Page → Page
  | ⟨labels, body⟩, p =>
    let p := if labels.isEmpty then (p.addIndent.token "default:").newline else p
    (Stmt.writeAll body (labels.foldl SwitchCase.writeLabel p).indent).dedent

end

/-- A statement on a line of its own. -/
def Stmt.write (s : Stmt) (p : Page) : Page :=
  (s.writeInline p.addIndent).newline

def Block.write (b : Block) : Page → Page :=
  Stmt.writeInline (.block b)

def Param.source (p : Param) : String :=
  p.ty.source ++ " " ++ p.name

/-- The types of a parameter list as they are written. -/
def writtenTypes (params : List Param) : List String :=
  params.map fun p => p.ty.source

/-- Whether a method of this name and these written parameter types is declared. -/
def TypeDecl.hasMethod (t : TypeDecl) (name : String) (types : List String) : Bool :=
  t.methods.any fun m => m.name = name ∧ writtenTypes m.params = types

def paramsSource (params : List Param) : String :=
  "(" ++ commas (params.map Param.source) ++ ")"

def FieldDecl.write (f : FieldDecl) (p : Page) : Page :=
  (p.addIndent.token (f.modifiers.source ++ f.ty.source ++ " "
    ++ commas (f.declarators.map Declarator.source) ++ ";")).newline

def MethodDecl.write (m : MethodDecl) (p : Page) : Page :=
  let p := p.addIndent.token
    (m.modifiers.source ++ m.returnType.source ++ " " ++ m.name ++ paramsSource m.params)
  (m.body.elim (p.token ";") fun body => Block.write body (p.token " ")).newline

def ConstructorDecl.write (c : ConstructorDecl) (p : Page) : Page :=
  (Block.write c.body (p.addIndent.token
    (c.modifiers.source ++ c.name ++ paramsSource c.params ++ " "))).newline

def TypeKind.keyword : TypeKind → String
  | .classType => "class "
  | .interfaceType => "interface "

/-- Everything of a type declaration before its members. -/
def TypeDecl.header (kind : TypeKind) (modifiers : Modifiers) (name : String)
    (superclass : Option TypeRef) (interfaces : List TypeRef) : String :=
  modifiers.source ++ kind.keyword ++ name
    ++ superclass.elim "" (" extends " ++ ·.source)
    ++ (if interfaces.isEmpty then "" else " implements " ++ commas (interfaces.map TypeRef.source))
    ++ " \x7b"

mutual

def Member.write : Member → Page → Page
  | .field f, p => f.write p
  | .method m, p => m.write p
  | .constructor c, p => c.write p
  | .type t, p => t.write p

def TypeDecl.write : TypeDecl → Page → Page
  | ⟨kind, modifiers, name, superclass, interfaces, members⟩, p =>
    ((Member.writeAll none members
      (p.addIndent.token (TypeDecl.header kind modifiers name superclass
        interfaces)).newline.indent).dedent.addIndent.token "\x7d").newline

/-- Members with a blank line between them, except between two fields. -/
def Member.writeAll (previousIsField : Option Bool) : List Member → Page → Page
  | [], p => p
  | m :: rest, p =>
    let together := previousIsField.elim true fun wasField => wasField && m.isField
    Member.writeAll (some m.isField) rest (m.write (if together then p else p.newline))

end

/-- Types with a blank line between them. -/
def TypeDecl.writeAll : List TypeDecl → Page → Page
  | [], p => p
  | t :: rest, p => rest.foldl (fun p t => t.write p.newline) (t.write p)

def CompilationUnit.write (u : CompilationUnit) (p : Page) : Page :=
  let p := u.package.elim p fun name => (p.token ("package " ++ name ++ ";")).newline.newline
  let p := if u.imports.isEmpty then p
    else (u.imports.foldl (fun p i => (p.token ("import " ++ i ++ ";")).newline) p).newline
  TypeDecl.writeAll u.types p

/-- A node that can be written on a page. -/
class Source (α : Type) where
  write : α → Page → Page

instance : Source Modifiers where write m p := p.token m.source
instance : Source TypeRef where write t p := p.token t.source
instance : Source Literal where write l p := p.token l.source
instance : Source Expr where write e p := p.token e.source
instance : Source Stmt where write := Stmt.write
instance : Source Block where write := Block.write
instance : Source Param where write x p := p.token x.source
instance : Source FieldDecl where write := FieldDecl.write
instance : Source MethodDecl where write := MethodDecl.write
instance : Source ConstructorDecl where write := ConstructorDecl.write
instance : Source Member where write := Member.write
instance : Source TypeDecl where write := TypeDecl.write
instance : Source CompilationUnit where write := CompilationUnit.write

def Page.write {α : Type} [Source α] (p : Page) (node : α) : Page :=
  Source.write node p

/-- The text of a node at an indentation depth. -/
def Source.sourceAt {α : Type} [Source α] (depth : Nat) (node : α) : String :=
  (Page.write { depth } node).text

/-- The text of a node at the left margin. -/
def source {α : Type} [Source α] (node : α) : String :=
  Source.sourceAt 0 node

end VersionWeave
