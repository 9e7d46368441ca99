import VersionWeave.Json.Reader
import VersionWeave.Tree.Basic

namespace VersionWeave

/-- A variant without content: its name, or an object that gives it `null`. -/
def Json.bare? : Nat → Json → Option String
  | _, .str tag => some tag
  | _ + 1, .obj [(some tag, .null)] => some tag
  | _, _ => none

def Visibility.ofTag? : String → Option Visibility
  | "public" => some .pub
  | "protected" => some .prot
  | "private" => some .priv
  | "package" => some .pkg
  | _ => none

def Visibility.ofJson? (depth : Nat) (j : Json) : Option Visibility :=
  (j.bare? depth).bind ofTag?

def Modifiers.ofJson? : Nat → Json → Option Modifiers
  | 0, _ => none
  | d + 1, j => do
    let fs ← j.fields? ["visibility", "is_static", "is_final", "is_abstract"]
    let visibility ← fs.orElse "visibility" .pkg (Visibility.ofJson? d)
    let isStatic ← fs.orElse "is_static" false Json.bool?
    let isFinal ← fs.orElse "is_final" false Json.bool?
    let isAbstract ← fs.orElse "is_abstract" false Json.bool?
    return { visibility, isStatic, isFinal, isAbstract }

mutual

def TypeRef.ofJson? : Nat → Json → Option TypeRef
  | 0, _ => none
  | d + 1, j => do
    let fs ← j.fields? ["name", "args", "array_dims"]
    let name ← fs.need "name" Json.str?
    let args ← fs.orElse "args" [] (TypeRef.listOfJson? d)
    let dims ← fs.orElse "array_dims" 0 Json.uint32?
    return { name, args, dims }

def TypeRef.listOfJson? : Nat → Json → Option (List TypeRef)
  | d + 1, .arr items => items.mapM (TypeRef.ofJson? d)
  | _, _ => none

end

def Literal.ofJson? : Nat → Json → Option Literal
  | _, .str tag => if tag = "null" then some .null else none
  | _ + 1, .obj [(some tag, content)] =>
    match tag with
    | "int" => content.int64?.map .int
    | "long" => content.int64?.map .long
    | "float" => content.str?.map .float
    | "double" => content.str?.map .double
    | "bool" => content.bool?.map .bool
    | "char" => content.char?.map .char
    | "str" => content.str?.map .str
    | "null" => if content matches .null then some .null else none
    | _ => none
  | _, _ => none

def BinaryOp.ofTag? : String → Option BinaryOp
  | "add" => some .add
  | "sub" => some .sub
  | "mul" => some .mul
  | "div" => some .div
  | "rem" => some .rem
  | "eq" => some .eq
  | "ne" => some .ne
  | "lt" => some .lt
  | "le" => some .le
  | "gt" => some .gt
  | "ge" => some .ge
  | "and" => some .and
  | "or" => some .or
  | _ => none

def BinaryOp.ofJson? (depth : Nat) (j : Json) : Option BinaryOp :=
  (j.bare? depth).bind ofTag?

def UnaryOp.ofTag? : String → Option UnaryOp
  | "neg" => some .neg
  | "not" => some .not
  | "pre_inc" => some .preInc
  | "pre_dec" => some .preDec
  | "post_inc" => some .postInc
  | "post_dec" => some .postDec
  | _ => none

def UnaryOp.ofJson? (depth : Nat) (j : Json) : Option UnaryOp :=
  (j.bare? depth).bind ofTag?

def AssignOp.ofTag? : String → Option AssignOp
  | "assign" => some .assign
  | "add" => some .add
  | "sub" => some .sub
  | "mul" => some .mul
  | "div" => some .div
  | "rem" => some .rem
  | _ => none

def AssignOp.ofJson? (depth : Nat) (j : Json) : Option AssignOp :=
  (j.bare? depth).bind ofTag?

mutual

def Expr.ofJson? : Nat → Json → Option Expr
  | _, .str tag => if tag = "this" then some .this else none
  | d + 1, .obj [(some tag, content)] =>
    match tag with
    | "literal" => (Literal.ofJson? d content).map .literal
    | "name" => content.str?.map .ident
    | "this" => if content matches .null then some .this else none
    | "field_access" => Expr.fieldOfJson? d content
    | "method_call" => Expr.callOfJson? d content
    | "new" => Expr.createOfJson? d content
    | "assign" => Expr.assignOfJson? d content
    | "binary" => Expr.binaryOfJson? d content
    | "unary" => Expr.unaryOfJson? d content
    | "cast" => Expr.castOfJson? d content
    | _ => none
  | _, _ => none

def Expr.fieldOfJson? : Nat → Json → Option Expr
  | 0, _ => none
  | d + 1, j => do
    let fs ← j.fields? ["receiver", "name"]
    let receiver ← fs.need "receiver" (Expr.ofJson? d)
    let name ← fs.need "name" Json.str?
    return .field receiver name

def Expr.callOfJson? : Nat → Json → Option Expr
  | 0, _ => none
  | d + 1, j => do
    let fs ← j.fields? ["receiver", "name", "args"]
    let receiver ← fs.option "receiver" (Expr.ofJson? d)
    let name ← fs.need "name" Json.str?
    let args ← fs.orElse "args" [] (Expr.listOfJson? d)
    return .call receiver name args

def Expr.createOfJson? : Nat → Json → Option Expr
  | 0, _ => none
  | d + 1, j => do
    let fs ← j.fields? ["ty", "args"]
    let ty ← fs.need "ty" (TypeRef.ofJson? d)
    let args ← fs.orElse "args" [] (Expr.listOfJson? d)
    return .create ty args

def Expr.assignOfJson? : Nat → Json → Option Expr
  | 0, _ => none
  | d + 1, j => do
    let fs ← j.fields? ["target", "op", "value"]
    let target ← fs.need "target" (Expr.ofJson? d)
    let op ← fs.orElse "op" .assign (AssignOp.ofJson? d)
    let value ← fs.need "value" (Expr.ofJson? d)
    return .assign target op value

def Expr.binaryOfJson? : Nat → Json → Option Expr
  | 0, _ => none
  | d + 1, j => do
    let fs ← j.fields? ["op", "lhs", "rhs"]
    let op ← fs.need "op" (BinaryOp.ofJson? d)
    let lhs ← fs.need "lhs" (Expr.ofJson? d)
    let rhs ← fs.need "rhs" (Expr.ofJson? d)
    return .binary op lhs rhs

def Expr.unaryOfJson? : Nat → Json → Option Expr
  | 0, _ => none
  | d + 1, j => do
    let fs ← j.fields? ["op", "operand"]
    let op ← fs.need "op" (UnaryOp.ofJson? d)
    let operand ← fs.need "operand" (Expr.ofJson? d)
    return .unary op operand

def Expr.castOfJson? : Nat → Json → Option Expr
  | 0, _ => none
  | d + 1, j => do
    let fs ← j.fields? ["ty", "expr"]
    let ty ← fs.need "ty" (TypeRef.ofJson? d)
    let operand ← fs.need "expr" (Expr.ofJson? d)
    return .cast ty operand

def Expr.listOfJson? : Nat → Json → Option (List Expr)
  | d + 1, .arr items => items.mapM (Expr.ofJson? d)
  | _, _ => none

end

def Declarator.ofJson? : Nat → Json → Option Declarator
  | 0, _ => none
  | d + 1, j => do
    let fs ← j.fields? ["name", "init"]
    let name ← fs.need "name" Json.str?
    let init ← fs.option "init" (Expr.ofJson? d)
    return { name, init }

def LocalVars.ofJson? : Nat → Json → Option LocalVars
  | 0, _ => none
  | d + 1, j => do
    let fs ← j.fields? ["ty", "variables"]
    let ty ← fs.need "ty" (TypeRef.ofJson? d)
    let declarators ← fs.need "variables" (Json.list? Declarator.ofJson? d)
    return { ty, declarators }

def Stmt.ofTag? : String → Option Stmt
  | "break" => some .breakOut
  | "continue" => some .continueOn
  | "empty" => some .empty
  | _ => none

mutual

def Stmt.ofJson? : Nat → Json → Option Stmt
  | _, .str tag => Stmt.ofTag? tag
  | d + 1, .obj [(some tag, content)] =>
    match tag with
    | "expr" => (Expr.ofJson? d content).map .expr
    | "local" => (LocalVars.ofJson? d content).map .vars
    | "block" => (Stmt.blockOfJson? d content).map .block
    | "if" => Stmt.ifOfJson? d content
    | "while" => Stmt.whileOfJson? d content
    | "for" => Stmt.forOfJson? d content
    | "return" => (Json.nullable (Expr.ofJson? d) content).map .ret
    | "switch" => Stmt.switchOfJson? d content
    | "throw" => (Expr.ofJson? d content).map .throw
    | tag => if content matches .null then Stmt.ofTag? tag else none
  | _, _ => none

def Stmt.blockOfJson? : Nat → Json → Option (List Stmt)
  | 0, _ => none
  | d + 1, j => do
    let fs ← j.fields? ["stmts"]
    fs.need "stmts" (Stmt.listOfJson? d)

def Stmt.ifOfJson? : Nat → Json → Option Stmt
  | 0, _ => none
  | d + 1, j => do
    let fs ← j.fields? ["cond", "then_branch", "else_branch"]
    let cond ← fs.need "cond" (Expr.ofJson? d)
    let thenBranch ← fs.need "then_branch" (Stmt.ofJson? d)
    let elseBranch ← fs.option "else_branch" (Stmt.ofJson? d)
    return .ifElse cond thenBranch elseBranch

def Stmt.whileOfJson? : Nat → Json → Option Stmt
  | 0, _ => none
  | d + 1, j => do
    let fs ← j.fields? ["cond", "body"]
    let cond ← fs.need "cond" (Expr.ofJson? d)
    let body ← fs.need "body" (Stmt.ofJson? d)
    return .whileLoop cond body

def Stmt.forOfJson? : Nat → Json → Option Stmt
  | 0, _ => none
  | d + 1, j => do
    let fs ← j.fields? ["init", "cond", "update", "body"]
    let init ← fs.orElse "init" [] (Stmt.listOfJson? d)
    let cond ← fs.option "cond" (Expr.ofJson? d)
    let update ← fs.orElse "update" [] (Expr.listOfJson? d)
    let body ← fs.need "body" (Stmt.ofJson? d)
    return .forLoop init cond update body

def Stmt.switchOfJson? : Nat → Json → Option Stmt
  | 0, _ => none
  | d + 1, j => do
    let fs ← j.fields? ["selector", "cases"]
    let selector ← fs.need "selector" (Expr.ofJson? d)
    let cases ← fs.need "cases" (SwitchCase.listOfJson? d)
    return .switch selector cases

def Stmt.listOfJson? : Nat → Json → Option (List Stmt)
  | d + 1, .arr items => items.mapM (Stmt.ofJson? d)
  | _, _ => none

def SwitchCase.ofJson? : Nat → Json → Option SwitchCase
  | 0, _ => none
  | d + 1, j => do
    let fs ← j.fields? ["labels", "body"]
    let labels ← fs.orElse "labels" [] (Expr.listOfJson? d)
    let body ← fs.orElse "body" [] (Stmt.listOfJson? d)
    return { labels, body }

def SwitchCase.listOfJson? : Nat → Json → Option (List SwitchCase)
  | d + 1, .arr items => items.mapM (SwitchCase.ofJson? d)
  | _, _ => none

end

def Block.ofJson? (depth : Nat) (j : Json) : Option Block :=
  Stmt.blockOfJson? depth j

def FieldDecl.ofJson? : Nat → Json → Option FieldDecl
  | 0, _ => none
  | d + 1, j => do
    let fs ← j.fields? ["modifiers", "ty", "variables"]
    let modifiers ← fs.orElse "modifiers" {} (Modifiers.ofJson? d)
    let ty ← fs.need "ty" (TypeRef.ofJson? d)
    let declarators ← fs.need "variables" (Json.list? Declarator.ofJson? d)
    return { modifiers, ty, declarators }

def Param.ofJson? : Nat → Json → Option Param
  | 0, _ => none
  | d + 1, j => do
    let fs ← j.fields? ["ty", "name"]
    let ty ← fs.need "ty" (TypeRef.ofJson? d)
    let name ← fs.need "name" Json.str?
    return { ty, name }

def MethodDecl.ofJson? : Nat → Json → Option MethodDecl
  | 0, _ => none
  | d + 1, j => do
    let fs ← j.fields? ["modifiers", "return_type", "name", "params", "body"]
    let modifiers ← fs.orElse "modifiers" {} (Modifiers.ofJson? d)
    let returnType ← fs.need "return_type" (TypeRef.ofJson? d)
    let name ← fs.need "name" Json.str?
    let params ← fs.orElse "params" [] (Json.list? Param.ofJson? d)
    let body ← fs.option "body" (Block.ofJson? d)
    return { modifiers, returnType, name, params, body }

def ConstructorDecl.ofJson? : Nat → Json → Option ConstructorDecl
  | 0, _ => none
  | d + 1, j => do
    let fs ← j.fields? ["modifiers", "name", "params", "body"]
    let modifiers ← fs.orElse "modifiers" {} (Modifiers.ofJson? d)
    let name ← fs.need "name" Json.str?
    let params ← fs.orElse "params" [] (Json.list? Param.ofJson? d)
    let body ← fs.orElse "body" [] (Block.ofJson? d)
    return { modifiers, name, params, body }

def TypeKind.ofTag? : String → Option TypeKind
  | "class" => some .classType
  | "interface" => some .interfaceType
  | _ => none

def TypeKind.ofJson? (depth : Nat) (j : Json) : Option TypeKind :=
  (j.bare? depth).bind ofTag?

mutual

def Member.ofJson? : Nat → Json → Option Member
  | d + 1, .obj [(some tag, content)] =>
    match tag with
    | "field" => (FieldDecl.ofJson? d content).map .field
    | "method" => (MethodDecl.ofJson? d content).map .method
    | "constructor" => (ConstructorDecl.ofJson? d content).map .constructor
    | "type" => (TypeDecl.ofJson? d content).map .type
    | _ => none
  | _, _ => none

def TypeDecl.ofJson? : Nat → Json → Option TypeDecl
  | 0, _ => none
  | d + 1, j => do
    let fs ← j.fields? ["kind", "modifiers", "name", "extends", "implements", "members"]
    let kind ← fs.orElse "kind" .classType (TypeKind.ofJson? d)
    let modifiers ← fs.orElse "modifiers" {} (Modifiers.ofJson? d)
    let name ← fs.need "name" Json.str?
    let superclass ← fs.option "extends" (TypeRef.ofJson? d)
    let interfaces ← fs.orElse "implements" [] (TypeRef.listOfJson? d)
    let members ← fs.orElse "members" [] (Member.listOfJson? d)
    return { kind, modifiers, name, superclass, interfaces, members }

def Member.listOfJson? : Nat → Json → Option (List Member)
  | d + 1, .arr items => items.mapM (Member.ofJson? d)
  | _, _ => none

end

def CompilationUnit.ofJson? : Nat → Json → Option CompilationUnit
  | 0, _ => none
  | d + 1, j => do
    let fs ← j.fields? ["package", "imports", "types"]
    let package ← fs.option "package" Json.str?
    let imports ← fs.orElse "imports" [] (Json.list? (fun _ => Json.str?) d)
    let types ← fs.orElse "types" [] (Json.list? TypeDecl.ofJson? d)
    return { package, imports, types }

end VersionWeave
