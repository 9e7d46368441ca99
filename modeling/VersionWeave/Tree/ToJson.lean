import VersionWeave.Json.Value
import VersionWeave.Tree.Basic

namespace VersionWeave

/-- A variant with content: an object of one member. -/
def Json.tagged (tag : String) (content : Json) : Json :=
  .record [(tag, content)]

def Visibility.tag : Visibility → String
  | .pub => "public"
  | .prot => "protected"
  | .priv => "private"
  | .pkg => "package"

def Visibility.toJson (v : Visibility) : Json := .str v.tag

def Modifiers.toJson (m : Modifiers) : Json :=
  .record [("visibility", m.visibility.toJson), ("is_static", .bool m.isStatic),
    ("is_final", .bool m.isFinal), ("is_abstract", .bool m.isAbstract)]

mutual

/-- Type arguments and array dimensions are left out when there are none. -/
def TypeRef.toJson : TypeRef → Json
  | ⟨name, args, dims⟩ =>
    .record ([("name", .str name)]
      ++ (if args.isEmpty then [] else [("args", .arr (TypeRef.listToJson args))])
      ++ (if dims = 0 then [] else [("array_dims", .int dims.toNat)]))

def TypeRef.listToJson : List TypeRef → List Json
  | [] => []
  | t :: rest => t.toJson :: TypeRef.listToJson rest

end

def Literal.toJson : Literal → Json
  | .int i => .tagged "int" (.int i.toInt)
  | .long i => .tagged "long" (.int i.toInt)
  | .float text => .tagged "float" (.str text)
  | .double text => .tagged "double" (.str text)
  | .bool b => .tagged "bool" (.bool b)
  | .char c => .tagged "char" (.str (String.ofList [c]))
  | .str s => .tagged "str" (.str s)
  | .null => .str "null"

def BinaryOp.tag : BinaryOp → String
  | .add => "add"
  | .sub => "sub"
  | .mul => "mul"
  | .div => "div"
  | .rem => "rem"
  | .eq => "eq"
  | .ne => "ne"
  | .lt => "lt"
  | .le => "le"
  | .gt => "gt"
  | .ge => "ge"
  | .and => "and"
  | .or => "or"

def BinaryOp.toJson (op : BinaryOp) : Json := .str op.tag

def UnaryOp.tag : UnaryOp → String
  | .neg => "neg"
  | .not => "not"
  | .preInc => "pre_inc"
  | .preDec => "pre_dec"
  | .postInc => "post_inc"
  | .postDec => "post_dec"

def UnaryOp.toJson (op : UnaryOp) : Json := .str op.tag

def AssignOp.tag : AssignOp → String
  | .assign => "assign"
  | .add => "add"
  | .sub => "sub"
  | .mul => "mul"
  | .div => "div"
  | .rem => "rem"

def AssignOp.toJson (op : AssignOp) : Json := .str op.tag

mutual

def Expr.toJson : Expr → Json
  | .literal l => .tagged "literal" l.toJson
  | .ident n => .tagged "name" (.str n)
  | .this => .str "this"
  | .field receiver name =>
    .tagged "field_access" (.record [("receiver", receiver.toJson), ("name", .str name)])
  | .call receiver name args =>
    .tagged "method_call"
      (.record [("receiver", Expr.optionToJson receiver), ("name", .str name),
        ("args", .arr (Expr.listToJson args))])
  | .create ty args =>
    .tagged "new" (.record [("ty", ty.toJson), ("args", .arr (Expr.listToJson args))])
  | .assign target op value =>
    .tagged "assign"
      (.record [("target", target.toJson), ("op", op.toJson), ("value", value.toJson)])
  | .binary op lhs rhs =>
    .tagged "binary" (.record [("op", op.toJson), ("lhs", lhs.toJson), ("rhs", rhs.toJson)])
  | .unary op operand =>
    .tagged "unary" (.record [("op", op.toJson), ("operand", operand.toJson)])
  | .cast ty operand =>
    .tagged "cast" (.record [("ty", ty.toJson), ("expr", operand.toJson)])

def Expr.optionToJson : Option Expr → Json
  | none => .null
  | some e => e.toJson

def Expr.listToJson : List Expr → List Json
  | [] => []
  | e :: rest => e.toJson :: Expr.listToJson rest

end

def Declarator.toJson (d : Declarator) : Json :=
  .record [("name", .str d.name), ("init", Expr.optionToJson d.init)]

def LocalVars.toJson (v : LocalVars) : Json :=
  .record [("ty", v.ty.toJson), ("variables", .ofList Declarator.toJson v.declarators)]

mutual

def Stmt.toJson : Stmt → Json
  | .expr e => .tagged "expr" e.toJson
  | .vars v => .tagged "local" v.toJson
  | .block stmts => .tagged "block" (.record [("stmts", .arr (Stmt.listToJson stmts))])
  | .ifElse cond thenBranch elseBranch =>
    .tagged "if"
      (.record [("cond", cond.toJson), ("then_branch", thenBranch.toJson),
        ("else_branch", Stmt.optionToJson elseBranch)])
  | .whileLoop cond body =>
    .tagged "while" (.record [("cond", cond.toJson), ("body", body.toJson)])
  | .forLoop init cond update body =>
    .tagged "for"
      (.record [("init", .arr (Stmt.listToJson init)), ("cond", Expr.optionToJson cond),
        ("update", .arr (Expr.listToJson update)), ("body", body.toJson)])
  | .ret value => .tagged "return" (Expr.optionToJson value)
  | .switch selector cases =>
    .tagged "switch"
      (.record [("selector", selector.toJson), ("cases", .arr (SwitchCase.listToJson cases))])
  | .breakOut => .str "break"
  | .continueOn => .str "continue"
  | .throw e => .tagged "throw" e.toJson
  | .empty => .str "empty"

def Stmt.optionToJson : Option Stmt → Json
  | none => .null
  | some s => s.toJson

def Stmt.listToJson : List Stmt → List Json
  | [] => []
  | s :: rest => s.toJson :: Stmt.listToJson rest

def SwitchCase.toJson : SwitchCase → Json
  | ⟨labels, body⟩ =>
    .record [("labels", .arr (Expr.listToJson labels)), ("body", .arr (Stmt.listToJson body))]

def SwitchCase.listToJson : List SwitchCase → List Json
  | [] => []
  | c :: rest => c.toJson :: SwitchCase.listToJson rest

end

def Block.toJson (b : Block) : Json :=
  .record [("stmts", .arr (Stmt.listToJson b))]

def FieldDecl.toJson (f : FieldDecl) : Json :=
  .record [("modifiers", f.modifiers.toJson), ("ty", f.ty.toJson),
    ("variables", .ofList Declarator.toJson f.declarators)]

def Param.toJson (p : Param) : Json :=
  .record [("ty", p.ty.toJson), ("name", .str p.name)]

def MethodDecl.toJson (m : MethodDecl) : Json :=
  .record [("modifiers", m.modifiers.toJson), ("return_type", m.returnType.toJson),
    ("name", .str m.name), ("params", .ofList Param.toJson m.params),
    ("body", .ofOption Block.toJson m.body)]

def ConstructorDecl.toJson (c : ConstructorDecl) : Json :=
  .record [("modifiers", c.modifiers.toJson), ("name", .str c.name),
    ("params", .ofList Param.toJson c.params), ("body", Block.toJson c.body)]

def TypeKind.tag : TypeKind → String
  | .classType => "class"
  | .interfaceType => "interface"

def TypeKind.toJson (k : TypeKind) : Json := .str k.tag

mutual

def Member.toJson : Member → Json
  | .field f => .tagged "field" f.toJson
  | .method m => .tagged "method" m.toJson
  | .constructor c => .tagged "constructor" c.toJson
  | .type t => .tagged "type" t.toJson

def TypeDecl.toJson : TypeDecl → Json
  | ⟨kind, modifiers, name, superclass, interfaces, members⟩ =>
    .record [("kind", kind.toJson), ("modifiers", modifiers.toJson), ("name", .str name),
      ("extends", .ofOption TypeRef.toJson superclass),
      ("implements", .arr (TypeRef.listToJson interfaces)),
      ("members", .arr (Member.listToJson members))]

def Member.listToJson : List Member → List Json
  | [] => []
  | m :: rest => m.toJson :: Member.listToJson rest

end

def CompilationUnit.toJson (u : CompilationUnit) : Json :=
  .record [("package", .ofOption Json.str u.package), ("imports", .ofList Json.str u.imports),
    ("types", .ofList TypeDecl.toJson u.types)]

end VersionWeave
