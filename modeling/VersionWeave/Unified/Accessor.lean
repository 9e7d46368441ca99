import VersionWeave.Naming
import VersionWeave.Pinning
import VersionWeave.Symbols
import VersionWeave.Unified.Group

namespace VersionWeave

namespace Accessor

def switchTo (naming : Naming) (ordinal : UInt32) : Stmt :=
  .expr (naming.switchCall .this ordinal)

/-- The field of the instance of a version. -/
def place (naming : Naming) (field : String) (ordinal : UInt32) : Expr :=
  .field (.thisField (naming.instanceField ordinal)) field

def getter (naming : Naming) (field : String) (ty : TypeRef) (ordinal : UInt32) : MethodDecl :=
  { modifiers := .pub, returnType := ty, name := naming.getter field,
    body := some [switchTo naming ordinal, .ret (some (place naming field ordinal))] }

def setter (naming : Naming) (field : String) (ty : TypeRef) (ordinal : UInt32) : MethodDecl :=
  { modifiers := .pub, returnType := .void, name := naming.setter field,
    params := [{ ty, name := "value" }],
    body := some [switchTo naming ordinal,
      .expr (.set (place naming field ordinal) (.ident "value"))] }

/-- The type of a field as the declaration of a version writes it. -/
def declaredType? (versions : List VersionDecl) (ordinal : UInt32) (field : String) :
    Option TypeRef := do
  let v ← versions.find? fun v => v.ordinal = ordinal
  let f ← v.decl.fields.find? fun f => f.declarators.any fun d => d.name = field
  return f.ty

/-- The two accessors of a field, if some version declares it public. -/
def pair (naming : Naming) (owner : ClassInfo) (versions : List VersionDecl) (field : String) :
    List Member :=
  match owner.accessorOwner? field with
  | none => []
  | some (ordinal, info) =>
    let ty := (declaredType? versions ordinal field).getD (.plain info.type)
    [.method (getter naming field ty ordinal), .method (setter naming field ty ordinal)]

end Accessor

def TypeDecl.addAccessors (naming : Naming) (owner : ClassInfo) (versions : List VersionDecl)
    (outer : TypeDecl) : TypeDecl :=
  outer.append (owner.fields.keys.flatMap (Accessor.pair naming owner versions))

end VersionWeave
