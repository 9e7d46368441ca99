import VersionWeave.Naming
import VersionWeave.Pinning
import VersionWeave.Unified.Group

namespace VersionWeave

namespace Skeleton

def contract (naming : Naming) : TypeDecl :=
  { kind := .interfaceType, modifiers := .priv, name := naming.behaviorInterface }

/-- The type that is to hold the members of a version. -/
def implementation (naming : Naming) (ordinal : UInt32) : TypeDecl :=
  { modifiers := Modifiers.priv.withStatic, name := naming.implType ordinal,
    interfaces := [.plain naming.behaviorInterface] }

def instanceField (naming : Naming) (ordinal : UInt32) : FieldDecl :=
  .single Modifiers.priv.withFinal (.plain (naming.implType ordinal)) (naming.instanceField ordinal)

def activeField (naming : Naming) : FieldDecl :=
  .single .priv (.plain naming.behaviorInterface) naming.activeField

/-- The arm that makes the instance of a version the active one. -/
def arm (naming : Naming) (ordinal : UInt32) : SwitchCase :=
  { labels := [.int (Int64.ofNat ordinal.toNat)],
    body := [.expr (.set (.thisField naming.activeField)
      (.thisField (naming.instanceField ordinal))), .breakOut] }

/-- The arm for every other number. -/
def refusal : SwitchCase :=
  { body := [.throw (.create (.plain "IllegalArgumentException")
      [.binary .add (.string "Unknown version: ") (.ident "version")])] }

/-- The operation that selects the active version. -/
def switchMethod (naming : Naming) (ordinals : List UInt32) : MethodDecl :=
  { modifiers := .pub, returnType := .void, name := naming.switchMethod,
    params := [{ ty := .plain "int", name := "version" }],
    body := some [.switch (.ident "version") (ordinals.map (arm naming) ++ [refusal])] }

def members (naming : Naming) (ordinals : List UInt32) : List Member :=
  [.type (contract naming)]
    ++ ordinals.map (fun n => .type (implementation naming n))
    ++ ordinals.map (fun n => .field (instanceField naming n))
    ++ [.field (activeField naming), .method (switchMethod naming ordinals)]

end Skeleton

/-- Adds the contract, the implementation types, the instances and the switch operation. -/
def TypeDecl.addSkeleton (naming : Naming) (ordinals : List UInt32) (outer : TypeDecl) : TypeDecl :=
  outer.append (Skeleton.members naming ordinals)

end VersionWeave
