import VersionWeave.Entries
import VersionWeave.Naming
import VersionWeave.Unified.Group

namespace VersionWeave

/-- A constructor signature and the version that declares it first. -/
structure ConstructorSignature where
  owner : UInt32
  params : List Param

/-- Distinct signatures by first appearance; without any, the first version has an empty one. -/
def constructorSignatures (marker : Marker) (versions : List VersionDecl) :
    List ConstructorSignature :=
  let declared := versions.flatMap fun v => v.decl.constructors.map fun c =>
    ({ owner := v.ordinal, params := c.params } : ConstructorSignature)
  if declared.isEmpty then
    versions.head?.toList.map fun v => { owner := v.ordinal, params := [] }
  else
    Entries.values (declared.foldl
      (fun found c => Entries.putNew found (signatureTypes marker c.params) c) [])

/-- Creates every instance, the owner's with the arguments, and activates the owner's. -/
def outerConstructor (naming : Naming) (name : String) (ordinals : List UInt32)
    (signature : ConstructorSignature) : ConstructorDecl :=
  let create (n : UInt32) : Stmt :=
    .expr (.set (.thisField (naming.instanceField n))
      (.create (.plain (naming.implType n))
        (if n = signature.owner then signature.params.map fun p => .ident p.name else [])))
  { modifiers := .pub, name, params := signature.params,
    body := ordinals.map create
      ++ [.expr (.set (.thisField naming.activeField)
        (.thisField (naming.instanceField signature.owner)))] }

def TypeDecl.addConstructors (marker : Marker) (naming : Naming) (versions : List VersionDecl)
    (outer : TypeDecl) : TypeDecl :=
  outer.append <| (constructorSignatures marker versions).map fun signature =>
    .constructor (outerConstructor naming outer.name (versions.map VersionDecl.ordinal) signature)

end VersionWeave
