import VersionWeave.Naming
import VersionWeave.Unified.Group

namespace VersionWeave

namespace Merge

/-- A constructor takes the name of the type it moves to. -/
def rename (name : String) : Member → Member
  | .constructor c => .constructor { c with name }
  | m => m

def emptyConstructor (name : String) : ConstructorDecl :=
  { modifiers := .pub, name }

/--
Takes the supertypes and the members of a version into its implementation type, which can always be
created without arguments.
-/
def absorb (name : String) (version target : TypeDecl) : TypeDecl :=
  let members := target.members ++ version.members.map (rename name)
  let merged :=
    { target with
      superclass := version.superclass.or target.superclass
      interfaces := target.interfaces ++ version.interfaces
      members }
  if merged.constructors.any fun c => c.params.isEmpty then merged
  else merged.append [.constructor (emptyConstructor name)]

end Merge

/-- Moves the members of every version into its implementation type. -/
def TypeDecl.mergeVersions (naming : Naming) (base : String) :
    List VersionDecl → TypeDecl → Stage
  | [], outer => .ok outer
  | v :: rest, outer =>
    let name := naming.implType v.ordinal
    match outer.updateNested? name .classType (Merge.absorb name v.decl) with
    | none => .error { cause := .implMissing base name, outer }
    | some outer => mergeVersions naming base rest outer

end VersionWeave
