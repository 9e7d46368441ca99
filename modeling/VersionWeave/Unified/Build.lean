import VersionWeave.Unified.Accessor
import VersionWeave.Unified.Constructor
import VersionWeave.Unified.Merge
import VersionWeave.Unified.Skeleton
import VersionWeave.Unified.Stub

namespace VersionWeave

/-- Keeps the first of equal items. -/
def distinct {α : Type} [BEq α] (items : List α) : List α :=
  items.foldl (fun kept a => if kept.contains a then kept else kept ++ [a]) []

namespace Group

/-- The class that stands for all versions, from nothing but the modifiers of the first. -/
def emptyOuter (base : String) : List VersionDecl → TypeDecl
  | [] => { name := base }
  | v :: _ => { modifiers := { v.decl.modifiers with isStatic := false }, name := base }

/-- The unified type: skeleton, members, stubs, constructors, accessors. -/
def outer (marker : Marker) (table : SymbolTable) (options : Options) (base : String)
    (versions : List VersionDecl) : Stage := do
  let naming := options.naming
  let outer := (emptyOuter base versions).addSkeleton naming (versions.map VersionDecl.ordinal)
  let outer ← outer.mergeVersions naming base versions
  let outer ← outer.addStubs marker naming base versions
  let outer := outer.addConstructors marker naming versions
  match options.generateAccessors, table.get? base with
  | true, some owner => return outer.addAccessors naming owner versions
  | _, _ => return outer

/-- Adds a type unless it is a version of the base or its name is taken. -/
def addBystander (marker : Marker) (base : String) (types : List TypeDecl) (t : TypeDecl) :
    List TypeDecl :=
  if marker.baseName t.name = base || types.any fun s => s.name == t.name then types
  else types ++ [t]

/-- The unit around a unified type: the first package, all imports, the other types. -/
def compose (marker : Marker) (g : Group) (outer : TypeDecl) : CompilationUnit where
  package := g.units.findSome? CompilationUnit.package
  imports := distinct (g.units.flatMap CompilationUnit.imports)
  types := g.types.foldl (addBystander marker g.baseName) [outer]

def build (marker : Marker) (table : SymbolTable) (options : Options) (g : Group) :
    Except SynthesisError CompilationUnit := do
  let versions ← g.versions marker
  match Group.outer marker table options g.baseName versions with
  | .error failure => .error failure.cause
  | .ok outer => .ok (g.compose marker outer)

end Group

end VersionWeave
