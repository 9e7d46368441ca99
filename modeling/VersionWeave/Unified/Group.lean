import VersionWeave.Version

namespace VersionWeave

/-- Why a group has no unified type. -/
inductive SynthesisError where
  | contractMissing (baseName contract : String)
  | implMissing (baseName implType : String)
  | unnumbered (baseName name : String)
  | duplicate (baseName : String) (ordinal : UInt32)
  deriving DecidableEq, Repr

namespace SynthesisError

def baseName : SynthesisError → String
  | .contractMissing base _ => base
  | .implMissing base _ => base
  | .unnumbered base _ => base
  | .duplicate base _ => base

def message : SynthesisError → String
  | .contractMissing base contract =>
    "behavior contract '" ++ contract ++ "' not found while synthesizing '" ++ base ++ "'"
  | .implMissing base implType =>
    "implementation type '" ++ implType ++ "' not found while synthesizing '" ++ base ++ "'"
  | .unnumbered base name =>
    "declaration '" ++ name ++ "' in versioned group '" ++ base ++ "' has no version ordinal"
  | .duplicate base ordinal =>
    "version " ++ ordinal.toNat.repr ++ " of '" ++ base ++ "' is declared more than once"

end SynthesisError

/-- One version of a type: its ordinal and its declaration. -/
structure VersionDecl where
  ordinal : UInt32
  decl : TypeDecl

/-- The units whose primary types share a base name. -/
structure Group where
  baseName : String
  units : List CompilationUnit := []

namespace Group

/-- Every top-level type of the group's units. -/
def types (g : Group) : List TypeDecl :=
  g.units.flatMap CompilationUnit.types

/-- Adds a declaration of the base name to the versions found so far. -/
def addVersion (marker : Marker) (base : String) (found : List VersionDecl) (t : TypeDecl) :
    Except SynthesisError (List VersionDecl) :=
  let parsed := marker.parse t.name
  if parsed.base ≠ base then .ok found
  else
    match parsed.version with
    | .normal => .error (.unnumbered base t.name)
    | .numbered n =>
      if found.any fun v => v.ordinal == n then .error (.duplicate base n)
      else .ok (found ++ [{ ordinal := n, decl := t }])

/-- Puts a version before the first one with a higher ordinal. -/
def insertVersion (v : VersionDecl) : List VersionDecl → List VersionDecl
  | [] => [v]
  | w :: rest => if v.ordinal < w.ordinal then v :: w :: rest else w :: insertVersion v rest

def sortVersions (versions : List VersionDecl) : List VersionDecl :=
  versions.foldl (fun sorted v => insertVersion v sorted) []

/-- The versions by ascending ordinal; there must be some, all numbered, no number twice. -/
def versions (marker : Marker) (g : Group) : Except SynthesisError (List VersionDecl) := do
  let found ← g.types.foldlM (addVersion marker g.baseName) []
  if found.isEmpty then .error (.unnumbered g.baseName g.baseName)
  else .ok (sortVersions found)

end Group

/-- A step on the unified type that failed, with the type as the step left it. -/
structure StageFailure where
  cause : SynthesisError
  outer : TypeDecl

/-- The unified type after a step. -/
abbrev Stage := Except StageFailure TypeDecl

namespace Member

/-- Changes the first nested type of a name and kind. -/
def updateType? (name : String) (kind : TypeKind) (change : TypeDecl → TypeDecl) :
    List Member → Option (List Member)
  | [] => none
  | m :: rest =>
    match m.type? name kind with
    | some t => some (.type (change t) :: rest)
    | none => (updateType? name kind change rest).map (m :: ·)

end Member

def TypeDecl.updateNested? (t : TypeDecl) (name : String) (kind : TypeKind)
    (change : TypeDecl → TypeDecl) : Option TypeDecl :=
  (Member.updateType? name kind change t.members).map fun members => { t with members }

end VersionWeave
