import VersionWeave.Symbols

namespace VersionWeave

inductive FrameKind where
  | type
  | method
  | constructor
  deriving DecidableEq, Repr

/-- What is known about one enclosing declaration. -/
structure Frame where
  kind : FrameKind
  /-- The class of the innermost enclosing type. -/
  owner : Option ClassInfo
  /-- The version of the innermost enclosing type. -/
  version : Version
  /-- The enclosing method, if it is in the table; a constructor never is. -/
  method : Option MethodInfo
  deriving DecidableEq, Repr

/-- The declarations around a place in a unit, innermost first. -/
structure Scope where
  table : SymbolTable
  marker : Marker
  frames : List Frame := []

namespace Scope

def push (s : Scope) (frame : Frame) : Scope := { s with frames := frame :: s.frames }

def pop (s : Scope) : Scope := { s with frames := s.frames.tail }

def current? (s : Scope) : Option Frame := s.frames.head?

def enclosing (s : Scope) : Option ClassInfo × Version :=
  match s.frames with
  | [] => (none, .normal)
  | f :: _ => (f.owner, f.version)

def enterType (s : Scope) (name : String) : Scope :=
  let parsed := s.marker.parse name
  s.push { kind := .type, owner := s.table.get? parsed.base, version := parsed.version, method := none }

def enterSignature (s : Scope) (name : String) (types : List String) : Scope :=
  let (owner, version) := s.enclosing
  s.push
    { kind := .method, owner, version, method := owner.bind fun c => c.findMethod? name types version }

def enterMethod (s : Scope) (m : MethodDecl) : Scope :=
  s.enterSignature m.name (signatureTypes s.marker m.params)

def enterConstructor (s : Scope) : Scope :=
  let (owner, version) := s.enclosing
  s.push { kind := .constructor, owner, version, method := none }

def method? (s : Scope) : Option MethodInfo :=
  s.current?.bind Frame.method

/-- The declared type of a variable of the enclosing method. -/
def variableType? (s : Scope) (name : String) : Option String :=
  s.method?.bind fun m => m.variableType? name

/-- The versioned class that a variable of the enclosing method belongs to. -/
def versionedClass? (s : Scope) (variableName : String) : Option ClassInfo :=
  (s.variableType? variableName).bind fun declared =>
    s.table.versioned? (s.marker.baseName declared)

end Scope

end VersionWeave
