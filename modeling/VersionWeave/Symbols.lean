import VersionWeave.Entries
import VersionWeave.Tree.Outline
import VersionWeave.Version

namespace VersionWeave

/-- One declared method of one version; types are given by their signatures. -/
structure MethodInfo where
  name : String
  returnType : String
  parameterTypes : List String
  version : Version
  isStatic : Bool
  isPrivate : Bool
  /-- The type of every parameter and every local; of two declarations the later counts. -/
  variableTypes : Entries String String
  deriving DecidableEq, Repr

namespace MethodInfo

def variableType? (m : MethodInfo) (name : String) : Option String :=
  m.variableTypes.get? name

def isVoid (m : MethodInfo) : Bool := m.returnType == "void"

def toJson (m : MethodInfo) : Json :=
  .record [("name", .str m.name), ("return_type", .str m.returnType),
    ("parameter_types", .ofList Json.str m.parameterTypes), ("version", m.version.toJson),
    ("is_static", .bool m.isStatic), ("is_private", .bool m.isPrivate),
    ("local_variable_types", .record (m.variableTypes.map fun v => (v.1, .str v.2)))]

end MethodInfo

/-- One declared field variable of one version. -/
structure FieldInfo where
  name : String
  type : String
  version : Version
  isPublic : Bool
  deriving DecidableEq, Repr

def FieldInfo.toJson (f : FieldInfo) : Json :=
  .record [("name", .str f.name), ("type", .str f.type), ("version", f.version.toJson),
    ("is_public", .bool f.isPublic)]

/-- All that is declared under one base name, over all its versions. -/
structure ClassInfo where
  baseName : String
  isVersioned : Bool := false
  methods : Entries String (List MethodInfo) := []
  fields : Entries String (List FieldInfo) := []
  deriving DecidableEq, Repr

namespace ClassInfo

def methodsNamed (c : ClassInfo) (name : String) : List MethodInfo :=
  (c.methods.get? name).getD []

/-- The declaration of exactly this name, version and signature. -/
def findMethod? (c : ClassInfo) (name : String) (types : List String) (version : Version) :
    Option MethodInfo :=
  (c.methodsNamed name).find? fun m => m.version = version ∧ m.parameterTypes = types

def allMethods (c : ClassInfo) : List MethodInfo :=
  c.methods.values.flatten

def fieldsNamed (c : ClassInfo) (name : String) : List FieldInfo :=
  (c.fields.get? name).getD []

/-- The public declarations that carry an ordinal. -/
def accessible (fields : List FieldInfo) : List (UInt32 × FieldInfo) :=
  fields.filterMap fun f => if f.isPublic then f.version.ordinal?.map (·, f) else none

/-- The entry with the least ordinal, the first of several. -/
def leastOrdinal? : List (UInt32 × FieldInfo) → Option (UInt32 × FieldInfo)
  | [] => none
  | e :: rest =>
    match leastOrdinal? rest with
    | none => some e
    | some best => if best.1 < e.1 then some best else some e

/-- The lowest version that declares the field public, which its accessors go to. -/
def accessorOwner? (c : ClassInfo) (name : String) : Option (UInt32 × FieldInfo) :=
  leastOrdinal? (accessible (c.fieldsNamed name))

def toJson (c : ClassInfo) : Json :=
  .record [("base_name", .str c.baseName), ("is_versioned", .bool c.isVersioned),
    ("methods", .record (c.methods.map fun e => (e.1, .ofList MethodInfo.toJson e.2))),
    ("fields", .record (c.fields.map fun e => (e.1, .ofList FieldInfo.toJson e.2)))]

end ClassInfo

/-- What is known of a method on entering it: of its variables, the parameters. -/
def MethodDecl.header (marker : Marker) (version : Version) (m : MethodDecl) : MethodInfo where
  name := m.name
  returnType := m.returnType.signature marker
  parameterTypes := signatureTypes marker m.params
  version := version
  isStatic := m.modifiers.isStatic
  isPrivate := m.modifiers.visibility == .priv
  variableTypes := m.params.foldl (fun vars p => vars.put p.name (p.ty.signature marker)) []

def MethodInfo.declare (marker : Marker) (m : MethodInfo) (v : LocalVars) : MethodInfo :=
  { m with
    variableTypes := v.declarators.foldl
      (fun vars d => vars.put d.name (v.ty.signature marker)) m.variableTypes }

def FieldDecl.infos (marker : Marker) (version : Version) (f : FieldDecl) : List FieldInfo :=
  f.declarators.map fun d =>
    { name := d.name, type := f.ty.signature marker, version, isPublic := f.modifiers.isPublic }

namespace ClassInfo

def addMethod (m : MethodInfo) (c : ClassInfo) : ClassInfo :=
  { c with methods := c.methods.push m.name m }

def addFields (fields : List FieldInfo) (c : ClassInfo) : ClassInfo :=
  { c with fields := fields.foldl (fun fs f => fs.push f.name f) c.fields }

/-- Once one of the declarations has an ordinal, the class is versioned. -/
def mark (version : Version) (c : ClassInfo) : ClassInfo :=
  { c with isVersioned := c.isVersioned || version.isNumbered }

end ClassInfo

/-- The top-level types of a batch of units, by base name. -/
structure SymbolTable where
  classes : Entries String ClassInfo := []
  deriving DecidableEq, Repr

namespace SymbolTable

def get? (table : SymbolTable) (baseName : String) : Option ClassInfo :=
  table.classes.get? baseName

def versioned? (table : SymbolTable) (baseName : String) : Option ClassInfo :=
  (table.get? baseName).filter ClassInfo.isVersioned

def isVersioned (table : SymbolTable) (baseName : String) : Bool :=
  (table.versioned? baseName).isSome

/-- Changes the entry of a base name, which is a new one if there was none. -/
def update (table : SymbolTable) (baseName : String) (change : ClassInfo → ClassInfo) :
    SymbolTable :=
  { classes := table.classes.alter baseName fun old => change (old.getD { baseName }) }

/-- The classes by the order of their base names. -/
def sorted (table : SymbolTable) : List ClassInfo :=
  table.classes.values.mergeSort fun a b => decide (a.baseName ≤ b.baseName)

def toJson (table : SymbolTable) : Json :=
  .record (table.sorted.map fun c => (c.baseName, c.toJson))

end SymbolTable

/-- A table in the making, and where in a unit the visitor that makes it stands. -/
structure Indexing where
  table : SymbolTable := {}
  /-- Base name and version of the top-level type around. -/
  current : Option (String × Version) := none
  /-- How many types are around. -/
  depth : Nat := 0
  /-- The method whose body is visited. -/
  method : Option MethodInfo := none

namespace Indexing

/-- A type inside another one is passed over. -/
def enterType (marker : Marker) (t : TypeDecl) : StateM Indexing Reply := do
  modify fun st => { st with depth := st.depth + 1 }
  if (← get).depth > 1 then
    return .skip
  let ⟨base, version⟩ := marker.parse t.name
  modify fun st =>
    { st with table := st.table.update base (·.mark version), current := some (base, version) }
  return .descend

def leaveType : StateM Indexing Unit := do
  modify fun st => { st with depth := st.depth - 1 }
  if (← get).depth = 0 then
    modify fun st => { st with current := none }

/-- The top-level type around, when no other type is between. -/
def owner? (st : Indexing) : Option (String × Version) :=
  if st.depth = 1 then st.current else none

def enterField (marker : Marker) (f : FieldDecl) : StateM Indexing Reply := do
  if let some (base, version) := (← get).owner? then
    modify fun st => { st with table := st.table.update base (·.addFields (f.infos marker version)) }
  return .skip

def enterMethod (marker : Marker) (m : MethodDecl) : StateM Indexing Reply := do
  match (← get).owner? with
  | some (_, version) =>
    modify fun st => { st with method := some (m.header marker version) }
    return .descend
  | none => return .skip

def leaveMethod : StateM Indexing Unit := do
  let st ← get
  set { st with method := none }
  if let some m := st.method then
    if let some (base, _) := st.current then
      modify fun st => { st with table := st.table.update base (·.addMethod m) }

def enterLocalVars (marker : Marker) (v : LocalVars) : StateM Indexing Reply := do
  modify fun st => { st with method := st.method.map (·.declare marker v) }
  return .descend

def visitor (marker : Marker) : Visitor Indexing where
  enter
    | .typeDecl t => enterType marker t
    | .fieldDecl f => enterField marker f
    | .methodDecl m => enterMethod marker m
    | .constructorDecl _ => return .skip
    | .localVars v => enterLocalVars marker v
    | _ => return .descend
  leave
    | .typeDecl _ => leaveType
    | .methodDecl _ => leaveMethod
    | _ => return ()

def addUnit (marker : Marker) (u : CompilationUnit) : StateM Indexing Unit := do
  let _ ← u.outline.visit (visitor marker)

end Indexing

namespace SymbolTable

def addUnit (marker : Marker) (table : SymbolTable) (u : CompilationUnit) : SymbolTable :=
  ((Indexing.addUnit marker u).run { table }).2.table

/-- One visitor goes through all units. -/
def build (marker : Marker) (units : List CompilationUnit) : SymbolTable :=
  ((forM units (Indexing.addUnit marker)).run {}).2.table

end SymbolTable

end VersionWeave
