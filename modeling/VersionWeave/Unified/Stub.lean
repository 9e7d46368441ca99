import VersionWeave.Entries
import VersionWeave.Naming
import VersionWeave.Unified.Group

namespace VersionWeave

/-- What tells methods apart: the name and the types of the parameters. -/
abbrev Signature := String × List String

def MethodDecl.signature (marker : Marker) (m : MethodDecl) : Signature :=
  (m.name, signatureTypes marker m.params)

/-- The declarations of every signature with their ordinals, by first appearance. -/
def signatureGroups (marker : Marker) (versions : List VersionDecl) :
    Entries Signature (List (UInt32 × MethodDecl)) :=
  (versions.flatMap fun v => v.decl.methods.map fun m => (v.ordinal, m)).foldl
    (fun groups d => groups.push (d.2.signature marker) d) []

namespace Stub

/-- The same types under the names `arg0`, `arg1` and so on. -/
def numberedParams (params : List Param) : List Param :=
  params.mapIdx fun i p => { p with name := "arg" ++ i.repr }

/-- A public method that hands all its parameters on. -/
def forwarding (m : MethodDecl) (receiver : Expr) : MethodDecl :=
  let params := numberedParams m.params
  let call := Expr.callOn receiver m.name (params.map fun p => .ident p.name)
  { modifiers := .pub, returnType := m.returnType, name := m.name, params,
    body := some [if m.returnType.isVoid then .expr call else .ret (some call)] }

/-- What the contract says about a method. -/
def bare (m : MethodDecl) : MethodDecl :=
  { returnType := m.returnType, name := m.name, params := numberedParams m.params }

/-- A public method that refuses every call. -/
def unsupported (m : MethodDecl) (ordinal : UInt32) : MethodDecl :=
  { modifiers := .pub, returnType := m.returnType, name := m.name,
    params := numberedParams m.params,
    body := some [.throw (.create (.plain "UnsupportedOperationException")
      [.string (m.name ++ " is not supported by version " ++ ordinal.toNat.repr)])] }

/-- A method that can stand for one of an interface. -/
def expose (m : MethodDecl) : MethodDecl :=
  { m with modifiers := { m.modifiers with visibility := .pub, isStatic := false } }

/-- Exposes the first method of a signature, if there is one. -/
def exposeFirst? (marker : Marker) (signature : Signature) : List Member → Option (List Member)
  | [] => none
  | .method m :: rest =>
    if m.signature marker = signature then some (.method (expose m) :: rest)
    else (exposeFirst? marker signature rest).map (.method m :: ·)
  | m :: rest => (exposeFirst? marker signature rest).map (m :: ·)

/-- Makes an implementation type answer to a signature of the contract. -/
def complete (marker : Marker) (signature : Signature) (template : MethodDecl) (ordinal : UInt32)
    (impl : TypeDecl) : TypeDecl :=
  match exposeFirst? marker signature impl.members with
  | some members => { impl with members }
  | none => impl.append [.method (unsupported template ordinal)]

def completeAll (marker : Marker) (naming : Naming) (base : String) (signature : Signature)
    (template : MethodDecl) : List VersionDecl → TypeDecl → Stage
  | [], outer => .ok outer
  | v :: rest, outer =>
    let name := naming.implType v.ordinal
    match outer.updateNested? name .classType (complete marker signature template v.ordinal) with
    | none => .error { cause := .implMissing base name, outer }
    | some outer => completeAll marker naming base signature template rest outer

def extendContract (naming : Naming) (base : String) (m : MethodDecl) (outer : TypeDecl) : Stage :=
  match outer.updateNested? naming.behaviorInterface .interfaceType
      (·.append [.method (bare m)]) with
  | none => .error { cause := .contractMissing base naming.behaviorInterface, outer }
  | some outer => .ok outer

/-- The groups of which not all declarations are private. -/
def surfaced (group : List (UInt32 × MethodDecl)) : Bool :=
  !group.all fun d => d.2.modifiers.visibility == .priv

/-- What a stub calls: the one version that declares its signature, else the active one. -/
def receiver (naming : Naming) : List (UInt32 × MethodDecl) → Expr
  | [(ordinal, _)] => .thisField (naming.instanceField ordinal)
  | _ => .thisField naming.activeField

/-- Brings a signature that several declarations share into the contract. -/
def share (marker : Marker) (naming : Naming) (base : String) (versions : List VersionDecl)
    (signature : Signature) (template : MethodDecl) (outer : TypeDecl) : Stage := do
  let outer ← extendContract naming base template outer
  completeAll marker naming base signature template versions outer

/-- Works through the signatures; the stubs come last of all. -/
def addAll (marker : Marker) (naming : Naming) (base : String) (versions : List VersionDecl) :
    List (Signature × List (UInt32 × MethodDecl)) → List Member → TypeDecl → Stage
  | [], stubs, outer => .ok (outer.append stubs)
  | (signature, group) :: rest, stubs, outer =>
    match surfaced group, group with
    | true, (ordinal, first) :: others => do
      let outer ←
        if others.isEmpty then .ok outer
        else share marker naming base versions signature first outer
      let stub := forwarding first (receiver naming ((ordinal, first) :: others))
      addAll marker naming base versions rest (stubs ++ [.method stub]) outer
    | _, _ => addAll marker naming base versions rest stubs outer

end Stub

/-- Surfaces every signature that is not private throughout, once each. -/
def TypeDecl.addStubs (marker : Marker) (naming : Naming) (base : String)
    (versions : List VersionDecl) (outer : TypeDecl) : Stage :=
  Stub.addAll marker naming base versions (signatureGroups marker versions) [] outer

end VersionWeave
