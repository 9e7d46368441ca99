import VersionWeave.Naming
import VersionWeave.Scope
import VersionWeave.Tree.Revise

namespace VersionWeave

/-- Stands for the type of an argument when nothing says what it is. -/
def unknownType : String := "UNKNOWN"

namespace Scope

/-- The type of an argument, as far as it shows: that of a literal, or of a declared variable. -/
def argumentType (s : Scope) : Expr → String
  | .literal l => l.staticType?.getD unknownType
  | .ident n => (s.variableType? n).getD unknownType
  | _ => unknownType

/-- The one declaration that a call on a versioned variable can mean, over all versions. -/
def target? (s : Scope) (receiver : Option Expr) (name : String) (args : List Expr) :
    Option MethodInfo := do
  let variableName ← receiver.bind Expr.ident?
  let owner ← s.versionedClass? variableName
  let types := args.map s.argumentType
  match (owner.methodsNamed name).filter fun m => m.parameterTypes = types with
  | [m] => some m
  | _ => none

end Scope

/-- The call of the switch operation for an ordinal. -/
def Naming.switchCall (naming : Naming) (receiver : Expr) (ordinal : UInt32) : Expr :=
  .callOn receiver naming.switchMethod [.int (Int64.ofNat ordinal.toNat)]

/-- The state of pinning: where we are, how many loop headers around, how many calls pinned. -/
structure Pinning where
  scope : Scope
  headers : Nat := 0
  pinned : Nat := 0

namespace Pinning

/-- The receiver and the ordinal to which a statement can be pinned. -/
def pin? (s : Scope) (stmt : Stmt) : Option (Expr × UInt32) := do
  let (receiver, name, args) ← stmt.call?
  let m ← s.target? receiver name args
  let r ← receiver
  let ordinal ← m.version.ordinal?
  return (r, ordinal)

/-- A pinned call follows its switch: in a block, or side by side in a loop header. -/
def pin (naming : Naming) (stmt : Stmt) : StateM Pinning (Edit Stmt) := do
  let st ← get
  match pin? st.scope stmt with
  | none => return .keep stmt
  | some (receiver, ordinal) =>
    set { st with pinned := st.pinned + 1 }
    let switch := Stmt.expr (naming.switchCall receiver ordinal)
    if st.headers > 0 then return .splice [switch, stmt]
    else return .keep (.block [switch, stmt])

def inScope (f : Scope → Scope) : StateM Pinning Unit :=
  modify fun st => { st with scope := f st.scope }

/-- Pins every call that has one meaning, and takes the marks off every type. -/
def reviser (naming : Naming) : Reviser Pinning where
  enterType t := inScope (·.enterType t.name)
  leaveType _ := inScope Scope.pop
  enterMethod m := inScope (·.enterMethod m)
  leaveMethod _ := inScope Scope.pop
  enterConstructor _ := inScope Scope.enterConstructor
  leaveConstructor _ := inScope Scope.pop
  enterForInit := modify fun st => { st with headers := st.headers + 1 }
  leaveForInit := modify fun st => { st with headers := st.headers - 1 }
  stmt s := pin naming s
  typeRef t := return { t with name := (← get).scope.marker.baseName t.name }

end Pinning

end VersionWeave
