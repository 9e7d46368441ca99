import VersionWeave.Naming
import VersionWeave.Scope
import VersionWeave.Tree.Revise

namespace VersionWeave

/-- The receiver and the field, when an expression reaches a field that has accessors. -/
def Scope.accessed? (s : Scope) : Expr → Option (Expr × String)
  | .field (.ident variableName) name =>
    match (s.versionedClass? variableName).bind (·.accessorOwner? name) with
    | some _ => some (.ident variableName, name)
    | none => none
  | _ => none

/-- The state of field revision: where we are, and how many accesses have been replaced. -/
structure FieldAccess where
  scope : Scope
  replaced : Nat := 0

namespace FieldAccess

def getterCall (naming : Naming) (receiver : Expr) (name : String) : Expr :=
  .callOn receiver (naming.getter name) []

def setterCall (naming : Naming) (receiver : Expr) (name : String) (value : Expr) : Expr :=
  .callOn receiver (naming.setter name) [value]

/-- The operator by which a step changes its operand. -/
def stepOp? : UnaryOp → Option BinaryOp
  | .preInc | .postInc => some .add
  | .preDec | .postDec => some .sub
  | .neg | .not => none

/--
What stands in place of an access: a read is a getter call, a write a setter call, and a compound
write or a step sets what it got and changed.
-/
def replacement? (naming : Naming) (s : Scope) : Expr → Option Expr
  | .assign target op value =>
    (s.accessed? target).map fun (receiver, name) =>
      setterCall naming receiver name <|
        match op.binaryOp? with
        | none => value
        | some op => .binary op (getterCall naming receiver name) value
  | .unary op operand =>
    (stepOp? op).bind fun step =>
      (s.accessed? operand).map fun (receiver, name) =>
        setterCall naming receiver name (.binary step (getterCall naming receiver name) (.int 1))
  | e => (s.accessed? e).map fun (receiver, name) => getterCall naming receiver name

def replace (naming : Naming) (e : Expr) : StateM FieldAccess Expr := do
  let st ← get
  match replacement? naming st.scope e with
  | none => return e
  | some e =>
    set { st with replaced := st.replaced + 1 }
    return e

def inScope (f : Scope → Scope) : StateM FieldAccess Unit :=
  modify fun st => { st with scope := f st.scope }

/-- Replaces every access to a field that has accessors; a written place waits for its write. -/
def reviser (naming : Naming) : Reviser FieldAccess where
  enterType t := inScope (·.enterType t.name)
  leaveType _ := inScope Scope.pop
  enterMethod m := inScope (·.enterMethod m)
  leaveMethod _ := inScope Scope.pop
  enterConstructor _ := inScope Scope.enterConstructor
  leaveConstructor _ := inScope Scope.pop
  expr e := replace naming e
  target e := pure e

end FieldAccess

end VersionWeave
