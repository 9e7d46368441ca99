import VersionWeave.Version

namespace VersionWeave

mutual

/-- The declarations of locals in a statement, in source order. -/
def Stmt.locals : Stmt → List LocalVars
  | .vars v => [v]
  | .block stmts => Stmt.allLocals stmts
  | .ifElse _ thenBranch elseBranch => thenBranch.locals ++ Stmt.optionLocals elseBranch
  | .whileLoop _ body => body.locals
  | .forLoop init _ _ body => Stmt.allLocals init ++ body.locals
  | .switch _ cases => SwitchCase.allLocals cases
  | _ => []

def Stmt.optionLocals : Option Stmt → List LocalVars
  | none => []
  | some s => s.locals

def Stmt.allLocals : List Stmt → List LocalVars
  | [] => []
  | s :: rest => s.locals ++ Stmt.allLocals rest

def SwitchCase.allLocals : List SwitchCase → List LocalVars
  | [] => []
  | ⟨_, body⟩ :: rest => Stmt.allLocals body ++ SwitchCase.allLocals rest

end

namespace MethodDecl

/-- Every variable a method declares, its parameters first, in source order. -/
def declaredVars (m : MethodDecl) : List (String × TypeRef) :=
  m.params.map (fun p => (p.name, p.ty))
    ++ (Stmt.allLocals (m.body.getD [])).flatMap fun v => v.declarators.map fun d => (d.name, v.ty)

/-- The same with the text of each type. -/
def declared (marker : Marker) (m : MethodDecl) : List (String × String) :=
  m.declaredVars.map fun d => (d.1, d.2.signature marker)

end MethodDecl

end VersionWeave
