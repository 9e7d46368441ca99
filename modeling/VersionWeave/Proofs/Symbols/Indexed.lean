import VersionWeave.Proofs.Entries
import VersionWeave.Proofs.Tree.Variables
import VersionWeave.Proofs.Tree.Visitor
import VersionWeave.Symbols

namespace VersionWeave

/-! What a declaration adds to the table, without a visitor. -/

def MethodDecl.info (marker : Marker) (version : Version) (m : MethodDecl) : MethodInfo where
  name := m.name
  returnType := m.returnType.signature marker
  parameterTypes := signatureTypes marker m.params
  version := version
  isStatic := m.modifiers.isStatic
  isPrivate := m.modifiers.visibility == .priv
  variableTypes := (m.declared marker).foldl (fun vars d => vars.put d.1 d.2) []

@[simp] theorem MethodDecl.name_info (marker : Marker) (version : Version) (m : MethodDecl) :
    (m.info marker version).name = m.name := rfl

namespace ClassInfo

/-- Nested types and constructors leave no trace. -/
def addMember (marker : Marker) (version : Version) (c : ClassInfo) : Member → ClassInfo
  | .method m => c.addMethod (m.info marker version)
  | .field f => c.addFields (f.infos marker version)
  | .constructor _ | .type _ => c

def addType (marker : Marker) (t : TypeDecl) (c : ClassInfo) : ClassInfo :=
  let version := (marker.parse t.name).version
  t.members.foldl (addMember marker version) (c.mark version)

end ClassInfo

def SymbolTable.addType (marker : Marker) (table : SymbolTable) (t : TypeDecl) : SymbolTable :=
  table.update (marker.baseName t.name) (ClassInfo.addType marker t)

theorem SymbolTable.update_update (table : SymbolTable) (base : String) (f g : ClassInfo → ClassInfo) :
    (table.update base f).update base g = table.update base fun c => g (f c) := by
  simp only [update, Entries.alter_alter, Option.getD_some]

theorem MethodDecl.foldl_declare (marker : Marker) (version : Version) (m : MethodDecl) :
    (Stmt.allLocals (m.body.getD [])).foldl (MethodInfo.declare marker) (m.header marker version) =
      m.info marker version := by
  have hall : ∀ (vs : List LocalVars) (info : MethodInfo),
      vs.foldl (MethodInfo.declare marker) info =
        { info with
          variableTypes := (vs.flatMap fun v => v.declarators.map fun d =>
            (d.name, v.ty.signature marker)).foldl (fun vars d => vars.put d.1 d.2)
              info.variableTypes } := by
    intro vs
    induction vs with
    | nil => exact fun _ => rfl
    | cons v rest ih =>
      intro info
      rw [List.foldl_cons, ih, MethodInfo.declare, List.flatMap_cons, List.foldl_append,
        List.foldl_map]
  rw [hall]
  simp only [header, info, declared, declaredVars, List.map_append, List.map_map, List.map_flatMap,
    List.foldl_append, List.foldl_map, Function.comp_def]

namespace Indexing

variable {marker : Marker} {os ps children : List Outline} {o : Outline} {vs ws : List LocalVars}

def declareAll (marker : Marker) (st : Indexing) (vs : List LocalVars) : Indexing :=
  { st with method := st.method.map fun m => vs.foldl (MethodInfo.declare marker) m }

theorem declareAll_nil (st : Indexing) : st.declareAll marker [] = st := by
  simp [declareAll]

theorem declareAll_append (st : Indexing) (vs ws : List LocalVars) :
    st.declareAll marker (vs ++ ws) = (st.declareAll marker vs).declareAll marker ws := by
  simp [declareAll, Function.comp_def]

/-- Wherever it stands, the visitor comes through the outlines and only notes some locals. -/
def Passes (marker : Marker) (os : List Outline) (vs : List LocalVars) : Prop :=
  ∀ st, (Outline.visitAll (visitor marker) os).run st = (true, st.declareAll marker vs)

namespace Passes

theorem nil : Passes marker [] [] := fun st => by
  rw [Outline.run_visitAll_nil, declareAll_nil]

theorem append (hos : Passes marker os vs) (hps : Passes marker ps ws) :
    Passes marker (os ++ ps) (vs ++ ws) := fun st => by
  rw [Outline.run_visitAll_append ps (hos st), hps, declareAll_append]

theorem cons (ho : Passes marker [o] vs) (hos : Passes marker os ws) :
    Passes marker (o :: os) (vs ++ ws) :=
  ho.append hos

theorem of_eq (hos : Passes marker os vs) (h : vs = ws) : Passes marker os ws := h ▸ hos

theorem singleton (h : ∀ st, (o.visit (visitor marker)).run st = (true, st.declareAll marker vs)) :
    Passes marker [o] vs := fun st => by
  rw [Outline.run_visitAll_cons, h, if_pos rfl, Outline.run_visitAll_nil]

/-- A node that the visitor takes no notice of. -/
theorem node {n : Node} (henter : (visitor marker).enter n = pure .descend)
    (hleave : (visitor marker).leave n = pure ()) (h : Passes marker children vs) :
    Passes marker [.node n children] vs := by
  refine singleton fun st => ?_
  have hrun : ((visitor marker).enter n).run st = (.descend, st) := congrFun henter st
  rw [Outline.run_visit_of_descend hrun (h st), hleave]
  rfl

theorem localVars (v : LocalVars) (h : Passes marker children []) :
    Passes marker [.node (.localVars v) children] [v] := by
  refine singleton fun st => ?_
  have henter : ((visitor marker).enter (.localVars v)).run st =
      (.descend, st.declareAll marker [v]) := rfl
  rw [Outline.run_visit_of_descend henter (h _), declareAll_nil]
  rfl

end Passes

end Indexing

open Indexing

section

variable {marker : Marker}

mutual

theorem TypeRef.passes_outline : ∀ t : TypeRef, Passes marker [t.outline] []
  | ⟨_, args, _⟩ => .node rfl rfl (TypeRef.passes_outlines args)

theorem TypeRef.passes_outlines : ∀ ts : List TypeRef, Passes marker (TypeRef.outlines ts) []
  | [] => .nil
  | t :: rest => t.passes_outline.cons (TypeRef.passes_outlines rest)

end

mutual

theorem Expr.passes_outline : ∀ e : Expr, Passes marker [e.outline] []
  | .literal _ | .ident _ | .this => .node rfl rfl .nil
  | .field e _ => .node rfl rfl (.node rfl rfl e.passes_outline)
  | .call receiver _ args =>
    .node rfl rfl (.node rfl rfl
      ((Expr.passes_option receiver).append (Expr.passes_outlines args)))
  | .create ty args => .node rfl rfl (ty.passes_outline.cons (Expr.passes_outlines args))
  | .assign target _ value => .node rfl rfl (target.passes_outline.cons value.passes_outline)
  | .binary _ lhs rhs => .node rfl rfl (lhs.passes_outline.cons rhs.passes_outline)
  | .unary _ operand => .node rfl rfl operand.passes_outline
  | .cast ty operand => .node rfl rfl (ty.passes_outline.cons operand.passes_outline)

theorem Expr.passes_option : ∀ e : Option Expr, Passes marker (Expr.optionOutline e) []
  | none => .nil
  | some e => e.passes_outline

theorem Expr.passes_outlines : ∀ es : List Expr, Passes marker (Expr.outlines es) []
  | [] => .nil
  | e :: rest => e.passes_outline.cons (Expr.passes_outlines rest)

end

theorem Declarator.passes_outlines :
    ∀ ds : List Declarator, Passes marker (Declarator.outlines ds) []
  | [] => .nil
  | d :: rest => (Expr.passes_option d.init).append (Declarator.passes_outlines rest)

mutual

theorem Stmt.passes_outline : ∀ x : Stmt, Passes marker [x.outline] x.locals
  | .expr e | .throw e => .node rfl rfl e.passes_outline
  | .vars v =>
    .node rfl rfl (.localVars v (v.ty.passes_outline.cons (Declarator.passes_outlines _)))
  | .block stmts => .node rfl rfl (.node rfl rfl (Stmt.passes_outlines stmts))
  | .ifElse cond thenBranch elseBranch =>
    .node rfl rfl (cond.passes_outline.cons
      (thenBranch.passes_outline.cons (Stmt.passes_option elseBranch)))
  | .whileLoop cond body => .node rfl rfl (cond.passes_outline.cons body.passes_outline)
  | .forLoop init cond update body => by
    have hheader := ((Stmt.passes_outlines init).append (Expr.passes_option cond)).append
      (Expr.passes_outlines update)
    refine .node rfl rfl ((hheader.append body.passes_outline).of_eq ?_)
    rw [List.append_nil, List.append_nil, Stmt.locals]
  | .ret value => .node rfl rfl (Expr.passes_option value)
  | .switch selector cases =>
    .node rfl rfl (selector.passes_outline.cons (SwitchCase.passes_outlines cases))
  | .breakOut | .continueOn | .empty => .node rfl rfl .nil

theorem Stmt.passes_option : ∀ x : Option Stmt,
    Passes marker (Stmt.optionOutline x) (Stmt.optionLocals x)
  | none => .nil
  | some x => x.passes_outline

theorem Stmt.passes_outlines : ∀ xs : List Stmt,
    Passes marker (Stmt.outlines xs) (Stmt.allLocals xs)
  | [] => .nil
  | x :: rest => x.passes_outline.cons (Stmt.passes_outlines rest)

theorem SwitchCase.passes_outlines : ∀ cs : List SwitchCase,
    Passes marker (SwitchCase.outlines cs) (SwitchCase.allLocals cs)
  | [] => .nil
  | ⟨labels, body⟩ :: rest =>
    ((Expr.passes_outlines labels).append (Stmt.passes_outlines body)).append
      (SwitchCase.passes_outlines rest)

end

theorem Param.passes_outlines : ∀ ps : List Param, Passes marker (ps.map Param.outline) []
  | [] => .nil
  | p :: rest => (Passes.node rfl rfl p.ty.passes_outline).cons (Param.passes_outlines rest)

theorem MethodDecl.passes_body (m : MethodDecl) :
    Passes marker (m.body.toList.map Block.outline) (Stmt.allLocals (m.body.getD [])) := by
  cases m.body with
  | none => exact .nil
  | some b => exact .node rfl rfl (Stmt.passes_outlines b)

end

namespace Indexing

variable {marker : Marker} {table : SymbolTable} {base : String} {version : Version}

/-- Directly in a top-level type. -/
def inside (table : SymbolTable) (base : String) (version : Version) : Indexing where
  table := table
  current := some (base, version)
  depth := 1

theorem run_method (m : MethodDecl) :
    (m.outline.visit (visitor marker)).run (inside table base version) =
      (true, inside (table.update base (·.addMethod (m.info marker version))) base version) := by
  have henter : ((visitor marker).enter (.methodDecl m)).run (inside table base version) =
      (.descend, { inside table base version with method := some (m.header marker version) }) := rfl
  have hbody : Passes marker (m.body.toList.map Block.outline) _ := m.passes_body
  have hparts := (m.returnType.passes_outline.cons (Param.passes_outlines m.params)).append hbody
  rw [MethodDecl.outline, Outline.run_visit_of_descend henter (hparts _), ← m.foldl_declare]
  rfl

theorem run_nested (t : TypeDecl) :
    (t.outline.visit (visitor marker)).run (inside table base version) =
      (true, inside table base version) := by
  have henter : ((visitor marker).enter (.typeDecl t)).run (inside table base version) =
      (.skip, { inside table base version with depth := 2 }) := rfl
  cases t
  exact Outline.run_visit_of_skip _ henter

/-- Directly in a top-level type each member adds to the entry of its base name. -/
theorem run_member (f : ClassInfo → ClassInfo) (m : Member) :
    (m.outline.visit (visitor marker)).run (inside (table.update base f) base version) =
      (true, inside (table.update base fun c => (f c).addMember marker version m) base version) := by
  have hwrap : ∀ {o : Outline} {st : Indexing},
      (o.visit (visitor marker)).run (inside (table.update base f) base version) = (true, st) →
        ((Outline.node (.member m) [o]).visit (visitor marker)).run
          (inside (table.update base f) base version) = (true, st) := by
    intro o st ho
    have hall : (Outline.visitAll (visitor marker) [o]).run
        (inside (table.update base f) base version) = (true, st) := by
      rw [Outline.run_visitAll_cons, ho, if_pos rfl, Outline.run_visitAll_nil]
    exact Outline.run_visit_of_descend rfl hall
  cases m with
  | field d =>
    have hfield : (d.outline.visit (visitor marker)).run
        (inside (table.update base f) base version) = _ := Outline.run_visit_of_skip _ rfl
    rw [Member.outline, hwrap hfield]
    exact congrArg (fun table => (true, inside table base version)) (table.update_update ..)
  | method d =>
    rw [Member.outline, hwrap (run_method d), SymbolTable.update_update]
    rfl
  | constructor d =>
    exact hwrap (Outline.run_visit_of_skip _ rfl)
  | type t =>
    rw [Member.outline, hwrap (run_nested t)]
    rfl

theorem run_members (ms : List Member) : ∀ f : ClassInfo → ClassInfo,
    (Outline.visitAll (visitor marker) (Member.outlines ms)).run
        (inside (table.update base f) base version) =
      (true, inside (table.update base fun c => ms.foldl (ClassInfo.addMember marker version) (f c))
        base version) := by
  induction ms with
  | nil => exact fun f => Outline.run_visitAll_nil
  | cons m rest ih =>
    intro f
    rw [Member.outlines, Outline.run_visitAll_cons, run_member, if_pos rfl, ih]
    rfl

/-- Between two types the visitor has nothing in hand but the table. -/
theorem run_type (table : SymbolTable) (t : TypeDecl) :
    (t.outline.visit (visitor marker)).run { table } =
      (true, { table := table.addType marker t }) := by
  obtain ⟨kind, modifiers, name, superclass, interfaces, members⟩ := t
  have henter : ((visitor marker).enter
      (.typeDecl ⟨kind, modifiers, name, superclass, interfaces, members⟩)).run { table } =
        (.descend, inside (table.update (marker.baseName name) (·.mark (marker.parse name).version))
          (marker.baseName name) (marker.parse name).version) := rfl
  have hsuperclass : Passes marker (superclass.toList.map TypeRef.outline) [] := by
    cases superclass with
    | none => exact .nil
    | some t => exact t.passes_outline
  have hsupertypes := hsuperclass.append (TypeRef.passes_outlines interfaces)
    (inside (table.update (marker.baseName name) (·.mark (marker.parse name).version))
      (marker.baseName name) (marker.parse name).version)
  rw [List.append_nil, declareAll_nil] at hsupertypes
  have hall := (Outline.run_visitAll_append (Member.outlines members) hsupertypes).trans
    (run_members members _)
  rw [TypeDecl.outline, Outline.run_visit_of_descend henter hall]
  rfl

theorem run_types (ts : List TypeDecl) : ∀ table : SymbolTable,
    (Outline.visitAll (visitor marker) (ts.map TypeDecl.outline)).run { table } =
      (true, { table := ts.foldl (SymbolTable.addType marker) table }) := by
  induction ts with
  | nil => exact fun table => Outline.run_visitAll_nil
  | cons t rest ih =>
    intro table
    rw [List.map_cons, Outline.run_visitAll_cons, run_type, if_pos rfl, ih]
    rfl

theorem run_unit (table : SymbolTable) (u : CompilationUnit) :
    (u.outline.visit (visitor marker)).run { table } =
      (true, { table := u.types.foldl (SymbolTable.addType marker) table }) :=
  Outline.run_visit_of_descend rfl (run_types u.types table)

theorem run_units (units : List CompilationUnit) : ∀ table : SymbolTable,
    (forM units (addUnit marker)).run { table } =
      ((), { table :=
        (units.flatMap CompilationUnit.types).foldl (SymbolTable.addType marker) table }) := by
  induction units with
  | nil => exact fun _ => rfl
  | cons u rest ih =>
    intro table
    have hunit : (addUnit marker u).run { table } =
        ((), { table := u.types.foldl (SymbolTable.addType marker) table }) := by
      rw [addUnit, run_bind, run_unit]
      rfl
    rw [List.forM_cons, run_bind, hunit, ih, List.flatMap_cons, List.foldl_append]

end Indexing

namespace SymbolTable

theorem addUnit_eq_foldl (marker : Marker) (table : SymbolTable) (u : CompilationUnit) :
    table.addUnit marker u = u.types.foldl (addType marker) table := by
  rw [addUnit, Indexing.addUnit, run_bind, Indexing.run_unit]
  rfl

/-- What the visitor gathers is what the declarations add one after the other. -/
theorem build_eq_foldl (marker : Marker) (units : List CompilationUnit) :
    build marker units = (units.flatMap CompilationUnit.types).foldl (addType marker) {} := by
  rw [build, Indexing.run_units]

end SymbolTable

end VersionWeave
