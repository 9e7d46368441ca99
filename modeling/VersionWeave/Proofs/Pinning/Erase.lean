import VersionWeave.Proofs.Pinning.Headers
import VersionWeave.Proofs.Tree.TypeEdits

namespace VersionWeave

/-- Every type in the unit, at any depth, under its base name. -/
def CompilationUnit.normalizeTypes (marker : Marker) (u : CompilationUnit) : CompilationUnit :=
  u.editEvenly (.onTypes (TypeRef.normalize marker))

namespace Pinning

def isSwitch (switchMethod : String) : Stmt → Bool
  | .expr (.call _ name _) => name == switchMethod
  | _ => false

/--
A block of a switch call on a variable and a call on the same variable is just that call; nothing
but a call on a variable is ever pinned.
-/
def unpin (switchMethod : String) : Stmt → Stmt
  | .block [.expr (.call (some (.ident v)) name args), .expr (.call (some (.ident w)) called more)] =>
    if name = switchMethod ∧ v = w then .expr (.call (some (.ident w)) called more)
    else .block [.expr (.call (some (.ident v)) name args),
      .expr (.call (some (.ident w)) called more)]
  | x => x

/-- Undoes pins: switch calls go from loop headers, and blocks of a pin become the pinned call. -/
def eraser (switchMethod : String) : Editor where
  stmt headers x :=
    if headers > 0 ∧ isSwitch switchMethod x then .remove else .keep (unpin switchMethod x)

end Pinning

def CompilationUnit.erasePins (switchMethod : String) (u : CompilationUnit) : CompilationUnit :=
  u.editEvenly (Pinning.eraser switchMethod)

namespace Pinning

variable {naming : Naming} {s : Scope}

section

variable {p : Node → Bool} {q : Pin → Bool} (hp : Node.Shallow p)
  (hcall : ∀ v n, (naming.switchCall (.ident v) n).outline.count p =
    [{ scope := s, receiver := .ident v, ordinal := n }].countP q)
include hp hcall

/-- A pinned statement gains what its switch call has. -/
theorem count_pinned {x : Stmt} {pin : Expr × UInt32} (hpin : pin? s x = some pin) (h : Nat) :
    Outline.countAll p (Stmt.outlines [.expr (naming.switchCall pin.1 pin.2), x]) =
      x.outline.count p + ((notes s).stmt h x).countP q := by
  obtain ⟨v, name, args, m, -, hr, -⟩ := pin?_eq_some_iff.mp hpin
  have hc := hcall v pin.2
  simp (disch := rfl) [Stmt.outline, Stmt.outlines, hp.silent, notes, hpin, hr, hc, Nat.add_comm]

/-- Whether it stands in a block or in a loop header makes no difference. -/
theorem editor_adds : (editor naming s).Adds (notes s) p q where
  shallow := hp
  expr _ := rfl
  single h x := by
    cases hpin : pin? s x with
    | none => simp [editor_stmt_of_none hpin, notes, hpin, Edit.single]
    | some pin =>
      have hcount := (hp.block _).trans (count_pinned hp hcall hpin h)
      cases h with
      | zero => rwa [editor_stmt_zero hpin]
      | succ h => rwa [editor_stmt_succ hpin]
  list h x := by
    cases hpin : pin? s x with
    | none => simp [editor_stmt_of_none hpin, notes, hpin, Edit.toList, Stmt.outlines]
    | some pin =>
      have hcount := count_pinned hp hcall hpin h
      cases h with
      | zero =>
        rw [editor_stmt_zero hpin, Edit.toList, Stmt.outlines, Stmt.outlines, Outline.countAll_cons,
          hp.block, hcount, Outline.countAll_nil, Nat.add_zero]
      | succ h => rwa [editor_stmt_succ hpin]

end

theorem editor_addsCalls (naming : Naming) (s : Scope) :
    (editor naming s).AddsCalls (notes s) naming.switchMethod :=
  Editor.addsCalls_iff.mpr (editor_adds (Node.shallow_isCall _) fun v n => by
    simp [Naming.switchCall, Expr.callOn, Expr.int, Expr.outline, Expr.optionOutline,
      Expr.outlines, Node.isCall])

theorem unpin_eq_self {switchMethod : String} {x : Stmt}
    (h : x.outline.calls switchMethod = 0) : unpin switchMethod x = x := by
  unfold unpin
  split
  next v name args w called more =>
    have hn : name ≠ switchMethod := by
      rintro rfl
      simp [Stmt.outline, Stmt.outlines, Expr.outline, Node.isCall] at h
    rw [if_neg (fun hc => hn hc.1)]
  next => rfl

theorem unpin_pinned (v : String) (n : UInt32) (name : String) (args : List Expr) :
    unpin naming.switchMethod (.block [.expr (naming.switchCall (.ident v) n),
      .expr (.call (some (.ident v)) name args)]) = .expr (.call (some (.ident v)) name args) := by
  simp [unpin, Naming.switchCall, Expr.callOn]

theorem eraser_expr (switchMethod : String) (e : Expr) : e.edit (eraser switchMethod) = e :=
  Expr.edit_id rfl rfl e

theorem eraser_option (switchMethod : String) (e : Option Expr) :
    Expr.editOption (eraser switchMethod) e = e :=
  Expr.editOption_id rfl rfl e

theorem eraser_all (switchMethod : String) (es : List Expr) :
    Expr.editAll (eraser switchMethod) es = es :=
  Expr.editAll_id rfl rfl es

theorem eraser_declarators (switchMethod : String) (ds : List Declarator) :
    Declarator.editAll (eraser switchMethod) ds = ds :=
  Declarator.editAll_id rfl rfl ds

/-- A statement without switch calls is left alone. -/
theorem eraser_keeps {switchMethod : String} {x : Stmt}
    (hc : x.outline.calls switchMethod = 0) (h : Nat) :
    (eraser switchMethod).stmt h x = .keep x := by
  have hswitch : isSwitch switchMethod x = false := by
    unfold isSwitch
    split
    next receiver name args =>
      refine beq_eq_false_iff_ne.mpr fun hn => ?_
      simp [Stmt.outline, Expr.outline, Node.isCall, hn] at hc
    next => rfl
  simp [eraser, hswitch, unpin_eq_self hc]

/-- Types under their base names leave the calls as they were. -/
theorem calls_normalized (name : String) (marker : Marker) (x : Stmt) (h : Nat) :
    (x.editParts (.onTypes (TypeRef.normalize marker)) h).outline.calls name =
      x.outline.calls name := by
  have ha := (Editor.onTypes_addsCalls (TypeRef.normalize marker) name).calls_stmtParts x h
  cases hn : x.partNotes (.onTypes (TypeRef.normalize marker)) ({} : Notes Empty) h with
  | nil => simpa only [hn, List.length_nil, Nat.add_zero] using ha
  | cons note _ => exact note.elim

/-- What pinning keeps of an expression is its types under their base names. -/
theorem editor_expr (naming : Naming) (s : Scope) (e : Expr) :
    e.edit (editor naming s) = e.edit (.onTypes (TypeRef.normalize s.marker)) := by
  apply Expr.edit_congr <;> rfl

theorem editor_option (naming : Naming) (s : Scope) (e : Option Expr) :
    Expr.editOption (editor naming s) e =
      Expr.editOption (.onTypes (TypeRef.normalize s.marker)) e := by
  apply Expr.editOption_congr <;> rfl

theorem editor_all (naming : Naming) (s : Scope) (es : List Expr) :
    Expr.editAll (editor naming s) es = Expr.editAll (.onTypes (TypeRef.normalize s.marker)) es := by
  apply Expr.editAll_congr <;> rfl

theorem editor_declarators (naming : Naming) (s : Scope) (ds : List Declarator) :
    Declarator.editAll (editor naming s) ds =
      Declarator.editAll (.onTypes (TypeRef.normalize s.marker)) ds := by
  apply Declarator.editAll_congr <;> rfl

/-- Outside of loop headers one statement comes of each. -/
theorem editor_toList (naming : Naming) (s : Scope) (x : Stmt) :
    ((editor naming s).stmt 0 x).toList = [((editor naming s).stmt 0 x).single] := by
  cases hp : pin? s x with
  | none => rw [editor_stmt_of_none hp]; rfl
  | some p => rw [editor_stmt_zero hp]; rfl

/-- If erasing the edited parts of a statement gives a tree without switch calls, then erasing the
edited statement gives the same. -/
theorem erase_edited {x z : Stmt} (hx : x.editParts (eraser naming.switchMethod) 0 = z)
    (hz : z.outline.calls naming.switchMethod = 0) :
    (eraser naming.switchMethod).stmt 0
      (((editor naming s).stmt 0 x).single.editParts (eraser naming.switchMethod) 0) = .keep z := by
  cases hp : pin? s x with
  | none => rw [editor_stmt_of_none hp, Edit.single, hx, eraser_keeps hz]
  | some p =>
    obtain ⟨v, name, args, m, rfl, hr, -⟩ := pin?_eq_some_iff.mp hp
    have hsame : z = .expr (.call (some (.ident v)) name args) := by
      rw [← hx, Stmt.editParts, eraser_expr]
    subst hsame
    have hkeep : ∀ y, (eraser naming.switchMethod).stmt 0 y = .keep (unpin naming.switchMethod y) :=
      fun _ => rfl
    have hexpr : ∀ e, unpin naming.switchMethod (.expr e) = .expr e := fun _ => rfl
    rw [editor_stmt_zero hp, Edit.single, hr]
    simp only [Stmt.editParts, Stmt.editAll, eraser_expr, hkeep, hexpr, Edit.toList,
      List.cons_append, List.nil_append, unpin_pinned]

/-- In a loop header the switch call that was put in goes, and the statement stays. -/
theorem erase_spliced {y : Stmt} (hy : y.editParts (eraser naming.switchMethod) 1 = y)
    (hc : y.outline.calls naming.switchMethod = 0) :
    Stmt.editAll (eraser naming.switchMethod) 1 ((editor naming s).stmt 1 y).toList = [y] := by
  have hkeep := eraser_keeps hc 1
  cases hp : pin? s y with
  | none => simp only [editor_stmt_of_none hp, Edit.toList, Stmt.editAll, hy, hkeep, List.append_nil]
  | some p =>
    have hgone : (eraser naming.switchMethod).stmt 1 (.expr (naming.switchCall p.1 p.2)) =
        .remove := by
      simp [eraser, isSwitch, Naming.switchCall, Expr.callOn]
    rw [editor_stmt_succ hp, Edit.toList, Stmt.editAll, Stmt.editParts, eraser_expr, hgone]
    simp only [Stmt.editAll, hy, hkeep, Edit.toList, List.nil_append, List.append_nil]

/-- A loop header holds no statements inside statements, so its pins are all side by side. -/
theorem erase_header {init : List Stmt} (hp : Stmt.plainHeader init = true)
    (hf : Outline.AllFree naming.switchMethod (Stmt.outlines init)) :
    Stmt.editAll (eraser naming.switchMethod) 1 (Stmt.editAll (editor naming s) 1 init) =
      Stmt.editAll (.onTypes (TypeRef.normalize s.marker)) 1 init := by
  have hkind : ∀ x ∈ init, (∃ e, x = .expr e) ∨ ∃ v, x = .vars v := by
    intro x hx
    rcases Stmt.exprs_of_plainHeader hp with ⟨v, rfl⟩ | hexprs
    · exact .inr ⟨v, List.mem_singleton.mp hx⟩
    · exact .inl (hexprs x hx)
  clear hp
  induction init with
  | nil => rfl
  | cons x rest ih =>
    obtain ⟨hx, hr⟩ := Outline.allFree_cons.mp hf
    have hrest := ih hr (fun y hy => hkind y (List.mem_cons_of_mem _ hy))
    have hcalls := (calls_normalized naming.switchMethod s.marker x 1).trans hx.1
    have hparts : x.editParts (editor naming s) 1 =
          x.editParts (.onTypes (TypeRef.normalize s.marker)) 1 ∧
        (x.editParts (.onTypes (TypeRef.normalize s.marker)) 1).editParts
          (eraser naming.switchMethod) 1 =
          x.editParts (.onTypes (TypeRef.normalize s.marker)) 1 := by
      rcases hkind x List.mem_cons_self with ⟨e, rfl⟩ | ⟨v, rfl⟩
      · simp only [Stmt.editParts, editor_expr, eraser_expr, and_self]
      · simp only [Stmt.editParts, LocalVars.edit, editor_declarators, eraser_declarators]
        exact ⟨rfl, rfl⟩
    have hhead := erase_spliced (s := s) hparts.2 hcalls
    simp only [Stmt.editAll, Stmt.editAll_append, hparts.1, hhead, hrest]
    rfl

/-- The same for a statement whose parts are known to be given back. -/
theorem erase_whole {x : Stmt} (hf : x.outline.Free naming.switchMethod)
    (hx : (x.editParts (editor naming s) 0).editParts (eraser naming.switchMethod) 0 =
      x.editParts (.onTypes (TypeRef.normalize s.marker)) 0) :
    (eraser naming.switchMethod).stmt 0
      (((editor naming s).stmt 0 (x.editParts (editor naming s) 0)).single.editParts
        (eraser naming.switchMethod) 0) =
      .keep (x.editParts (.onTypes (TypeRef.normalize s.marker)) 0) :=
  erase_edited hx ((calls_normalized _ _ _ _).trans hf.1)

mutual

theorem erase_parts : ∀ x : Stmt, x.outline.Free naming.switchMethod →
    (x.editParts (editor naming s) 0).editParts (eraser naming.switchMethod) 0 =
      x.editParts (.onTypes (TypeRef.normalize s.marker)) 0
  | .expr e, _ => by simp only [Stmt.editParts, eraser_expr, editor_expr]
  | .vars v, _ => by
    simp only [Stmt.editParts, LocalVars.edit, editor_declarators, eraser_declarators]
    rfl
  | .block stmts, hf => by
    simp only [Stmt.outline, Outline.free_node, Outline.allFree_cons] at hf
    simp only [Stmt.editParts, erase_all stmts hf.1.1.1]
  | .ifElse cond thenBranch elseBranch, hf => by
    simp only [Stmt.outline, Outline.free_node, Outline.allFree_cons] at hf
    have ht := erase_whole hf.1.2.1 (erase_parts thenBranch hf.1.2.1)
    have he := erase_option elseBranch hf.1.2.2
    simp only [Stmt.editParts, eraser_expr, editor_expr, ht, he]
    rfl
  | .whileLoop cond body, hf => by
    simp only [Stmt.outline, Outline.free_node, Outline.allFree_cons] at hf
    have hb := erase_whole hf.1.2.1 (erase_parts body hf.1.2.1)
    simp only [Stmt.editParts, eraser_expr, editor_expr, hb]
    rfl
  | .forLoop init cond update body, hf => by
    simp only [Stmt.outline, Outline.free_node, Outline.allFree_append, Outline.allFree_cons,
      Node.headerPlain] at hf
    have hi := erase_header (s := s) hf.2.2 hf.1.1.1.1
    have hb := erase_whole hf.1.2.1 (erase_parts body hf.1.2.1)
    simp only [Stmt.editParts, eraser_option, editor_option, eraser_all, editor_all, hi, hb]
    rfl
  | .ret value, _ => by simp only [Stmt.editParts, eraser_option, editor_option]
  | .switch selector cases, hf => by
    simp only [Stmt.outline, Outline.free_node, Outline.allFree_cons] at hf
    simp only [Stmt.editParts, eraser_expr, editor_expr, erase_cases cases hf.1.2]
  | .throw e, _ => by simp only [Stmt.editParts, eraser_expr, editor_expr]
  | .breakOut, _ | .continueOn, _ | .empty, _ => rfl

theorem erase_option : ∀ x : Option Stmt,
    Outline.AllFree naming.switchMethod (Stmt.optionOutline x) →
    Stmt.editOption (eraser naming.switchMethod) 0 (Stmt.editOption (editor naming s) 0 x) =
      Stmt.editOption (.onTypes (TypeRef.normalize s.marker)) 0 x
  | none, _ => rfl
  | some x, hf => by
    have hx := (Outline.allFree_cons.mp hf).1
    simp only [Stmt.editOption, erase_whole hx (erase_parts x hx)]
    rfl

theorem erase_all : ∀ xs : List Stmt, Outline.AllFree naming.switchMethod (Stmt.outlines xs) →
    Stmt.editAll (eraser naming.switchMethod) 0 (Stmt.editAll (editor naming s) 0 xs) =
      Stmt.editAll (.onTypes (TypeRef.normalize s.marker)) 0 xs
  | [], _ => rfl
  | x :: rest, hf => by
    obtain ⟨hx, hr⟩ := Outline.allFree_cons.mp hf
    simp only [Stmt.editAll, editor_toList, List.cons_append, List.nil_append,
      erase_whole hx (erase_parts x hx), erase_all rest hr]
    rfl

theorem erase_cases : ∀ cs : List SwitchCase,
    Outline.AllFree naming.switchMethod (SwitchCase.outlines cs) →
    SwitchCase.editAll (eraser naming.switchMethod) 0
      (SwitchCase.editAll (editor naming s) 0 cs) =
      SwitchCase.editAll (.onTypes (TypeRef.normalize s.marker)) 0 cs
  | [], _ => rfl
  | ⟨labels, body⟩ :: rest, hf => by
    simp only [SwitchCase.outlines, Outline.allFree_append] at hf
    simp only [SwitchCase.editAll, eraser_all, editor_all, erase_all body hf.1.2,
      erase_cases rest hf.2]

end

theorem erase_field (naming : Naming) (s : Scope) (f : FieldDecl) :
    (f.edit (editor naming s)).edit (eraser naming.switchMethod) =
      f.edit (.onTypes (TypeRef.normalize s.marker)) := by
  simp only [FieldDecl.edit, editor_declarators, eraser_declarators]
  rfl

theorem erase_params (naming : Naming) (s : Scope) (ps : List Param) :
    (ps.map (Param.edit (editor naming s))).map (Param.edit (eraser naming.switchMethod)) =
      ps.map (Param.edit (.onTypes (TypeRef.normalize s.marker))) := by
  rw [List.map_map]
  rfl

theorem erase_method {m : MethodDecl} (hf : m.outline.Free naming.switchMethod) :
    (m.edit (editor naming s)).edit (eraser naming.switchMethod) =
      m.edit (.onTypes (TypeRef.normalize s.marker)) := by
  have hbody : (m.body.map (Stmt.editAll (editor naming s) 0)).map
      (Stmt.editAll (eraser naming.switchMethod) 0) =
        m.body.map (Stmt.editAll (.onTypes (TypeRef.normalize s.marker)) 0) := by
    cases hb : m.body with
    | none => rfl
    | some b =>
      simp only [MethodDecl.outline, hb, Option.toList_some, List.map_cons, List.map_nil,
        Block.outline, Outline.free_node, Outline.allFree_append, Outline.allFree_cons] at hf
      simp only [Option.map_some, erase_all b hf.1.2.1.1]
  simp only [MethodDecl.edit, erase_params, hbody]
  rfl

theorem erase_constructor {c : ConstructorDecl} (hf : c.outline.Free naming.switchMethod) :
    (c.edit (editor naming s)).edit (eraser naming.switchMethod) =
      c.edit (.onTypes (TypeRef.normalize s.marker)) := by
  simp only [ConstructorDecl.outline, Block.outline, Outline.free_node, Outline.allFree_append,
    Outline.allFree_cons] at hf
  simp only [ConstructorDecl.edit, erase_params, erase_all c.body hf.1.2.1.1]

mutual

theorem erase_member : ∀ (m : Member) (s s' : Scope), m.outline.Free naming.switchMethod →
    (m.edit (editor naming) s).edit (fun _ => eraser naming.switchMethod) s' =
      m.edit (fun _ => .onTypes (TypeRef.normalize s.marker)) s'
  | .field f, s, s', _ => by simp only [Member.edit, erase_field]
  | .method m, s, s', hf => by
    simp only [Member.outline, Outline.free_node, Outline.allFree_cons] at hf
    simp only [Member.edit, erase_method hf.1.1]
    rfl
  | .constructor c, s, s', hf => by
    simp only [Member.outline, Outline.free_node, Outline.allFree_cons] at hf
    simp only [Member.edit, erase_constructor hf.1.1]
    rfl
  | .type t, s, s', hf => by
    simp only [Member.outline, Outline.free_node, Outline.allFree_cons] at hf
    simp only [Member.edit, erase_type t s s' hf.1.1]

theorem erase_type : ∀ (t : TypeDecl) (s s' : Scope), t.outline.Free naming.switchMethod →
    (t.edit (editor naming) s).edit (fun _ => eraser naming.switchMethod) s' =
      t.edit (fun _ => .onTypes (TypeRef.normalize s.marker)) s'
  | ⟨kind, modifiers, name, superclass, interfaces, members⟩, s, s', hf => by
    simp only [TypeDecl.outline, Outline.free_node, Outline.allFree_append] at hf
    have hm := erase_members members (s.enterType name) (s'.enterType name) hf.1.2
    simp only [TypeDecl.edit, hm, Option.map_map, List.map_map]
    rfl

theorem erase_members : ∀ (ms : List Member) (s s' : Scope),
    Outline.AllFree naming.switchMethod (Member.outlines ms) →
    Member.editAll (fun _ => eraser naming.switchMethod) s' (Member.editAll (editor naming) s ms) =
      Member.editAll (fun _ => .onTypes (TypeRef.normalize s.marker)) s' ms
  | [], s, s', _ => rfl
  | m :: rest, s, s', hf => by
    obtain ⟨hm, hr⟩ := Outline.allFree_cons.mp hf
    simp only [Member.editAll, erase_member m s s' hm, erase_members rest s s' hr]

end

theorem erase_unit {u : CompilationUnit} (hf : u.outline.Free naming.switchMethod) :
    (u.edit (editor naming) s).erasePins naming.switchMethod = u.normalizeTypes s.marker := by
  have hall : ∀ (ts : List TypeDecl) (s' : Scope),
      Outline.AllFree naming.switchMethod (ts.map TypeDecl.outline) →
      (ts.map (TypeDecl.edit (editor naming) s)).map
        (TypeDecl.edit (fun _ => eraser naming.switchMethod) s') =
        ts.map (TypeDecl.edit (fun _ => .onTypes (TypeRef.normalize s.marker)) s') := by
    intro ts s' hf
    induction ts with
    | nil => rfl
    | cons t rest ih =>
      obtain ⟨ht, hr⟩ := Outline.allFree_cons.mp hf
      simp only [List.map_cons, erase_type t s s' ht, ih hr]
  simp only [CompilationUnit.erasePins, CompilationUnit.normalizeTypes,
    CompilationUnit.editEvenly, CompilationUnit.edit, hall u.types _ (Outline.free_node.mp hf).1]

/--
Pinning only takes the marks off the types and puts in switch calls: without these the unit is the
one given, the count has grown by as many as there are, and loop headers can still be written.
-/
theorem erasePins_revise (naming : Naming) (s : Scope) (count : Nat) (u : CompilationUnit)
    (hcalls : u.outline.calls naming.switchMethod = 0) (hheaders : u.outline.headersPlain = true) :
    ∃ v st, (u.revise (reviser naming)).run { scope := s, pinned := count } = (v, st) ∧
      v.erasePins naming.switchMethod = u.normalizeTypes s.marker ∧
      st.pinned = count + v.outline.calls naming.switchMethod ∧
      v.outline.headersPlain = true := by
  refine ⟨_, _, run_reviser naming u s count, erase_unit ⟨hcalls, hheaders⟩, ?_,
    headers_unit hheaders⟩
  have hadded := CompilationUnit.calls_edit (editor_addsCalls naming) u s
  rw [hadded, hcalls, Nat.zero_add]
  rfl

/-- Two versions of `Test`, of which the first alone can log a number. -/
def loggers : List CompilationUnit :=
  [{ types := [{ name := "Test__1__", members := [.method
      { modifiers := .pub, returnType := .void, name := "log",
        params := [{ ty := .plain "int", name := "x" }] }] }] },
    { types := [{ name := "Test__2__", members := [.field
      (.single .pub (.plain "int") "level")] }] }]

/-- A loop that logs a number in its header and another in its body. -/
def loggingLoop : CompilationUnit :=
  { types := [{ name := "Main", members := [.method
      { returnType := .void, name := "main", body := some [
          .vars { ty := .plain "Test__2__", declarators := [{ name := "t" }] },
          .forLoop [.expr (.callOn (.ident "t") "log" [.int 1])] none []
            (.expr (.callOn (.ident "t") "log" [.int 2]))] }] }] }

def loggingScope : Scope where
  table := .build .standard (loggers ++ [loggingLoop])
  marker := .standard

theorem erasePins_revise_loggingLoop :
    (loggingLoop.outline.calls "__switchToVersion" = 0 ∧ loggingLoop.outline.headersPlain = true) ∧
      ∃ v st, (loggingLoop.revise (reviser {})).run { scope := loggingScope, pinned := 3 } = (v, st) ∧
        v.erasePins "__switchToVersion" = loggingLoop.normalizeTypes .standard ∧
        st.pinned = 3 + v.outline.calls "__switchToVersion" ∧
        v.outline.headersPlain = true :=
  ⟨⟨by decide, by decide⟩, erasePins_revise {} loggingScope 3 loggingLoop (by decide) (by decide)⟩

example : (pins {} loggingScope loggingLoop).map Pin.ordinal = [1, 1] := by decide +kernel

end Pinning

end VersionWeave
