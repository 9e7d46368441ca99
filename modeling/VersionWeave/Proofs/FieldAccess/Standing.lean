import VersionWeave.Proofs.FieldAccess.Forms

namespace VersionWeave

mutual

/--
The expressions inside an expression whose value is used, in source order. A place that is written
to is not one of them, but what its parts yield is.
-/
def Expr.inner : Expr → List Expr
  | .literal _ | .ident _ | .this => []
  | .field receiver _ => receiver :: receiver.inner
  | .call receiver _ args => Expr.optionInner receiver ++ Expr.allInner args
  | .create _ args => Expr.allInner args
  | .assign target _ value => target.inner ++ value :: value.inner
  | .binary _ lhs rhs => lhs :: lhs.inner ++ rhs :: rhs.inner
  | .unary op operand => if op.writes then operand.inner else operand :: operand.inner
  | .cast _ operand => operand :: operand.inner

def Expr.optionInner : Option Expr → List Expr
  | none => []
  | some e => e :: e.inner

def Expr.allInner : List Expr → List Expr
  | [] => []
  | e :: rest => e :: e.inner ++ Expr.allInner rest

end

/--
An expression where it stands: the scope around it, and whether its value is used or it is all of a
statement or of a loop update.
-/
structure Site where
  scope : Scope
  used : Bool
  expr : Expr

namespace Site

/-- Where the value of each of some expressions is used. -/
def ofUsed (s : Scope) (es : List Expr) : List Site := es.map (Site.mk s true)

/-- An expression that is all of a statement or loop update, with those inside it. -/
def ofWhole (s : Scope) (e : Expr) : List Site := ⟨s, false, e⟩ :: ofUsed s e.inner

end Site

def Declarator.allSites (s : Scope) (declarators : List Declarator) : List Site :=
  declarators.flatMap fun d => Site.ofUsed s (Expr.optionInner d.init)

mutual

/-- Every expression of a statement where it stands, in source order. -/
def Stmt.sites (s : Scope) : Stmt → List Site
  | .expr e => Site.ofWhole s e
  | .vars v => Declarator.allSites s v.declarators
  | .block stmts => Stmt.allSites s stmts
  | .ifElse cond thenBranch elseBranch =>
    Site.ofUsed s (cond :: cond.inner) ++ thenBranch.sites s ++ Stmt.optionSites s elseBranch
  | .whileLoop cond body => Site.ofUsed s (cond :: cond.inner) ++ body.sites s
  | .forLoop init cond update body =>
    Stmt.allSites s init ++ Site.ofUsed s (Expr.optionInner cond) ++ update.flatMap (Site.ofWhole s)
      ++ body.sites s
  | .ret value => Site.ofUsed s (Expr.optionInner value)
  | .switch selector cases =>
    Site.ofUsed s (selector :: selector.inner) ++ SwitchCase.allSites s cases
  | .throw e => Site.ofUsed s (e :: e.inner)
  | .breakOut | .continueOn | .empty => []

def Stmt.optionSites (s : Scope) : Option Stmt → List Site
  | none => []
  | some x => x.sites s

def Stmt.allSites (s : Scope) : List Stmt → List Site
  | [] => []
  | x :: rest => x.sites s ++ Stmt.allSites s rest

def SwitchCase.allSites (s : Scope) : List SwitchCase → List Site
  | [] => []
  | ⟨labels, body⟩ :: rest =>
    Site.ofUsed s (Expr.allInner labels) ++ Stmt.allSites s body ++ SwitchCase.allSites s rest

end

mutual

def Member.sites (s : Scope) : Member → List Site
  | .field f => Declarator.allSites s f.declarators
  | .method m => Stmt.allSites (s.enterMethod m) (m.body.getD [])
  | .constructor c => Stmt.allSites s.enterConstructor c.body
  | .type t => t.sites s

def TypeDecl.sites (s : Scope) : TypeDecl → List Site
  | ⟨_, _, name, _, _, members⟩ => Member.allSites (s.enterType name) members

def Member.allSites (s : Scope) : List Member → List Site
  | [] => []
  | m :: rest => m.sites s ++ Member.allSites s rest

end

def CompilationUnit.sites (s : Scope) (u : CompilationUnit) : List Site :=
  u.types.flatMap (TypeDecl.sites s)

/-- The name is that of the setter of some field. -/
def Naming.isSetter (naming : Naming) (name : String) : Bool :=
  naming.setterPrefix.toList.isPrefixOf name.toList

/-- A call of a setter, or what turns into one. -/
structure Setting where
  /-- Whether its value is used. -/
  used : Bool
  receiver : String
  setter : String
  deriving DecidableEq

namespace Expr

/-- The variable and the name, when an expression calls a setter on a variable. -/
def setterCall? (naming : Naming) : Expr → Option (String × String)
  | .call receiver name args =>
    if naming.isSetter name ∧ args.length = 1 then (receiver.bind Expr.ident?).map (·, name)
    else none
  | _ => none

/-- The variable and the setter, when an expression reaches a field that has accessors. -/
def reached? (naming : Naming) (s : Scope) : Expr → Option (String × String)
  | .field receiver name =>
    if s.reaches receiver name then receiver.ident?.map (·, naming.setter name) else none
  | _ => none

/-- The variable and the setter, when an expression writes to a field that has accessors. -/
def write? (naming : Naming) (s : Scope) : Expr → Option (String × String)
  | .assign target _ _ => target.reached? naming s
  | .unary op operand => if op.writes then operand.reached? naming s else none
  | _ => none

end Expr

namespace Site

def setterCall? (naming : Naming) (x : Site) : Option Setting :=
  (x.expr.setterCall? naming).map fun c => ⟨x.used, c.1, c.2⟩

def write? (naming : Naming) (x : Site) : Option Setting :=
  (x.expr.write? naming x.scope).map fun c => ⟨x.used, c.1, c.2⟩

/-- The setter calls on variables, in source order. -/
def setterCalls (naming : Naming) (sites : List Site) : List Setting :=
  sites.filterMap (setterCall? naming)

/-- The writes to fields that have accessors. -/
def writes (naming : Naming) (sites : List Site) : List Setting :=
  sites.filterMap (write? naming)

/-- The setter calls and the writes, together in source order. -/
def settings (naming : Naming) (sites : List Site) : List Setting :=
  sites.filterMap fun x => (x.setterCall? naming).or (x.write? naming)

@[simp] theorem setterCalls_append {naming : Naming} (xs ys : List Site) :
    setterCalls naming (xs ++ ys) = setterCalls naming xs ++ setterCalls naming ys :=
  List.filterMap_append

@[simp] theorem settings_append {naming : Naming} (xs ys : List Site) :
    settings naming (xs ++ ys) = settings naming xs ++ settings naming ys :=
  List.filterMap_append

end Site

namespace FieldAccess

variable {naming : Naming} {s : Scope}

theorem isSetter_setter (naming : Naming) (field : String) :
    naming.isSetter (naming.setter field) = true := by
  rw [Naming.isSetter, Naming.setter, String.toList_append, List.isPrefixOf_iff_prefix]
  exact List.prefix_append _ _

theorem setterCall?_setterCall {receiver : Expr} {field : String}
    (h : s.reaches receiver field = true) (value : Expr) :
    (setterCall naming receiver field value).setterCall? naming =
      (Expr.field receiver field).reached? naming s := by
  simp [setterCall, Expr.callOn, Expr.setterCall?, Expr.reached?, isSetter_setter, h]

theorem reached?_of_accessed? {e : Expr} (h : s.accessed? e = none) :
    e.reached? naming s = none := by
  cases e with
  | field receiver field =>
    rw [Expr.reached?, not_reaches_of_accessed? h receiver field rfl]
    rfl
  | _ => rfl

/-- A setter call stands for a setter call or a write, and nothing else becomes one. -/
theorem setterCall?_edit (e : Expr) :
    (e.edit (editor naming s)).setterCall? naming =
      (e.setterCall? naming).or (e.write? naming s) := by
  cases e with
  | field receiver field =>
    cases h : s.reaches receiver field with
    | false => rw [edit_field h]; rfl
    | true => rw [edit_read h]; simp [getterCall, Expr.callOn, Expr.setterCall?, Expr.write?]
  | call receiver name args =>
    have hreceiver : (Expr.editOption (editor naming s) receiver).bind Expr.ident? =
        receiver.bind Expr.ident? := by
      cases receiver with
      | none => rfl
      | some r => exact ident?_edit r
    change (Expr.call (Expr.editOption (editor naming s) receiver) name
      (Expr.editAll (editor naming s) args)).setterCall? naming = _
    simp only [Expr.setterCall?, Expr.write?, hreceiver, length_editAll, Option.or_none]
  | assign target op value =>
    cases h : s.accessed? target with
    | none =>
      rw [edit_assign h, Expr.write?, reached?_of_accessed? h]
      rfl
    | some a =>
      obtain ⟨rfl, ha⟩ := accessed?_eq_some_iff.mp h
      rw [edit_write ha, setterCall?_setterCall ha]
      rfl
  | unary op operand =>
    cases hw : op.writes with
    | false =>
      rw [edit_unary_value hw, Expr.write?, hw]
      rfl
    | true =>
      obtain ⟨step, hstep⟩ := exists_stepOp? hw
      cases h : s.accessed? operand with
      | none =>
        rw [edit_unary_place hw h, Expr.write?, reached?_of_accessed? h, ite_self]
        rfl
      | some a =>
        obtain ⟨rfl, ha⟩ := accessed?_eq_some_iff.mp h
        rw [edit_step ha hstep, setterCall?_setterCall ha, Expr.write?, if_pos hw]
        rfl
  | _ => rfl

/-- The setter calls among some expressions. -/
def settersAmong (naming : Naming) (es : List Expr) : List (String × String) :=
  es.filterMap (Expr.setterCall? naming)

/-- The setter calls and the writes among some expressions. -/
def settingsAmong (naming : Naming) (s : Scope) (es : List Expr) : List (String × String) :=
  es.filterMap fun e => (e.setterCall? naming).or (e.write? naming s)

/-- What stands in for an expression brings no setter call of its own inside. -/
theorem settersAmong_inner_editor (e : Expr) :
    settersAmong naming ((editor naming s).expr e).inner = settersAmong naming e.inner := by
  cases e with
  | field receiver field =>
    rw [editor_field]
    cases h : s.reaches receiver field with
    | false => rfl
    | true =>
      obtain ⟨v, rfl⟩ := exists_ident_of_reaches h
      rfl
  | assign target op value =>
    cases h : s.accessed? target with
    | none => rw [editor_assign_of_none h]
    | some a =>
      obtain ⟨rfl, ha⟩ := accessed?_eq_some_iff.mp h
      obtain ⟨v, hv⟩ := exists_ident_of_reaches ha
      rw [editor_assign_field ha, hv]
      cases hop : op.binaryOp? <;>
        simp [newValue, hop, setterCall, getterCall, Expr.callOn, Expr.inner, Expr.optionInner,
          Expr.allInner, settersAmong, Expr.setterCall?, List.filterMap_cons]
  | unary op operand =>
    cases hw : op.writes with
    | false => rw [editor_unary_read hw]
    | true =>
      obtain ⟨step, hstep⟩ := exists_stepOp? hw
      cases h : s.accessed? operand with
      | none => rw [editor_unary_of_none h]
      | some a =>
        obtain ⟨rfl, ha⟩ := accessed?_eq_some_iff.mp h
        obtain ⟨v, hv⟩ := exists_ident_of_reaches ha
        rw [editor_unary_field ha hstep, hv]
        simp [hw, setterCall, getterCall, Expr.callOn, Expr.int, Expr.inner, Expr.optionInner,
          Expr.allInner, settersAmong, Expr.setterCall?, List.filterMap_cons]
  | _ => rfl

@[simp] theorem settersAmong_append (es es' : List Expr) :
    settersAmong naming (es ++ es') = settersAmong naming es ++ settersAmong naming es' :=
  List.filterMap_append

@[simp] theorem settingsAmong_append (es es' : List Expr) :
    settingsAmong naming s (es ++ es') = settingsAmong naming s es ++ settingsAmong naming s es' :=
  List.filterMap_append

theorem settersAmong_edit {e : Expr}
    (h : settersAmong naming (e.editParts (editor naming s)).inner =
      settingsAmong naming s e.inner) :
    settersAmong naming (e.edit (editor naming s) :: (e.edit (editor naming s)).inner) =
      settingsAmong naming s (e :: e.inner) := by
  have hinner : settersAmong naming (e.edit (editor naming s)).inner =
      settingsAmong naming s e.inner := (settersAmong_inner_editor _).trans h
  simp only [settersAmong, settingsAmong, List.filterMap_cons, setterCall?_edit] at hinner ⊢
  rw [hinner]

mutual

/-- The parts of an expression whose value is used hold the setters they held or wrote with. -/
theorem settersAmong_inner : ∀ e : Expr,
    settersAmong naming (e.editParts (editor naming s)).inner = settingsAmong naming s e.inner
  | .literal _ => rfl
  | .ident _ => rfl
  | .this => rfl
  | .field receiver _ => settersAmong_edit (settersAmong_inner receiver)
  | .call receiver _ args => by
    simp only [Expr.editParts, Expr.inner, settersAmong_append, settingsAmong_append,
      settersAmong_optionInner receiver, settersAmong_allInner args]
  | .create _ args => settersAmong_allInner args
  | .assign target _ value => by
    have hvalue := settersAmong_edit (settersAmong_inner value)
    simp only [Expr.edit] at hvalue
    simp only [Expr.editParts, Expr.inner, settersAmong_append, settingsAmong_append, hvalue,
      settersAmong_inner target]
  | .binary _ lhs rhs => by
    have hlhs := settersAmong_edit (settersAmong_inner lhs)
    have hrhs := settersAmong_edit (settersAmong_inner rhs)
    simp only [Expr.edit] at hlhs hrhs
    simp only [Expr.editParts, Expr.inner, settersAmong_append, settingsAmong_append, hlhs, hrhs]
  | .unary op operand => by
    cases hw : op.writes with
    | false =>
      simp only [Expr.editParts, Expr.inner, hw]
      exact settersAmong_edit (settersAmong_inner operand)
    | true =>
      simp only [Expr.editParts, Expr.inner, hw, if_true]
      exact settersAmong_inner operand
  | .cast _ operand => settersAmong_edit (settersAmong_inner operand)

theorem settersAmong_optionInner : ∀ e : Option Expr,
    settersAmong naming (Expr.optionInner (Expr.editOption (editor naming s) e)) =
      settingsAmong naming s (Expr.optionInner e)
  | none => rfl
  | some e => settersAmong_edit (settersAmong_inner e)

theorem settersAmong_allInner : ∀ es : List Expr,
    settersAmong naming (Expr.allInner (Expr.editAll (editor naming s) es)) =
      settingsAmong naming s (Expr.allInner es)
  | [] => rfl
  | e :: rest => by
    have he := settersAmong_edit (settersAmong_inner e)
    simp only [Expr.edit] at he
    simp only [Expr.editAll, Expr.allInner, settersAmong_append, settingsAmong_append, he,
      settersAmong_allInner rest]

end

open Site (setterCalls settings writes setterCalls_append settings_append)

/-- Where values are used, the same setters stand at the same sites. -/
theorem setterCalls_ofUsed {es es' : List Expr}
    (h : settersAmong naming es' = settingsAmong naming s es) (s' : Scope) :
    setterCalls naming (Site.ofUsed s' es') = settings naming (Site.ofUsed s es) := by
  have hcalls : setterCalls naming (Site.ofUsed s' es') =
      (settersAmong naming es').map fun c => ⟨true, c.1, c.2⟩ := by
    rw [setterCalls, Site.ofUsed, List.filterMap_map, settersAmong, List.map_filterMap]
    rfl
  have hsettings : settings naming (Site.ofUsed s es) =
      (settingsAmong naming s es).map fun c => ⟨true, c.1, c.2⟩ := by
    simp only [settings, Site.ofUsed, List.filterMap_map, settingsAmong, List.map_filterMap,
      Option.map_or]
    rfl
  rw [hcalls, hsettings, h]

theorem setterCalls_used (e : Expr) (s' : Scope) :
    setterCalls naming
        (Site.ofUsed s' (e.edit (editor naming s) :: (e.edit (editor naming s)).inner)) =
      settings naming (Site.ofUsed s (e :: e.inner)) :=
  setterCalls_ofUsed (settersAmong_edit (settersAmong_inner e)) s'

theorem setterCalls_whole (e : Expr) (s' : Scope) :
    setterCalls naming (Site.ofWhole s' (e.edit (editor naming s))) =
      settings naming (Site.ofWhole s e) := by
  have hinner : setterCalls naming (Site.ofUsed s' (e.edit (editor naming s)).inner) =
      settings naming (Site.ofUsed s e.inner) :=
    setterCalls_ofUsed ((settersAmong_inner_editor _).trans (settersAmong_inner e)) s'
  simp only [setterCalls, settings, Site.ofWhole, List.filterMap_cons, Site.setterCall?,
    Site.write?, setterCall?_edit, Option.map_or] at hinner ⊢
  rw [hinner]

theorem setterCalls_wholes (es : List Expr) (s' : Scope) :
    setterCalls naming ((Expr.editAll (editor naming s) es).flatMap (Site.ofWhole s')) =
      settings naming (es.flatMap (Site.ofWhole s)) := by
  induction es with
  | nil => rfl
  | cons e rest ih =>
    have he : setterCalls naming
        (Site.ofWhole s' ((editor naming s).expr (e.editParts (editor naming s)))) =
          settings naming (Site.ofWhole s e) := setterCalls_whole e s'
    simp only [Expr.editAll, List.flatMap_cons, setterCalls_append, settings_append, ih, he]

theorem setterCalls_declarators (ds : List Declarator) (s' : Scope) :
    setterCalls naming (Declarator.allSites s' (Declarator.editAll (editor naming s) ds)) =
      settings naming (Declarator.allSites s ds) := by
  induction ds with
  | nil => rfl
  | cons d rest ih =>
    simp only [Declarator.allSites, Declarator.editAll, List.map_cons, List.flatMap_cons,
      setterCalls_append, settings_append,
      setterCalls_ofUsed (settersAmong_optionInner d.init)] at ih ⊢
    rw [ih]

mutual

theorem setterCalls_stmt (s' : Scope) (h : Nat) : ∀ x : Stmt,
    setterCalls naming ((x.editParts (editor naming s) h).sites s') = settings naming (x.sites s)
  | .expr e => setterCalls_whole e s'
  | .vars v => setterCalls_declarators v.declarators s'
  | .block stmts => setterCalls_block s' h stmts
  | .ifElse cond thenBranch elseBranch => by
    simp only [Stmt.editParts, Stmt.sites, setterCalls_append, settings_append,
      setterCalls_used cond, setterCalls_optionStmt s' h elseBranch]
    rw [← setterCalls_stmt s' h thenBranch]
    rfl
  | .whileLoop cond body => by
    simp only [Stmt.editParts, Stmt.sites, setterCalls_append, settings_append,
      setterCalls_used cond]
    rw [← setterCalls_stmt s' h body]
    rfl
  | .forLoop init cond update body => by
    simp only [Stmt.editParts, Stmt.sites, setterCalls_append, settings_append,
      setterCalls_block s' (h + 1) init, setterCalls_ofUsed (settersAmong_optionInner cond),
      setterCalls_wholes update]
    rw [← setterCalls_stmt s' h body]
    rfl
  | .ret value => setterCalls_ofUsed (settersAmong_optionInner value) s'
  | .switch selector cases => by
    simp only [Stmt.editParts, Stmt.sites, setterCalls_append, settings_append,
      setterCalls_used selector, setterCalls_cases s' h cases]
  | .throw e => setterCalls_used e s'
  | .breakOut => rfl
  | .continueOn => rfl
  | .empty => rfl

theorem setterCalls_optionStmt (s' : Scope) (h : Nat) : ∀ x : Option Stmt,
    setterCalls naming (Stmt.optionSites s' (Stmt.editOption (editor naming s) h x)) =
      settings naming (Stmt.optionSites s x)
  | none => rfl
  | some x => setterCalls_stmt s' h x

theorem setterCalls_block (s' : Scope) (h : Nat) : ∀ xs : List Stmt,
    setterCalls naming (Stmt.allSites s' (Stmt.editAll (editor naming s) h xs)) =
      settings naming (Stmt.allSites s xs)
  | [] => rfl
  | x :: rest => by
    change setterCalls naming ((x.editParts (editor naming s) h).sites s' ++
      Stmt.allSites s' (Stmt.editAll (editor naming s) h rest)) = _
    rw [setterCalls_append, setterCalls_stmt s' h x, setterCalls_block s' h rest, Stmt.allSites,
      settings_append]

theorem setterCalls_cases (s' : Scope) (h : Nat) : ∀ cs : List SwitchCase,
    setterCalls naming (SwitchCase.allSites s' (SwitchCase.editAll (editor naming s) h cs)) =
      settings naming (SwitchCase.allSites s cs)
  | [] => rfl
  | ⟨labels, body⟩ :: rest => by
    simp only [SwitchCase.editAll, SwitchCase.allSites, setterCalls_append, settings_append,
      setterCalls_ofUsed (settersAmong_allInner labels), setterCalls_block s' h body,
      setterCalls_cases s' h rest]

end

mutual

theorem setterCalls_member : ∀ (m : Member) (s s' : Scope),
    setterCalls naming ((m.edit (editor naming) s).sites s') = settings naming (m.sites s)
  | .field f, _, s' => setterCalls_declarators f.declarators s'
  | .method m, s, s' => by
    have hbody : (m.body.map (Stmt.editAll (editor naming (s.enterMethod m)) 0)).getD [] =
        Stmt.editAll (editor naming (s.enterMethod m)) 0 (m.body.getD []) := by
      cases m.body <;> rfl
    simp only [Member.edit, Member.sites, MethodDecl.edit, hbody, setterCalls_block]
  | .constructor c, _, _ => setterCalls_block _ 0 c.body
  | .type t, s, s' => setterCalls_type t s s'

theorem setterCalls_type : ∀ (t : TypeDecl) (s s' : Scope),
    setterCalls naming ((t.edit (editor naming) s).sites s') = settings naming (t.sites s)
  | ⟨_, _, name, _, _, members⟩, s, s' =>
    setterCalls_members members (s.enterType name) (s'.enterType name)

theorem setterCalls_members : ∀ (ms : List Member) (s s' : Scope),
    setterCalls naming (Member.allSites s' (Member.editAll (editor naming) s ms)) =
      settings naming (Member.allSites s ms)
  | [], _, _ => rfl
  | m :: rest, s, s' => by
    rw [Member.editAll, Member.allSites, setterCalls_append, setterCalls_member m s s',
      setterCalls_members rest s s', Member.allSites, settings_append]

end

theorem setterCalls_edit (u : CompilationUnit) (s : Scope) :
    setterCalls naming ((u.edit (editor naming) s).sites s) = settings naming (u.sites s) := by
  rw [CompilationUnit.sites, CompilationUnit.edit, CompilationUnit.sites]
  induction u.types with
  | nil => rfl
  | cons t rest ih =>
    rw [List.map_cons, List.flatMap_cons, setterCalls_append, setterCalls_type, ih,
      List.flatMap_cons, settings_append]

/-- No expression is both a setter call and a write. -/
theorem setterCall?_eq_none_of_write? {e : Expr} {c : String × String}
    (h : e.write? naming s = some c) : e.setterCall? naming = none := by
  cases e with
  | call receiver name args => cases h
  | _ => rfl

/-- Together, setter calls and writes are used as often as each by itself. -/
theorem countP_settings (sites : List Site) :
    (settings naming sites).countP (·.used) =
      (setterCalls naming sites).countP (·.used) + (writes naming sites).countP (·.used) := by
  induction sites with
  | nil => rfl
  | cons x rest ih =>
    simp only [settings, setterCalls, writes, List.filterMap_cons, Site.setterCall?, Site.write?]
      at ih ⊢
    cases hw : x.expr.write? naming x.scope with
    | none =>
      cases hc : x.expr.setterCall? naming with
      | none => simpa using ih
      | some c => simp [List.countP_cons, ih, Nat.add_right_comm]
    | some c => simp [setterCall?_eq_none_of_write? hw, List.countP_cons, ih, Nat.add_assoc]

/--
Field revision puts a setter call exactly where a write stood: the setter calls of the outcome are
those of the unit and its writes, in the same order and with the same use made of their value. So a
setter call that was put in is used exactly as often as the value of a write is.
-/
theorem setters_stand_where_writes_stood (naming : Naming) (s : Scope) (u : CompilationUnit)
    (count : Nat) :
    let outcome := ((u.revise (reviser naming)).run { scope := s, replaced := count }).1
    setterCalls naming (outcome.sites s) = settings naming (u.sites s) ∧
      (setterCalls naming (outcome.sites s)).countP (·.used) =
        (setterCalls naming (u.sites s)).countP (·.used) +
          (writes naming (u.sites s)).countP (·.used) := by
  have houtcome : ((u.revise (reviser naming)).run { scope := s, replaced := count }).1 =
      u.edit (editor naming) s := congrArg Prod.fst (run_reviser naming u s count)
  simp only [houtcome, setterCalls_edit, countP_settings, and_self]

/-- The unit `class Main { void pour(Tank t, int x) { x = t.level = 1; } }`. -/
def chainedWrite : CompilationUnit :=
  let level : Expr := .field (.ident "t") "level"
  { types := [{ name := "Main", members := [.method {
      returnType := .void, name := "pour"
      params := [{ ty := .plain "Tank", name := "t" }, { ty := .plain "int", name := "x" }]
      body := some [.expr (.set (.ident "x") (.set level (.int 1)))] }] }] }

/-- The value of a chained write is used, and so is that of the setter call in its place. -/
theorem not_every_setter_whole : ¬ ∀ (naming : Naming) (table : SymbolTable) (u : CompilationUnit),
    let s : Scope := { table, marker := .standard }
    let outcome := ((u.revise (reviser naming)).run { scope := s }).1
    setterCalls naming (u.sites s) = [] →
      ∀ c ∈ setterCalls naming (outcome.sites s), c.used = false := by
  intro h
  let tank : CompilationUnit :=
    { types := [{ name := "Tank__1__", members := [.field (.single .pub (.plain "int") "level")] }] }
  have hused := h {} (.build .standard [tank, chainedWrite]) chainedWrite (by decide +kernel)
    ⟨true, "t", "__set_level"⟩ (by decide +kernel)
  cases hused

end FieldAccess

end VersionWeave
