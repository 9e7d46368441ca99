import VersionWeave.Proofs.FieldAccess.Forms
import VersionWeave.Proofs.Tree.Count

namespace VersionWeave

/-- The node is an access to a field that has accessors. -/
def Node.reaches (s : Scope) : Node → Bool
  | .fieldAccess receiver field => s.reaches receiver field
  | _ => false

/-- The node writes to what is neither a name nor a field. -/
def Node.writesElsewhere : Node → Bool
  | .expr (.assign target _ _) => !target.isPlace
  | .expr (.unary op operand) => op.writes && !operand.isPlace
  | _ => false

@[simp] theorem TypeRef.count_reaches (s : Scope) (t : TypeRef) :
    t.outline.count (Node.reaches s) = 0 :=
  TypeRef.count_outline (fun _ => rfl) t

@[simp] theorem TypeRef.count_writesElsewhere (t : TypeRef) :
    t.outline.count Node.writesElsewhere = 0 :=
  TypeRef.count_outline (fun _ => rfl) t

theorem Outline.countAll_exprs_eq_zero {p : Node → Bool} {es : List Expr} :
    Outline.countAll p (Expr.outlines es) = 0 ↔ ∀ e ∈ es, e.outline.count p = 0 := by
  induction es with
  | nil => simp [Expr.outlines]
  | cons e rest ih => simp [Expr.outlines, ih]

namespace Expr

/-- How many accesses to fields with accessors an expression holds, at any depth. -/
def accessCount (s : Scope) (e : Expr) : Nat := e.outline.count (Node.reaches s)

/-- Every assignment, increment and decrement in an expression writes to a name or a field. -/
def WritesPlaces (e : Expr) : Prop := e.outline.count Node.writesElsewhere = 0

instance (e : Expr) : Decidable e.WritesPlaces :=
  inferInstanceAs (Decidable (_ = 0))

section

variable {receiver target value lhs rhs operand : Expr} {args : List Expr} {name : String}
  {ty : TypeRef}

@[simp] theorem writesPlaces_field : (field receiver name).WritesPlaces ↔ receiver.WritesPlaces := by
  simp [WritesPlaces, outline, Node.writesElsewhere]

@[simp] theorem writesPlaces_call :
    (call none name args).WritesPlaces ↔ ∀ e ∈ args, e.WritesPlaces := by
  simp [WritesPlaces, outline, optionOutline, Node.writesElsewhere, Outline.countAll_exprs_eq_zero]

@[simp] theorem writesPlaces_callOn : (call (some receiver) name args).WritesPlaces ↔
    receiver.WritesPlaces ∧ ∀ e ∈ args, e.WritesPlaces := by
  simp [WritesPlaces, outline, optionOutline, Node.writesElsewhere, Outline.countAll_exprs_eq_zero]

@[simp] theorem writesPlaces_create :
    (create ty args).WritesPlaces ↔ ∀ e ∈ args, e.WritesPlaces := by
  simp [WritesPlaces, outline, Node.writesElsewhere, Outline.countAll_exprs_eq_zero]

@[simp] theorem writesPlaces_assign {op : AssignOp} : (assign target op value).WritesPlaces ↔
    target.isPlace = true ∧ target.WritesPlaces ∧ value.WritesPlaces := by
  cases hplace : target.isPlace <;> simp [WritesPlaces, outline, Node.writesElsewhere, hplace]

@[simp] theorem writesPlaces_binary {op : BinaryOp} :
    (binary op lhs rhs).WritesPlaces ↔ lhs.WritesPlaces ∧ rhs.WritesPlaces := by
  simp [WritesPlaces, outline, Node.writesElsewhere]

@[simp] theorem writesPlaces_unary {op : UnaryOp} : (unary op operand).WritesPlaces ↔
    (op.writes = true → operand.isPlace = true) ∧ operand.WritesPlaces := by
  cases hw : op.writes <;> cases hplace : operand.isPlace <;>
    simp [WritesPlaces, outline, Node.writesElsewhere, hw, hplace]

@[simp] theorem writesPlaces_cast : (cast ty operand).WritesPlaces ↔ operand.WritesPlaces := by
  simp [WritesPlaces, outline, Node.writesElsewhere]

variable (s : Scope)

theorem accessCount_field : (field receiver name).accessCount s =
    receiver.accessCount s + (s.reaches receiver name).toNat := by
  simp [accessCount, outline, Node.reaches]

theorem accessCount_call : (call none name args).accessCount s =
    Outline.countAll (Node.reaches s) (outlines args) := by
  simp [accessCount, outline, optionOutline, Node.reaches]

theorem accessCount_callOn : (call (some receiver) name args).accessCount s =
    receiver.accessCount s + Outline.countAll (Node.reaches s) (outlines args) := by
  simp [accessCount, outline, optionOutline, Node.reaches]

theorem accessCount_create : (create ty args).accessCount s =
    Outline.countAll (Node.reaches s) (outlines args) := by
  simp [accessCount, outline, Node.reaches]

theorem accessCount_assign {op : AssignOp} : (assign target op value).accessCount s =
    target.accessCount s + value.accessCount s := by
  simp [accessCount, outline, Node.reaches]

theorem accessCount_binary {op : BinaryOp} : (binary op lhs rhs).accessCount s =
    lhs.accessCount s + rhs.accessCount s := by
  simp [accessCount, outline, Node.reaches]

theorem accessCount_unary {op : UnaryOp} :
    (unary op operand).accessCount s = operand.accessCount s := by
  simp [accessCount, outline, Node.reaches]

theorem accessCount_cast : (cast ty operand).accessCount s = operand.accessCount s := by
  simp [accessCount, outline, Node.reaches]

end

end Expr

namespace FieldAccess

/--
The second expression is the first with its accesses made through accessors: a read is a getter
call, a write a setter call, and a compound write or a step sets what it got and changed. All else
is the same.
-/
inductive AccessorForm (naming : Naming) (s : Scope) : Expr → Expr → Prop
  | literal (l : Literal) : AccessorForm naming s (.literal l) (.literal l)
  | ident (n : String) : AccessorForm naming s (.ident n) (.ident n)
  | this : AccessorForm naming s .this .this
  | read {receiver field} : s.reaches receiver field = true →
      AccessorForm naming s (.field receiver field) (getterCall naming receiver field)
  | field {receiver receiver' field} : s.reaches receiver field = false →
      AccessorForm naming s receiver receiver' →
      AccessorForm naming s (.field receiver field) (.field receiver' field)
  | call {name args args'} : args'.length = args.length →
      (∀ x ∈ args.zip args', AccessorForm naming s x.1 x.2) →
      AccessorForm naming s (.call none name args) (.call none name args')
  | callOn {receiver receiver' name args args'} : AccessorForm naming s receiver receiver' →
      args'.length = args.length → (∀ x ∈ args.zip args', AccessorForm naming s x.1 x.2) →
      AccessorForm naming s (.call (some receiver) name args) (.call (some receiver') name args')
  | create {ty args args'} : args'.length = args.length →
      (∀ x ∈ args.zip args', AccessorForm naming s x.1 x.2) →
      AccessorForm naming s (.create ty args) (.create ty args')
  | write {receiver field value value'} : s.reaches receiver field = true →
      AccessorForm naming s value value' →
      AccessorForm naming s (.assign (.field receiver field) .assign value)
        (setterCall naming receiver field value')
  | change {receiver field op change value value'} : s.reaches receiver field = true →
      AssignOp.binaryOp? op = some change → AccessorForm naming s value value' →
      AccessorForm naming s (.assign (.field receiver field) op value)
        (setterCall naming receiver field
          (.binary change (getterCall naming receiver field) value'))
  | assign {target target' op value value'} :
      (∀ receiver field, target = .field receiver field → s.reaches receiver field = false) →
      AccessorForm naming s target target' → AccessorForm naming s value value' →
      AccessorForm naming s (.assign target op value) (.assign target' op value')
  | binary {op lhs lhs' rhs rhs'} : AccessorForm naming s lhs lhs' →
      AccessorForm naming s rhs rhs' →
      AccessorForm naming s (.binary op lhs rhs) (.binary op lhs' rhs')
  | step {receiver field op step} : s.reaches receiver field = true → stepOp? op = some step →
      AccessorForm naming s (.unary op (.field receiver field))
        (setterCall naming receiver field
          (.binary step (getterCall naming receiver field) (.int 1)))
  | unary {op operand operand'} : (op.writes = true →
        ∀ receiver field, operand = .field receiver field → s.reaches receiver field = false) →
      AccessorForm naming s operand operand' →
      AccessorForm naming s (.unary op operand) (.unary op operand')
  | cast {ty operand operand'} : AccessorForm naming s operand operand' →
      AccessorForm naming s (.cast ty operand) (.cast ty operand')

variable {naming : Naming} {s : Scope}

theorem AccessorForm.reaches_eq {e e' : Expr} (h : AccessorForm naming s e e') (field : String) :
    s.reaches e' field = s.reaches e field := by
  have hident : e'.ident? = e.ident? := by cases h <;> rfl
  rw [Scope.reaches, hident, Scope.reaches]

theorem accessCount_getterCall {receiver : Expr} {field : String}
    (h : s.reaches receiver field = true) : (getterCall naming receiver field).accessCount s = 0 := by
  obtain ⟨v, rfl⟩ := exists_ident_of_reaches h
  rfl

theorem accessCount_setterCall {receiver : Expr} {field : String}
    (h : s.reaches receiver field = true) (value : Expr) :
    (setterCall naming receiver field value).accessCount s = value.accessCount s := by
  obtain ⟨v, rfl⟩ := exists_ident_of_reaches h
  rw [setterCall, Expr.callOn, Expr.accessCount_callOn, Expr.outlines, Expr.outlines,
    Outline.countAll_cons]
  exact Nat.zero_add _

/-- What holds from each item to the one at its place holds from list to list. -/
theorem forall_of_zip {P Q : Expr → Prop} {args args' : List Expr}
    (hlength : args'.length = args.length) (h : ∀ x ∈ args.zip args', P x.1 → Q x.2)
    (hP : ∀ e ∈ args, P e) : ∀ e ∈ args', Q e := by
  induction args generalizing args' with
  | nil => simp [List.length_eq_zero_iff.mp hlength]
  | cons a rest ih =>
    cases args' with
    | nil => cases hlength
    | cons a' rest' =>
      rw [List.zip_cons_cons, List.forall_mem_cons] at h
      rw [List.forall_mem_cons] at hP ⊢
      exact ⟨h.1 hP.1, ih (Nat.succ.inj hlength) h.2 hP.2⟩

theorem accessCount_eq_zero_of_zip {args args' : List Expr} (hlength : args'.length = args.length)
    (h : ∀ x ∈ args.zip args', x.2.accessCount s = 0) :
    Outline.countAll (Node.reaches s) (Expr.outlines args') = 0 :=
  Outline.countAll_exprs_eq_zero.mpr
    (forall_of_zip (P := fun _ => True) hlength (fun x hx _ => h x hx) fun _ _ => trivial)

theorem eq_of_zip {args args' : List Expr} (hlength : args'.length = args.length)
    (h : ∀ x ∈ args.zip args', x.1.accessCount s = 0 → x.2 = x.1)
    (hcount : Outline.countAll (Node.reaches s) (Expr.outlines args) = 0) : args' = args := by
  induction args generalizing args' with
  | nil => exact List.length_eq_zero_iff.mp hlength
  | cons a rest ih =>
    cases args' with
    | nil => cases hlength
    | cons a' rest' =>
      rw [List.zip_cons_cons, List.forall_mem_cons] at h
      rw [Expr.outlines, Outline.countAll_cons, Nat.add_eq_zero_iff] at hcount
      have hhead : a' = a := h.1 hcount.1
      rw [hhead, ih (Nat.succ.inj hlength) h.2 hcount.2]

/-- No access is left once accesses are made through accessors. -/
theorem AccessorForm.accessCount_eq_zero {e e' : Expr} (h : AccessorForm naming s e e') :
    e'.accessCount s = 0 := by
  induction h with
  | literal | ident | this => rfl
  | read hr => exact accessCount_getterCall hr
  | field hr hreceiver ih => rw [Expr.accessCount_field, ih, hreceiver.reaches_eq, hr]; rfl
  | call hlength _ ih => rw [Expr.accessCount_call, accessCount_eq_zero_of_zip hlength ih]
  | callOn _ hlength _ ihreceiver ih =>
    rw [Expr.accessCount_callOn, ihreceiver, accessCount_eq_zero_of_zip hlength ih]
  | create hlength _ ih => rw [Expr.accessCount_create, accessCount_eq_zero_of_zip hlength ih]
  | write hr _ ih => rw [accessCount_setterCall hr, ih]
  | change hr _ _ ih =>
    rw [accessCount_setterCall hr, Expr.accessCount_binary, accessCount_getterCall hr, ih]
  | assign _ _ _ ihtarget ihvalue => rw [Expr.accessCount_assign, ihtarget, ihvalue]
  | binary _ _ ihl ihr => rw [Expr.accessCount_binary, ihl, ihr]
  | step hr _ =>
    rw [accessCount_setterCall hr, Expr.accessCount_binary, accessCount_getterCall hr]
    rfl
  | unary _ _ ih => rw [Expr.accessCount_unary, ih]
  | cast _ ih => rw [Expr.accessCount_cast, ih]

theorem AccessorForm.isPlace {e e' : Expr} (h : AccessorForm naming s e e')
    (hpassed : ∀ receiver field, e = .field receiver field → s.reaches receiver field = false)
    (hplace : e.isPlace = true) : e'.isPlace = true := by
  cases h with
  | read hr => exact absurd (hr.symm.trans (hpassed _ _ rfl)) Bool.noConfusion
  | ident | field => rfl
  | _ => cases hplace

/-- The accessor form writes to names and fields if the expression does. -/
theorem AccessorForm.writesPlaces {e e' : Expr} (h : AccessorForm naming s e e') :
    e.WritesPlaces → e'.WritesPlaces := by
  have hgetter : ∀ {receiver field}, s.reaches receiver field = true →
      (getterCall naming receiver field).WritesPlaces := by
    intro receiver field hr
    obtain ⟨v, rfl⟩ := exists_ident_of_reaches hr
    rfl
  have hsetter : ∀ {receiver field value}, s.reaches receiver field = true →
      value.WritesPlaces → (setterCall naming receiver field value).WritesPlaces := by
    intro receiver field value hr hvalue
    obtain ⟨v, rfl⟩ := exists_ident_of_reaches hr
    exact Expr.writesPlaces_callOn.mpr ⟨rfl, List.forall_mem_singleton.mpr hvalue⟩
  induction h with
  | literal | ident | this => exact id
  | read hr => exact fun _ => hgetter hr
  | field _ _ ih => simpa using ih
  | call hlength _ ih =>
    simp only [Expr.writesPlaces_call]
    exact forall_of_zip hlength ih
  | callOn _ hlength _ ihreceiver ih =>
    simp only [Expr.writesPlaces_callOn]
    exact And.imp ihreceiver (forall_of_zip hlength ih)
  | create hlength _ ih =>
    simp only [Expr.writesPlaces_create]
    exact forall_of_zip hlength ih
  | write hr _ ih => exact fun hw => hsetter hr (ih (Expr.writesPlaces_assign.mp hw).2.2)
  | change hr _ _ ih =>
    exact fun hw => hsetter hr (Expr.writesPlaces_binary.mpr
      ⟨hgetter hr, ih (Expr.writesPlaces_assign.mp hw).2.2⟩)
  | assign hpassed htarget _ ihtarget ihvalue =>
    simp only [Expr.writesPlaces_assign]
    exact And.imp (htarget.isPlace hpassed) (And.imp ihtarget ihvalue)
  | binary _ _ ihl ihr =>
    simp only [Expr.writesPlaces_binary]
    exact And.imp ihl ihr
  | step hr _ => exact fun _ => hsetter hr (Expr.writesPlaces_binary.mpr ⟨hgetter hr, rfl⟩)
  | unary hpassed hoperand ih =>
    simp only [Expr.writesPlaces_unary]
    exact And.imp (fun hplace hw => hoperand.isPlace (hpassed hw) (hplace hw)) ih
  | cast _ ih => simpa using ih

/-- An expression without accesses is its own accessor form. -/
theorem AccessorForm.eq_self {e e' : Expr} (h : AccessorForm naming s e e') :
    e.accessCount s = 0 → e' = e := by
  have hreached : ∀ {receiver field}, s.reaches receiver field = true →
      (Expr.field receiver field).accessCount s ≠ 0 := by
    intro receiver field hr
    simp [Expr.accessCount_field, hr]
  induction h with
  | literal | ident | this => exact fun _ => rfl
  | read hr => exact fun hzero => absurd hzero (hreached hr)
  | field _ _ ih =>
    rw [Expr.accessCount_field, Nat.add_eq_zero_iff]
    exact fun hzero => by rw [ih hzero.1]
  | call hlength _ ih =>
    rw [Expr.accessCount_call]
    exact fun hzero => by rw [eq_of_zip hlength ih hzero]
  | callOn _ hlength _ ihreceiver ih =>
    rw [Expr.accessCount_callOn, Nat.add_eq_zero_iff]
    exact fun hzero => by rw [ihreceiver hzero.1, eq_of_zip hlength ih hzero.2]
  | create hlength _ ih =>
    rw [Expr.accessCount_create]
    exact fun hzero => by rw [eq_of_zip hlength ih hzero]
  | write hr _ _ | change hr _ _ _ =>
    rw [Expr.accessCount_assign, Nat.add_eq_zero_iff]
    exact fun hzero => absurd hzero.1 (hreached hr)
  | assign _ _ _ ihtarget ihvalue =>
    rw [Expr.accessCount_assign, Nat.add_eq_zero_iff]
    exact fun hzero => by rw [ihtarget hzero.1, ihvalue hzero.2]
  | binary _ _ ihl ihr =>
    rw [Expr.accessCount_binary, Nat.add_eq_zero_iff]
    exact fun hzero => by rw [ihl hzero.1, ihr hzero.2]
  | step hr _ =>
    rw [Expr.accessCount_unary]
    exact fun hzero => absurd hzero (hreached hr)
  | unary _ _ ih =>
    rw [Expr.accessCount_unary]
    exact fun hzero => by rw [ih hzero]
  | cast _ ih =>
    rw [Expr.accessCount_cast]
    exact fun hzero => by rw [ih hzero]

/-- A write gives way to a setter call where it is to an access, and is kept otherwise. -/
theorem accessorForm_assign {target value : Expr} (op : AssignOp) (hplace : target.isPlace = true)
    (ht : AccessorForm naming s target (target.edit (editor naming s)))
    (hv : AccessorForm naming s value (value.edit (editor naming s))) :
    AccessorForm naming s (.assign target op value)
      ((Expr.assign target op value).edit (editor naming s)) := by
  cases ha : s.accessed? target with
  | none =>
    rw [edit_assign ha, ← edit_of_isPlace hplace ha]
    exact .assign (not_reaches_of_accessed? ha) ht hv
  | some a =>
    obtain ⟨rfl, hr⟩ := accessed?_eq_some_iff.mp ha
    rw [edit_write hr, newValue]
    cases op with
    | assign => exact .write hr hv
    | _ => exact .change hr rfl hv

theorem accessorForm_unary {operand : Expr} (op : UnaryOp)
    (hplace : op.writes = true → operand.isPlace = true)
    (ho : AccessorForm naming s operand (operand.edit (editor naming s))) :
    AccessorForm naming s (.unary op operand)
      ((Expr.unary op operand).edit (editor naming s)) := by
  cases hw : op.writes with
  | false =>
    rw [edit_unary_value hw]
    exact .unary (fun h => absurd (hw.symm.trans h) Bool.false_ne_true) ho
  | true =>
    cases ha : s.accessed? operand with
    | none =>
      rw [edit_unary_place hw ha, ← edit_of_isPlace (hplace hw) ha]
      exact .unary (fun _ => not_reaches_of_accessed? ha) ho
    | some a =>
      obtain ⟨rfl, hr⟩ := accessed?_eq_some_iff.mp ha
      obtain ⟨step, hstep⟩ := exists_stepOp? hw
      rw [edit_step hr hstep]
      exact .step hr hstep

mutual

/-- Revision makes every access through accessors, and leaves all else alone. -/
theorem accessorForm_edit : ∀ e : Expr, e.WritesPlaces →
    AccessorForm naming s e (e.edit (editor naming s))
  | .literal l, _ => .literal l
  | .ident n, _ => .ident n
  | .this, _ => .this
  | .field receiver field, h => by
    have hreceiver := accessorForm_edit receiver (Expr.writesPlaces_field.mp h)
    cases hr : s.reaches receiver field with
    | true => rw [edit_read hr]; exact .read hr
    | false => rw [edit_field hr]; exact .field hr hreceiver
  | .call none _ args, h =>
    .call (length_editAll args) (accessorForm_editAll args (Expr.writesPlaces_call.mp h))
  | .call (some receiver) _ args, h =>
    have h := Expr.writesPlaces_callOn.mp h
    .callOn (accessorForm_edit receiver h.1) (length_editAll args) (accessorForm_editAll args h.2)
  | .create _ args, h =>
    .create (length_editAll args) (accessorForm_editAll args (Expr.writesPlaces_create.mp h))
  | .assign target op value, h =>
    have h := Expr.writesPlaces_assign.mp h
    accessorForm_assign op h.1 (accessorForm_edit target h.2.1) (accessorForm_edit value h.2.2)
  | .binary _ lhs rhs, h =>
    have h := Expr.writesPlaces_binary.mp h
    .binary (accessorForm_edit lhs h.1) (accessorForm_edit rhs h.2)
  | .unary op operand, h =>
    have h := Expr.writesPlaces_unary.mp h
    accessorForm_unary op h.1 (accessorForm_edit operand h.2)
  | .cast _ operand, h => .cast (accessorForm_edit operand (Expr.writesPlaces_cast.mp h))

theorem accessorForm_editAll : ∀ es : List Expr, (∀ e ∈ es, e.WritesPlaces) →
    ∀ x ∈ es.zip (Expr.editAll (editor naming s) es), AccessorForm naming s x.1 x.2
  | [], _ => by simp
  | e :: rest, h => by
    rw [List.forall_mem_cons] at h
    rw [Expr.editAll, List.zip_cons_cons, List.forall_mem_cons]
    exact ⟨accessorForm_edit e h.1, accessorForm_editAll rest h.2⟩

end

theorem notes_field (receiver : Expr) (field : String) :
    ((notes s).expr (.field receiver field)).length = (s.reaches receiver field).toNat := by
  simp only [notes, replacedAccess?, accessed?_field]
  cases s.reaches receiver field <;> rfl

/-- A write is noted where its place, read, would be. -/
theorem length_notes_assign {target : Expr} (h : target.isPlace = true) (op : AssignOp)
    (value : Expr) :
    ((Expr.assign target op value).notes (editor naming s) (notes s)).length =
      (target.notes (editor naming s) (notes s)).length
        + (value.notes (editor naming s) (notes s)).length := by
  have hnoted : (notes s).expr ((Expr.assign target op value).editParts (editor naming s)) =
      (notes s).expr (target.editParts (editor naming s)) := by
    cases target with
    | ident | field => rfl
    | _ => cases h
  simp only [Expr.notes, hnoted, Expr.partNotes, List.length_append]
  omega

theorem length_notes_unary {op : UnaryOp} {operand : Expr}
    (h : op.writes = true → operand.isPlace = true) :
    ((Expr.unary op operand).notes (editor naming s) (notes s)).length =
      (operand.notes (editor naming s) (notes s)).length := by
  cases hw : op.writes with
  | true =>
    have hnoted : (notes s).expr (.unary op (operand.editParts (editor naming s))) =
        (notes s).expr (operand.editParts (editor naming s)) := by
      obtain ⟨step, hstep⟩ := exists_stepOp? hw
      have hplace := h hw
      cases operand with
      | ident | field => simp only [notes, replacedAccess?, hstep, Option.bind_some, Expr.editParts]
      | _ => cases hplace
    simp only [Expr.notes, Expr.partNotes, Expr.editParts, hw, if_true, List.append_nil, hnoted]
  | false =>
    have hnoted : ∀ e, (notes s).expr (.unary op e) = [] := by
      intro e
      cases op with
      | neg | not => rfl
      | _ => cases hw
    simp only [Expr.notes, Expr.partNotes, Expr.editParts, hw, Bool.false_eq_true, if_false, hnoted,
      List.append_nil]

mutual

/-- As many accesses give way as there are. -/
theorem length_notes : ∀ e : Expr, e.WritesPlaces →
    (e.notes (editor naming s) (notes s)).length = e.accessCount s
  | .literal _, _ | .ident _, _ | .this, _ => rfl
  | .field receiver field, h => by
    have hreceiver := length_notes receiver (Expr.writesPlaces_field.mp h)
    have hreached := notes_field (s := s) (receiver.edit (editor naming s)) field
    rw [reaches_edit] at hreached
    rw [Expr.accessCount_field, ← hreceiver, ← hreached]
    exact List.length_append
  | .call none _ args, h => by
    rw [Expr.accessCount_call, ← length_allNotes args (Expr.writesPlaces_call.mp h)]
    exact congrArg List.length (List.append_nil _)
  | .call (some receiver) _ args, h => by
    have h := Expr.writesPlaces_callOn.mp h
    rw [Expr.accessCount_callOn, ← length_notes receiver h.1, ← length_allNotes args h.2,
      ← List.length_append]
    exact congrArg List.length (List.append_nil _)
  | .create _ args, h => by
    rw [Expr.accessCount_create, ← length_allNotes args (Expr.writesPlaces_create.mp h)]
    exact congrArg List.length (List.append_nil _)
  | .assign target op value, h => by
    have h := Expr.writesPlaces_assign.mp h
    rw [length_notes_assign h.1, length_notes target h.2.1, length_notes value h.2.2,
      Expr.accessCount_assign]
  | .binary _ lhs rhs, h => by
    have h := Expr.writesPlaces_binary.mp h
    rw [Expr.accessCount_binary, ← length_notes lhs h.1, ← length_notes rhs h.2,
      ← List.length_append]
    exact congrArg List.length (List.append_nil _)
  | .unary op operand, h => by
    have h := Expr.writesPlaces_unary.mp h
    rw [length_notes_unary h.1, length_notes operand h.2, Expr.accessCount_unary]
  | .cast _ operand, h => by
    rw [Expr.accessCount_cast, ← length_notes operand (Expr.writesPlaces_cast.mp h)]
    exact congrArg List.length (List.append_nil _)

theorem length_allNotes : ∀ es : List Expr, (∀ e ∈ es, e.WritesPlaces) →
    (Expr.allNotes (editor naming s) (notes s) es).length =
      Outline.countAll (Node.reaches s) (Expr.outlines es)
  | [], _ => rfl
  | e :: rest, h => by
    rw [List.forall_mem_cons] at h
    rw [Expr.allNotes, List.length_append, Expr.outlines, Outline.countAll_cons,
      length_allNotes rest h.2]
    exact congrArg (· + _) (length_notes e h.1)

end

/-- Field revision of an expression gives the editor's expression and counts the accesses. -/
theorem run_expr (naming : Naming) (s : Scope) (e : Expr) (count : Nat) :
    (e.revise (reviser naming)).run { scope := s, replaced := count } =
      (e.edit (editor naming s),
        { scope := s, replaced := count + (e.notes (editor naming s) (notes s)).length }) := by
  have h := (reviser_follows naming count fun s => ⟨fun _ => rfl, fun _ _ => rfl⟩).run_expr s 0 e []
  simpa only [List.length_nil, Nat.add_zero, List.nil_append] using h

/--
Revision makes every access of an expression through accessors, wherever it stands, counts each of
them once and keeps the rest; to revise the result again changes nothing and counts nothing.
-/
theorem revise_accesses (naming : Naming) (s : Scope) (e : Expr) (count : Nat)
    (hplaces : e.WritesPlaces) : ∃ e',
      (e.revise (reviser naming)).run { scope := s, replaced := count } =
        (e', { scope := s, replaced := count + e.accessCount s }) ∧
      e'.accessCount s = 0 ∧ AccessorForm naming s e e' ∧
      ∀ later, (e'.revise (reviser naming)).run { scope := s, replaced := later } =
        (e', { scope := s, replaced := later }) := by
  have hform : AccessorForm naming s e (e.edit (editor naming s)) := accessorForm_edit e hplaces
  have hzero := hform.accessCount_eq_zero
  have hplaces' := hform.writesPlaces hplaces
  refine ⟨e.edit (editor naming s), ?_, hzero, hform, fun later => ?_⟩
  · rw [run_expr, length_notes e hplaces]
  · rw [run_expr, length_notes _ hplaces', hzero, Nat.add_zero,
      (accessorForm_edit _ hplaces').eq_self hzero]

/-- Inside a method with a variable of a type whose two versions have a public field. -/
def tankScope : Scope :=
  let tank (name : String) : CompilationUnit :=
    { types := [{ name, members := [.field (.single .pub (.plain "int") "level")] }] }
  let pour : MethodDecl :=
    { returnType := .void, name := "pour", params := [{ ty := .plain "Tank", name := "t" }] }
  let main : CompilationUnit := { types := [{ name := "Main", members := [.method pour] }] }
  let table := SymbolTable.build .standard [tank "Tank__1__", tank "Tank__2__", main]
  (Scope.enterType { table, marker := .standard } "Main").enterMethod pour

/-- The assignment `t.level += f(x = t.level, -t.level, t.level++)`. -/
def pouring : Expr :=
  let level : Expr := .field (.ident "t") "level"
  .assign level .add (.call none "f"
    [.set (.ident "x") level, .unary .neg level, .unary .postInc level])

theorem revise_accesses_pouring :
    tankScope.method?.isSome = true ∧ pouring.accessCount tankScope = 4 ∧ ∃ e',
      (pouring.revise (reviser {})).run { scope := tankScope, replaced := 0 } =
        (e', { scope := tankScope, replaced := 0 + pouring.accessCount tankScope }) ∧
      e'.accessCount tankScope = 0 ∧ AccessorForm {} tankScope pouring e' ∧
      ∀ later, (e'.revise (reviser {})).run { scope := tankScope, replaced := later } =
        (e', { scope := tankScope, replaced := later }) :=
  ⟨by decide +kernel, by decide +kernel,
    revise_accesses {} tankScope pouring 0 (by decide +kernel)⟩

end FieldAccess

end VersionWeave
