import VersionWeave.Proofs.FieldAccess.Run

namespace VersionWeave

/-- The receiver is a variable of a versioned type, and the field has accessors there. -/
def Scope.reaches (s : Scope) (receiver : Expr) (field : String) : Bool :=
  ((receiver.ident?.bind s.versionedClass?).bind (·.accessorOwner? field)).isSome

/-- What can be written to: a name or a field. -/
def Expr.isPlace : Expr → Bool
  | .ident _ | .field _ _ => true
  | _ => false

namespace FieldAccess

variable {naming : Naming} {s : Scope}

theorem accessed?_field (receiver : Expr) (field : String) :
    s.accessed? (.field receiver field) =
      if s.reaches receiver field then some (receiver, field) else none := by
  cases receiver with
  | ident v =>
    cases h : (s.versionedClass? v).bind (·.accessorOwner? field) <;>
      simp [Scope.accessed?, Scope.reaches, Expr.ident?, h]
  | _ => rfl

/-- An access that is found is a field that is reached, and nothing else is. -/
theorem accessed?_eq_some_iff {e receiver : Expr} {field : String} :
    s.accessed? e = some (receiver, field) ↔
      e = .field receiver field ∧ s.reaches receiver field = true := by
  cases e with
  | field r f =>
    rw [accessed?_field, Option.ite_none_right_eq_some, Option.some.injEq, Prod.mk.injEq,
      Expr.field.injEq]
    constructor
    · rintro ⟨h, rfl, rfl⟩
      exact ⟨⟨rfl, rfl⟩, h⟩
    · rintro ⟨⟨rfl, rfl⟩, h⟩
      exact ⟨h, rfl, rfl⟩
  | _ => simp [Scope.accessed?]

theorem not_reaches_of_accessed? {e : Expr} (h : s.accessed? e = none) (receiver : Expr)
    (field : String) (he : e = .field receiver field) : s.reaches receiver field = false := by
  rw [he, accessed?_field] at h
  exact Bool.eq_false_iff.mpr fun hr => by rw [if_pos hr] at h; cases h

theorem exists_ident_of_reaches {receiver : Expr} {field : String}
    (h : s.reaches receiver field = true) : ∃ v, receiver = .ident v := by
  cases receiver with
  | ident v => exact ⟨v, rfl⟩
  | _ => cases h

/-- What a write sets, told the value it is written with. -/
def newValue (naming : Naming) (receiver : Expr) (field : String) (op : AssignOp) (value : Expr) :
    Expr :=
  match op.binaryOp? with
  | none => value
  | some op => .binary op (getterCall naming receiver field) value

/-! What becomes of an expression once its parts are done. -/

theorem editor_field (receiver : Expr) (field : String) :
    (editor naming s).expr (.field receiver field) =
      if s.reaches receiver field then getterCall naming receiver field
      else .field receiver field := by
  simp only [editor, replacement?, accessed?_field]
  cases s.reaches receiver field <;> rfl

theorem editor_assign_of_none {target : Expr} (h : s.accessed? target = none) (op : AssignOp)
    (value : Expr) : (editor naming s).expr (.assign target op value) = .assign target op value := by
  simp only [editor, replacement?, h, Option.map_none, Option.getD_none]

theorem editor_assign_field {receiver : Expr} {field : String}
    (h : s.reaches receiver field = true) (op : AssignOp) (value : Expr) :
    (editor naming s).expr (.assign (.field receiver field) op value) =
      setterCall naming receiver field (newValue naming receiver field op value) := by
  simp only [editor, replacement?, accessed?_field, h, if_true, Option.map_some, Option.getD_some]
  rfl

theorem editor_unary_of_none {operand : Expr} (h : s.accessed? operand = none) (op : UnaryOp) :
    (editor naming s).expr (.unary op operand) = .unary op operand := by
  cases op <;> simp [editor, replacement?, stepOp?, h]

theorem editor_unary_read {op : UnaryOp} (h : op.writes = false) (operand : Expr) :
    (editor naming s).expr (.unary op operand) = .unary op operand := by
  cases op with
  | neg | not => rfl
  | _ => cases h

theorem editor_unary_field {receiver : Expr} {field : String} {op : UnaryOp} {step : BinaryOp}
    (h : s.reaches receiver field = true) (hstep : stepOp? op = some step) :
    (editor naming s).expr (.unary op (.field receiver field)) =
      setterCall naming receiver field
        (.binary step (getterCall naming receiver field) (.int 1)) := by
  simp only [editor, replacement?, accessed?_field, h, hstep, if_true, Option.map_some,
    Option.bind_some, Option.getD_some]

theorem exists_stepOp? {op : UnaryOp} (h : op.writes = true) : ∃ step, stepOp? op = some step := by
  cases op with
  | neg | not => cases h
  | preInc | postInc => exact ⟨.add, rfl⟩
  | preDec | postDec => exact ⟨.sub, rfl⟩

/-- Nothing turns into a name, and a name stays what it is. -/
theorem ident?_editor (e : Expr) : ((editor naming s).expr e).ident? = e.ident? := by
  cases e with
  | field receiver field => rw [editor_field]; cases s.reaches receiver field <;> rfl
  | assign target op value =>
    cases h : s.accessed? target with
    | none => rw [editor_assign_of_none h]
    | some a =>
      obtain ⟨rfl, ha⟩ := accessed?_eq_some_iff.mp h
      rw [editor_assign_field ha]
      rfl
  | unary op operand =>
    cases hw : op.writes with
    | false => rw [editor_unary_read hw]
    | true =>
      obtain ⟨step, hstep⟩ := exists_stepOp? hw
      cases h : s.accessed? operand with
      | none => rw [editor_unary_of_none h]
      | some a =>
        obtain ⟨rfl, ha⟩ := accessed?_eq_some_iff.mp h
        rw [editor_unary_field ha hstep]
        rfl
  | _ => rfl

theorem ident?_edit (e : Expr) : (e.edit (editor naming s)).ident? = e.ident? := by
  rw [Expr.edit, ident?_editor]
  cases e <;> rfl

theorem reaches_edit (receiver : Expr) (field : String) :
    s.reaches (receiver.edit (editor naming s)) field = s.reaches receiver field := by
  rw [Scope.reaches, ident?_edit, Scope.reaches]

theorem edit_of_reaches {receiver : Expr} {field : String} (h : s.reaches receiver field = true) :
    receiver.edit (editor naming s) = receiver := by
  obtain ⟨v, rfl⟩ := exists_ident_of_reaches h
  rfl

/-- An access is found after its parts are done exactly where it was found before. -/
theorem accessed?_editParts (e : Expr) :
    s.accessed? (e.editParts (editor naming s)) = s.accessed? e := by
  cases e with
  | field receiver field =>
    change s.accessed? (.field (receiver.edit (editor naming s)) field) = _
    rw [accessed?_field, accessed?_field, reaches_edit]
    cases h : s.reaches receiver field with
    | false => rfl
    | true => rw [edit_of_reaches h]
  | _ => rfl

/-! What becomes of a whole expression: the accesses give way, and the rest is kept. -/

theorem length_editAll (es : List Expr) :
    (Expr.editAll (editor naming s) es).length = es.length := by
  induction es with
  | nil => rfl
  | cons e rest ih => rw [Expr.editAll, List.length_cons, ih, List.length_cons]

section

variable {receiver target operand : Expr} {field : String}

theorem edit_read (h : s.reaches receiver field = true) :
    (Expr.field receiver field).edit (editor naming s) = getterCall naming receiver field := by
  change (editor naming s).expr (.field (receiver.edit (editor naming s)) field) = _
  rw [edit_of_reaches h, editor_field, if_pos h]

theorem edit_field (h : s.reaches receiver field = false) :
    (Expr.field receiver field).edit (editor naming s) =
      .field (receiver.edit (editor naming s)) field := by
  change (editor naming s).expr (.field (receiver.edit (editor naming s)) field) = _
  rw [editor_field, reaches_edit, h]
  rfl

theorem edit_write (h : s.reaches receiver field = true) (op : AssignOp) (value : Expr) :
    (Expr.assign (.field receiver field) op value).edit (editor naming s) =
      setterCall naming receiver field
        (newValue naming receiver field op (value.edit (editor naming s))) := by
  change (editor naming s).expr
    (.assign (.field (receiver.edit (editor naming s)) field) op (value.edit (editor naming s))) = _
  rw [edit_of_reaches h, editor_assign_field h]

theorem edit_assign (h : s.accessed? target = none) (op : AssignOp) (value : Expr) :
    (Expr.assign target op value).edit (editor naming s) =
      .assign (target.editParts (editor naming s)) op (value.edit (editor naming s)) :=
  editor_assign_of_none ((accessed?_editParts target).trans h) op _

theorem edit_step {op : UnaryOp} {step : BinaryOp} (h : s.reaches receiver field = true)
    (hstep : stepOp? op = some step) :
    (Expr.unary op (.field receiver field)).edit (editor naming s) =
      setterCall naming receiver field
        (.binary step (getterCall naming receiver field) (.int 1)) := by
  have hw : op.writes = true := by cases op <;> first | rfl | cases hstep
  rw [Expr.edit, Expr.editParts, if_pos hw]
  change (editor naming s).expr (.unary op (.field (receiver.edit (editor naming s)) field)) = _
  rw [edit_of_reaches h, editor_unary_field h hstep]

theorem edit_unary_place {op : UnaryOp} (hw : op.writes = true) (h : s.accessed? operand = none) :
    (Expr.unary op operand).edit (editor naming s) =
      .unary op (operand.editParts (editor naming s)) := by
  rw [Expr.edit, Expr.editParts, if_pos hw]
  exact editor_unary_of_none ((accessed?_editParts operand).trans h) op

theorem edit_unary_value {op : UnaryOp} (hw : op.writes = false) (operand : Expr) :
    (Expr.unary op operand).edit (editor naming s) =
      .unary op (operand.edit (editor naming s)) := by
  rw [Expr.edit, Expr.editParts, hw]
  exact editor_unary_read hw _

/-- A place that has no accessors is kept, with its parts done. -/
theorem edit_of_isPlace (hplace : target.isPlace = true) (h : s.accessed? target = none) :
    target.edit (editor naming s) = target.editParts (editor naming s) := by
  cases target with
  | ident n => rfl
  | field receiver field => exact edit_field (not_reaches_of_accessed? h receiver field rfl)
  | _ => cases hplace

end

end FieldAccess

end VersionWeave
