import VersionWeave.Proofs.Batch.Revised
import VersionWeave.Proofs.FieldAccess.Owner
import VersionWeave.Proofs.Tree.Scopes

namespace VersionWeave

/-- The name of the type carries no ordinal. -/
def TypeRef.Unmarked (marker : Marker) (t : TypeRef) : Prop :=
  marker.isVersioned t.name = false

/-- The base name of the type carries no ordinal of its own. -/
def TypeRef.OnceMarked (marker : Marker) (t : TypeRef) : Prop :=
  marker.isVersioned (marker.baseName t.name) = false

instance (marker : Marker) : DecidablePred (TypeRef.Unmarked marker) := fun _ =>
  inferInstanceAs (Decidable (_ = false))

instance (marker : Marker) : DecidablePred (TypeRef.OnceMarked marker) := fun _ =>
  inferInstanceAs (Decidable (_ = false))

section

variable {marker : Marker}

mutual

theorem TypeRef.normalize_eq_self : ∀ t : TypeRef, t.outline.Types (TypeRef.Unmarked marker) →
    t.normalize marker = t
  | ⟨name, args, dims⟩, h => by
    obtain ⟨hargs, hname⟩ := (TypeRef.types_outline name args dims).mp h
    rw [TypeRef.normalize, Marker.baseName_of_not_versioned hname,
      TypeRef.normalizeAll_eq_self args hargs]

theorem TypeRef.normalizeAll_eq_self : ∀ ts : List TypeRef,
    Outline.AllTypes (TypeRef.Unmarked marker) (TypeRef.outlines ts) →
      TypeRef.normalizeAll marker ts = ts
  | [], _ => rfl
  | t :: rest, h => by
    simp only [TypeRef.outlines, Outline.allTypes_cons] at h
    rw [TypeRef.normalizeAll, TypeRef.normalize_eq_self t h.1, TypeRef.normalizeAll_eq_self rest h.2]

end

mutual

/-- One layer of marks comes off everywhere in a type. -/
theorem TypeRef.types_normalize : ∀ t : TypeRef, t.outline.Types (TypeRef.OnceMarked marker) →
    (t.normalize marker).outline.Types (TypeRef.Unmarked marker)
  | ⟨name, args, dims⟩, h => by
    obtain ⟨hargs, hname⟩ := (TypeRef.types_outline name args dims).mp h
    exact (TypeRef.types_outline _ _ dims).mpr ⟨TypeRef.types_normalizeAll args hargs, hname⟩

theorem TypeRef.types_normalizeAll : ∀ ts : List TypeRef,
    Outline.AllTypes (TypeRef.OnceMarked marker) (TypeRef.outlines ts) →
      Outline.AllTypes (TypeRef.Unmarked marker) (TypeRef.outlines (TypeRef.normalizeAll marker ts))
  | [], _ => Outline.allTypes_nil
  | t :: rest, h => by
    simp only [TypeRef.outlines, Outline.allTypes_cons] at h
    simp only [TypeRef.normalizeAll, TypeRef.outlines, Outline.allTypes_cons]
    exact ⟨TypeRef.types_normalize t h.1, TypeRef.types_normalizeAll rest h.2⟩

end

end

/-- No variable in the scope belongs to a versioned class. -/
def Scope.Plain (s : Scope) : Prop := ∀ v, s.versionedClass? v = none

namespace Pinning

variable {naming : Naming} {s : Scope}

theorem pin?_of_plain (hs : s.Plain) (x : Stmt) : pin? s x = none := by
  cases hp : pin? s x with
  | none => rfl
  | some p =>
    obtain ⟨v, name, args, m, -, -, htarget, -⟩ := pin?_eq_some_iff.mp hp
    simp [Scope.target?, Expr.ident?, hs v] at htarget

theorem editor_inert (hs : s.Plain) :
    (editor naming s).Inert (TypeRef.Unmarked s.marker) where
  type := TypeRef.normalize_eq_self
  expr _ := rfl
  stmt h x := editor_stmt_of_none (pin?_of_plain hs x) h

/-- Pinning takes the marks off the types and puts in calls, which hold none. -/
theorem editor_carries (naming : Naming) (s : Scope) :
    (editor naming s).Carries (TypeRef.OnceMarked s.marker) (TypeRef.Unmarked s.marker) where
  type := TypeRef.types_normalize
  expr _ h := h
  stmt h x hx := by
    cases hp : pin? s x with
    | none => simpa [editor_stmt_of_none hp, Edit.toList, Stmt.outlines] using hx
    | some p =>
      obtain ⟨r, n⟩ := p
      obtain ⟨v, name, args, m, rfl, rfl, -, -⟩ := pin?_eq_some_iff.mp hp
      have hboth : Outline.AllTypes (TypeRef.Unmarked s.marker)
          (Stmt.outlines [.expr (naming.switchCall (.ident v) n),
            .expr (.call (some (.ident v)) name args)]) := by
        refine (Outline.allTypes_cons _ _).mpr
          ⟨?_, (Outline.allTypes_cons _ _).mpr ⟨hx, Outline.allTypes_nil⟩⟩
        simp [Naming.switchCall, Expr.callOn, Expr.int, Stmt.outline, Expr.outline,
          Expr.optionOutline, Expr.outlines, Node.OnType]
      cases h with
      | zero =>
        rw [editor_stmt_zero hp]
        refine (Outline.allTypes_cons _ _).mpr ⟨?_, Outline.allTypes_nil⟩
        simpa [Stmt.outline, Stmt.outlines, Node.OnType] using hboth
      | succ h =>
        rw [editor_stmt_succ hp]
        exact hboth

theorem notes_of_plain (hs : s.Plain) : (notes s).All fun _ => False where
  expr _ := by simp [notes]
  stmt _ x := by simp [notes, pin?_of_plain hs x]

end Pinning

namespace FieldAccess

variable {naming : Naming} {s : Scope}

theorem replacedAccess?_of_plain (hs : s.Plain) (e : Expr) : replacedAccess? s e = none := by
  cases hr : replacedAccess? s e with
  | none => rfl
  | some a =>
    obtain ⟨receiver, field⟩ := a
    obtain ⟨v, c, best, -, hc, -⟩ := exists_of_replacedAccess? hr
    cases (hs v).symm.trans hc

theorem editor_inert (hs : s.Plain) (P : TypeRef → Prop) : (editor naming s).Inert P where
  type _ _ := rfl
  expr e := by
    have hsome := replacement?_isSome naming s e
    rw [replacedAccess?_of_plain hs e, Option.isSome_none, Option.isSome_eq_false_iff,
      Option.isNone_iff_eq_none] at hsome
    simp [editor, hsome]
  stmt _ _ := rfl

/-- What takes the place of an access holds the types that were there, and no others. -/
theorem types_replacement? {Q : TypeRef → Prop} {e e' : Expr}
    (h : replacement? naming s e = some e') (he : e.outline.Types Q) : e'.outline.Types Q := by
  have hreceiver : ∀ {target receiver : Expr} {name : String},
      s.accessed? target = some (receiver, name) → receiver.outline.Types Q := by
    intro target receiver name ha
    obtain ⟨v, c, best, rfl, -, -⟩ := accessed?_eq_some ha
    simp [Expr.outline, Node.OnType]
  unfold replacement? at h
  split at h
  next target op value =>
    obtain ⟨⟨receiver, name⟩, ha, rfl⟩ := Option.map_eq_some_iff.mp h
    simp only [Expr.outline, Outline.types_node, Outline.allTypes_cons] at he
    have hr := hreceiver ha
    cases op.binaryOp? <;>
      simp [setterCall, getterCall, Expr.callOn, Expr.outline, Expr.optionOutline, Expr.outlines,
        Node.OnType, hr, he.1.2.1]
  next op operand =>
    obtain ⟨step, -, h⟩ := Option.bind_eq_some_iff.mp h
    obtain ⟨⟨receiver, name⟩, ha, rfl⟩ := Option.map_eq_some_iff.mp h
    simp [setterCall, getterCall, Expr.callOn, Expr.int, Expr.outline, Expr.optionOutline,
      Expr.outlines, Node.OnType, hreceiver ha]
  next =>
    obtain ⟨⟨receiver, name⟩, ha, rfl⟩ := Option.map_eq_some_iff.mp h
    simp [getterCall, Expr.callOn, Expr.outline, Expr.optionOutline, Expr.outlines, Node.OnType,
      hreceiver ha]

theorem editor_carries (naming : Naming) (s : Scope) (Q : TypeRef → Prop) :
    (editor naming s).Carries Q Q where
  type _ h := h
  expr e he := by
    cases hr : replacement? naming s e with
    | none => simpa [editor, hr] using he
    | some e' => simpa [editor, hr] using types_replacement? hr he
  stmt _ x hx := by simpa [editor, Edit.toList, Stmt.outlines] using hx

theorem notes_of_plain (hs : s.Plain) : (notes s).All fun _ => False where
  expr e := by simp [notes, replacedAccess?_of_plain hs e]
  stmt _ _ := by simp [notes]

end FieldAccess

namespace Weaver

variable (w : Weaver) (table : SymbolTable)

theorem over_scope : (w.scope table).Over table w.marker := ⟨rfl, rfl⟩

variable {w table}

/-- Revision does not touch a unit without marks in which no variable is of a versioned type. -/
theorem reviseUnit_eq_self {u : CompilationUnit}
    (hs : ∀ s ∈ u.scopes (w.scope table), s.Plain)
    (hu : u.outline.Types (TypeRef.Unmarked w.marker)) : (w.reviseUnit table u).1 = u := by
  have hpin : u.edit (Pinning.editor w.options.naming) (w.scope table) = u := by
    refine CompilationUnit.edit_inert (P := TypeRef.Unmarked w.marker) (fun s hs' => ?_) hu
    have hover := u.scopes_over (w.over_scope table) s hs'
    exact hover.marker ▸ Pinning.editor_inert (hs s hs')
  have hreplace : u.edit (FieldAccess.editor w.options.naming) (w.scope table) = u :=
    CompilationUnit.edit_inert (fun s hs' => FieldAccess.editor_inert (hs s hs') _) hu
  have hpinned := Pinning.run_reviser w.options.naming u (w.scope table) 0
  have hreplaced := FieldAccess.run_reviser w.options.naming u (w.scope table) 0
  simp only [scope] at hpin hreplace hpinned hreplaced
  simp only [reviseUnit, pinUnit, replaceAccesses, hpinned, hpin, hreplaced, hreplace]

/-- After revision no type in a unit carries a mark, if there was one layer of marks at most. -/
theorem types_reviseType {t : TypeDecl} (ht : t.outline.Types (TypeRef.OnceMarked w.marker)) :
    (w.reviseType table t).outline.Types (TypeRef.Unmarked w.marker) := by
  have hpin : (t.edit (Pinning.editor w.options.naming) (w.scope table)).outline.Types
      (TypeRef.Unmarked w.marker) := by
    refine TypeDecl.types_edit t (fun s hs => ?_) ht
    have hover := t.scopes_over (w.over_scope table) s hs
    exact hover.marker ▸ Pinning.editor_carries w.options.naming s
  exact TypeDecl.types_edit _ (fun s _ => FieldAccess.editor_carries w.options.naming s _) hpin

end Weaver

end VersionWeave
