import VersionWeave.Proofs.Batch.Revised
import VersionWeave.Proofs.Reordered

namespace VersionWeave

/-- Two scopes that stand at the same place over alike tables. -/
structure Scope.Alike (s s' : Scope) : Prop where
  marker : s.marker = s'.marker
  table : s.table.Alike s'.table
  owner : Option.Rel ClassInfo.Alike s.enclosing.1 s'.enclosing.1
  version : s.enclosing.2 = s'.enclosing.2
  method : s.method? = s'.method?

namespace Scope.Alike

variable {s s' : Scope} (h : s.Alike s')
include h

theorem enterType (name : String) : (s.enterType name).Alike (s'.enterType name) where
  marker := h.marker
  table := h.table
  owner := by
    change Option.Rel _ (s.table.get? (s.marker.parse name).base) _
    rw [h.marker]
    exact h.table _
  version := by
    change (s.marker.parse name).version = (s'.marker.parse name).version
    rw [h.marker]
  method := rfl

theorem enterMethod (m : MethodDecl) : (s.enterMethod m).Alike (s'.enterMethod m) where
  marker := h.marker
  table := h.table
  owner := h.owner
  version := h.version
  method := by
    change s.enclosing.1.bind (fun c => c.findMethod? m.name (signatureTypes s.marker m.params)
      s.enclosing.2) = s'.enclosing.1.bind fun c =>
        c.findMethod? m.name (signatureTypes s'.marker m.params) s'.enclosing.2
    rw [h.marker, h.version]
    have howner := h.owner
    generalize s.enclosing.1 = c at howner ⊢
    generalize s'.enclosing.1 = c' at howner ⊢
    cases howner with
    | none => rfl
    | some hc => exact hc.findMethod?_eq _ _ _

theorem enterConstructor : s.enterConstructor.Alike s'.enterConstructor where
  marker := h.marker
  table := h.table
  owner := h.owner
  version := h.version
  method := rfl

theorem variableType? (name : String) : s.variableType? name = s'.variableType? name := by
  rw [Scope.variableType?, Scope.variableType?, h.method]

theorem versionedClass? (name : String) :
    Option.Rel ClassInfo.Alike (s.versionedClass? name) (s'.versionedClass? name) := by
  rw [Scope.versionedClass?, Scope.versionedClass?, h.variableType?]
  cases s'.variableType? name with
  | none => exact .none
  | some declared =>
    rw [Option.bind_some, Option.bind_some, h.marker]
    exact h.table.versioned? _

theorem argumentType (e : Expr) : s.argumentType e = s'.argumentType e := by
  cases e with
  | ident n => rw [Scope.argumentType, Scope.argumentType, h.variableType?]
  | _ => rfl

/-- A call that can mean one declaration means the same one. -/
theorem target? (receiver : Option Expr) (name : String) (args : List Expr) :
    s.target? receiver name args = s'.target? receiver name args := by
  have htypes : args.map s.argumentType = args.map s'.argumentType :=
    List.map_congr_left fun e _ => h.argumentType e
  unfold Scope.target?
  cases receiver.bind Expr.ident? with
  | none => rfl
  | some v =>
    have hclass := h.versionedClass? v
    simp only [Option.bind_eq_bind, Option.bind_some, htypes]
    generalize s.versionedClass? v = c at hclass ⊢
    generalize s'.versionedClass? v = c' at hclass ⊢
    cases hclass with
    | none => rfl
    | @some c c' hc =>
      have hperm := ((hc.methods name).filter
        fun m => m.parameterTypes = args.map s'.argumentType).perm
      simp only [Option.bind_some]
      generalize (c.methodsNamed name).filter _ = found at hperm ⊢
      generalize (c'.methodsNamed name).filter _ = found' at hperm ⊢
      match found, found', hperm with
      | [], found', hperm => rw [hperm.nil_eq]
      | [m], found', hperm => rw [List.perm_singleton.mp hperm.symm]
      | _ :: _ :: _, [], hperm => exact absurd hperm.length_eq (by simp)
      | _ :: _ :: _, [_], hperm => exact absurd hperm.length_eq (by simp)
      | _ :: _ :: _, _ :: _ :: _, _ => rfl

theorem accessed? (e : Expr) : s.accessed? e = s'.accessed? e := by
  unfold Scope.accessed?
  split
  next v name =>
    have hclass := h.versionedClass? v
    generalize s.versionedClass? v = c at hclass ⊢
    generalize s'.versionedClass? v = c' at hclass ⊢
    cases hclass with
    | none => rfl
    | some hc => simp only [Option.bind_some, hc.accessorOwner?_eq name]
  next => rfl

theorem pin? (x : Stmt) : Pinning.pin? s x = Pinning.pin? s' x := by
  unfold Pinning.pin?
  cases x.call? with
  | none => rfl
  | some c => simp only [Option.bind_eq_bind, Option.bind_some, h.target?]

theorem pinningEditor (naming : Naming) : Pinning.editor naming s = Pinning.editor naming s' := by
  have hpin : Pinning.pin? s = Pinning.pin? s' := funext h.pin?
  simp only [Pinning.editor, h.marker, hpin]

theorem replacedAccess? (e : Expr) :
    FieldAccess.replacedAccess? s e = FieldAccess.replacedAccess? s' e := by
  cases e <;> simp only [FieldAccess.replacedAccess?, h.accessed?]

theorem accessEditor (naming : Naming) :
    FieldAccess.editor naming s = FieldAccess.editor naming s' := by
  have hreplacement : FieldAccess.replacement? naming s = FieldAccess.replacement? naming s' := by
    funext e
    cases e <;> simp only [FieldAccess.replacement?, h.accessed?]
  simp only [FieldAccess.editor, hreplacement]

end Scope.Alike

/-- What depends on nothing in which alike scopes differ. -/
def Scope.Even {α : Type} (f : Scope → α) : Prop := ∀ s s', s.Alike s' → f s = f s'

section

variable {ι : Type} {ed : Scope → Editor} {notes : Scope → Notes ι}

mutual

theorem Member.edit_alike (hed : Scope.Even ed) : ∀ (m : Member) {s s' : Scope}, s.Alike s' →
    m.edit ed s = m.edit ed s'
  | .field _, s, s', h => by rw [Member.edit, Member.edit, hed s s' h]
  | .method m, _, _, h => by rw [Member.edit, Member.edit, hed _ _ (h.enterMethod m)]
  | .constructor _, _, _, h => by rw [Member.edit, Member.edit, hed _ _ h.enterConstructor]
  | .type t, _, _, h => by rw [Member.edit, Member.edit, TypeDecl.edit_alike hed t h]

theorem TypeDecl.edit_alike (hed : Scope.Even ed) : ∀ (t : TypeDecl) {s s' : Scope}, s.Alike s' →
    t.edit ed s = t.edit ed s'
  | ⟨_, _, name, _, _, members⟩, _, _, h => by
    rw [TypeDecl.edit, TypeDecl.edit, hed _ _ (h.enterType name),
      Member.editAll_alike hed members (h.enterType name)]

theorem Member.editAll_alike (hed : Scope.Even ed) : ∀ (ms : List Member) {s s' : Scope},
    s.Alike s' → Member.editAll ed s ms = Member.editAll ed s' ms
  | [], _, _, _ => rfl
  | m :: rest, _, _, h => by
    rw [Member.editAll, Member.editAll, Member.edit_alike hed m h, Member.editAll_alike hed rest h]

end

mutual

theorem Member.notes_alike (hed : Scope.Even ed) (hnotes : Scope.Even notes) :
    ∀ (m : Member) {s s' : Scope}, s.Alike s' → m.notes ed notes s = m.notes ed notes s'
  | .field _, s, s', h => by rw [Member.notes, Member.notes, hed s s' h, hnotes s s' h]
  | .method m, _, _, h => by
    rw [Member.notes, Member.notes, hed _ _ (h.enterMethod m), hnotes _ _ (h.enterMethod m)]
  | .constructor _, _, _, h => by
    rw [Member.notes, Member.notes, hed _ _ h.enterConstructor, hnotes _ _ h.enterConstructor]
  | .type t, _, _, h => by rw [Member.notes, Member.notes, TypeDecl.notes_alike hed hnotes t h]

theorem TypeDecl.notes_alike (hed : Scope.Even ed) (hnotes : Scope.Even notes) :
    ∀ (t : TypeDecl) {s s' : Scope}, s.Alike s' → t.notes ed notes s = t.notes ed notes s'
  | ⟨_, _, name, _, _, members⟩, _, _, h => by
    rw [TypeDecl.notes, TypeDecl.notes, Member.allNotes_alike hed hnotes members (h.enterType name)]

theorem Member.allNotes_alike (hed : Scope.Even ed) (hnotes : Scope.Even notes) :
    ∀ (ms : List Member) {s s' : Scope}, s.Alike s' →
      Member.allNotes ed notes s ms = Member.allNotes ed notes s' ms
  | [], _, _, _ => rfl
  | m :: rest, _, _, h => by
    rw [Member.allNotes, Member.allNotes, Member.notes_alike hed hnotes m h,
      Member.allNotes_alike hed hnotes rest h]

end

theorem CompilationUnit.notes_alike (hed : Scope.Even ed) (hnotes : Scope.Even notes)
    (u : CompilationUnit) {s s' : Scope} (h : s.Alike s') :
    u.notes ed notes s = u.notes ed notes s' := by
  have htypes : TypeDecl.notes ed notes s = TypeDecl.notes ed notes s' :=
    funext fun t => TypeDecl.notes_alike hed hnotes t h
  rw [CompilationUnit.notes, CompilationUnit.notes, htypes]

end

theorem Scope.Alike.length_pins {s s' : Scope} (h : s.Alike s') (naming : Naming)
    (u : CompilationUnit) :
    (Pinning.pins naming s u).length = (Pinning.pins naming s' u).length := by
  -- a pin says in which scope it stands; a tally of what is pinned does not
  let tally (s : Scope) : Notes Unit := { stmt := fun _ x => (Pinning.pin? s x).toList.map fun _ => () }
  have htally : ∀ s, (tally s).Tallies (Pinning.notes s) := fun s =>
    ⟨fun _ => rfl, fun _ _ => by simp [tally, Pinning.notes]⟩
  rw [Pinning.length_pins naming htally, Pinning.length_pins naming htally,
    CompilationUnit.notes_alike (fun _ _ h => h.pinningEditor naming) (fun s s' h => ?_) u h]
  simp only [tally, h.pin?]

theorem Scope.Alike.length_accesses {s s' : Scope} (h : s.Alike s') (naming : Naming)
    (u : CompilationUnit) :
    (FieldAccess.accesses naming s u).length = (FieldAccess.accesses naming s' u).length := by
  let tally (s : Scope) : Notes Unit :=
    { expr := fun e => (FieldAccess.replacedAccess? s e).toList.map fun _ => () }
  have htally : ∀ s, (tally s).Tallies (FieldAccess.notes s) := fun s =>
    ⟨fun _ => by simp [tally, FieldAccess.notes], fun _ _ => rfl⟩
  rw [FieldAccess.length_accesses naming htally, FieldAccess.length_accesses naming htally,
    CompilationUnit.notes_alike (fun _ _ h => h.accessEditor naming) (fun s s' h => ?_) u h]
  simp only [tally, h.replacedAccess?]

namespace Weaver

variable (w : Weaver) {table table' : SymbolTable} (h : table.Alike table')
include h

theorem scope_alike : (w.scope table).Alike (w.scope table') := ⟨rfl, h, .none, rfl, rfl⟩

/-- Over alike tables a declaration is revised alike. -/
theorem reviseType_alike (t : TypeDecl) : w.reviseType table t = w.reviseType table' t := by
  have hscope := w.scope_alike h
  rw [reviseType, reviseType,
    TypeDecl.edit_alike (fun _ _ h => h.pinningEditor w.options.naming) t hscope,
    TypeDecl.edit_alike (fun _ _ h => h.accessEditor w.options.naming) _ hscope]

theorem reviseUnit_alike (u : CompilationUnit) : w.reviseUnit table u = w.reviseUnit table' u := by
  have hscope := w.scope_alike h
  have hpinned : u.edit (Pinning.editor w.options.naming) (w.scope table) =
      u.edit (Pinning.editor w.options.naming) (w.scope table') := by
    rw [CompilationUnit.edit, CompilationUnit.edit]
    exact congrArg (fun types => { u with types }) (List.map_congr_left fun t _ =>
      TypeDecl.edit_alike (fun _ _ h => h.pinningEditor w.options.naming) t hscope)
  refine Prod.ext ?_ ?_
  · rw [reviseUnit_fst, reviseUnit_fst, funext (w.reviseType_alike h)]
  · rw [reviseUnit_snd, reviseUnit_snd, hpinned, hscope.length_pins, hscope.length_accesses]

end Weaver

end VersionWeave
