import VersionWeave.Batch
import VersionWeave.Proofs.FieldAccess.Run
import VersionWeave.Proofs.Pinning.Run
import VersionWeave.Proofs.Tree.Declared
import VersionWeave.Proofs.Version

namespace VersionWeave

namespace Weaver

variable (w : Weaver) (table : SymbolTable)

/-- The scope in which the revision of every unit starts. -/
def scope : Scope := { table, marker := w.marker }

def reviseType (t : TypeDecl) : TypeDecl :=
  (t.edit (Pinning.editor w.options.naming) (w.scope table)).edit
    (FieldAccess.editor w.options.naming) (w.scope table)

theorem pinUnit_fst (u : CompilationUnit) :
    (w.pinUnit table u).1 = u.edit (Pinning.editor w.options.naming) (w.scope table) :=
  congrArg Prod.fst (Pinning.run_reviser w.options.naming u (w.scope table) 0)

theorem reviseUnit_fst (u : CompilationUnit) :
    (w.reviseUnit table u).1 = { u with types := u.types.map (w.reviseType table) } := by
  have hpin := Pinning.run_reviser w.options.naming u (w.scope table) 0
  have hreplace := FieldAccess.run_reviser w.options.naming
    (u.edit (Pinning.editor w.options.naming) (w.scope table)) (w.scope table) 0
  simp only [scope] at hpin hreplace
  simp only [reviseUnit, pinUnit, replaceAccesses, hpin, hreplace]
  simp [CompilationUnit.edit, Function.comp_def, reviseType, scope]

/-- The counters of a unit: the switch calls put in, then the accesses replaced in what came out. -/
theorem reviseUnit_snd (u : CompilationUnit) : (w.reviseUnit table u).2 =
    { pinnedCalls := (Pinning.pins w.options.naming (w.scope table) u).length
      replacedAccesses := (FieldAccess.accesses w.options.naming (w.scope table)
        (u.edit (Pinning.editor w.options.naming) (w.scope table))).length } := by
  have hpin := Pinning.run_reviser w.options.naming u (w.scope table) 0
  have hreplace := FieldAccess.run_reviser w.options.naming
    (u.edit (Pinning.editor w.options.naming) (w.scope table)) (w.scope table) 0
  simp only [scope] at hpin hreplace
  simp only [reviseUnit, pinUnit, replaceAccesses, hpin, hreplace, Nat.zero_add, scope]

@[simp] theorem name_reviseType (t : TypeDecl) : (w.reviseType table t).name = t.name := by
  simp [reviseType]

@[simp] theorem modifiers_reviseType (t : TypeDecl) :
    (w.reviseType table t).modifiers = t.modifiers := by
  simp [reviseType]

theorem isSome_nested?_reviseType (t : TypeDecl) (name : String) (kind : TypeKind) :
    ((w.reviseType table t).nested? name kind).isSome = (t.nested? name kind).isSome := by
  rw [reviseType, TypeDecl.isSome_nested?_edit, TypeDecl.isSome_nested?_edit]

/-- What both passes make of a method of a top-level type. -/
def reviseMethod (t : TypeDecl) (m : MethodDecl) : MethodDecl :=
  let s := (w.scope table).enterType t.name
  let pinned := m.edit (Pinning.editor w.options.naming (s.enterMethod m))
  pinned.edit (FieldAccess.editor w.options.naming (s.enterMethod pinned))

def reviseField (t : TypeDecl) (f : FieldDecl) : FieldDecl :=
  let s := (w.scope table).enterType t.name
  (f.edit (Pinning.editor w.options.naming s)).edit (FieldAccess.editor w.options.naming s)

theorem methods_reviseType (t : TypeDecl) :
    (w.reviseType table t).methods = t.methods.map (w.reviseMethod table t) := by
  rw [reviseType, TypeDecl.methods_edit, TypeDecl.methods_edit, List.map_map, TypeDecl.name_edit]
  rfl

theorem fields_reviseType (t : TypeDecl) :
    (w.reviseType table t).fields = t.fields.map (w.reviseField table t) := by
  rw [reviseType, TypeDecl.fields_edit, TypeDecl.fields_edit, List.map_map, TypeDecl.name_edit]
  rfl

variable (t : TypeDecl)

@[simp] theorem modifiers_reviseMethod (m : MethodDecl) :
    (w.reviseMethod table t m).modifiers = m.modifiers := rfl

@[simp] theorem name_reviseMethod (m : MethodDecl) : (w.reviseMethod table t m).name = m.name := rfl

theorem params_reviseMethod (m : MethodDecl) : (w.reviseMethod table t m).params =
    m.params.map fun p => { p with ty := p.ty.normalize w.marker } := by
  simp only [reviseMethod, MethodDecl.edit, List.map_map]
  rfl

theorem names_reviseField (f : FieldDecl) :
    (w.reviseField table t f).declarators.map Declarator.name =
      f.declarators.map Declarator.name := by
  rw [reviseField, FieldDecl.names_edit, FieldDecl.names_edit]

/-- On settled types the signature of a method outlasts its revision. -/
theorem signature_reviseMethod {m : MethodDecl} (h : ∀ p ∈ m.params, p.ty.Settled w.marker) :
    (w.reviseMethod table t m).signature w.marker = m.signature w.marker := by
  have htypes : signatureTypes w.marker (w.reviseMethod table t m).params =
      signatureTypes w.marker m.params := by
    rw [params_reviseMethod, signatureTypes, signatureTypes, List.map_map]
    exact List.map_congr_left fun p hp => TypeRef.signature_normalize (h p hp)
  rw [MethodDecl.signature, MethodDecl.signature, htypes, name_reviseMethod]

end Weaver

end VersionWeave
