import VersionWeave.Proofs.Tree.Editor

namespace VersionWeave

namespace TypeDecl

variable (ed : Scope → Editor) (s : Scope) (t : TypeDecl)

@[simp] theorem name_edit : (t.edit ed s).name = t.name := by
  cases t
  rfl

@[simp] theorem modifiers_edit : (t.edit ed s).modifiers = t.modifiers := by
  cases t
  rfl

theorem members_edit : (t.edit ed s).members = t.members.map (Member.edit ed (s.enterType t.name)) := by
  have hall : ∀ (s : Scope) (ms : List Member), Member.editAll ed s ms = ms.map (Member.edit ed s) := by
    intro s ms
    induction ms with
    | nil => rfl
    | cons m rest ih => rw [Member.editAll, ih, List.map_cons]
  cases t
  exact hall _ _

theorem methods_edit : (t.edit ed s).methods =
    t.methods.map fun m => m.edit (ed ((s.enterType t.name).enterMethod m)) := by
  rw [methods, methods, members_edit, List.filterMap_map, List.map_filterMap]
  congr 1
  funext m
  cases m <;> rfl

theorem fields_edit : (t.edit ed s).fields =
    t.fields.map (FieldDecl.edit (ed (s.enterType t.name))) := by
  rw [fields, fields, members_edit, List.filterMap_map, List.map_filterMap]
  congr 1
  funext m
  cases m <;> rfl

/-- No nested type comes or goes. -/
theorem isSome_nested?_edit (name : String) (kind : TypeKind) :
    ((t.edit ed s).nested? name kind).isSome = (t.nested? name kind).isSome := by
  have hkind : ∀ (s : Scope) (t : TypeDecl), (t.edit ed s).kind = t.kind := by
    intro s t
    cases t
    rfl
  rw [nested?, nested?, members_edit, List.isSome_findSome?, List.isSome_findSome?, List.any_map]
  congr 1
  funext m
  cases m with
  | type x =>
    simp only [Function.comp_apply, Member.edit, Member.type?, hkind, name_edit]
    split <;> rfl
  | _ => rfl

end TypeDecl

theorem FieldDecl.names_edit (ed : Editor) (f : FieldDecl) :
    (f.edit ed).declarators.map Declarator.name = f.declarators.map Declarator.name := by
  simp [FieldDecl.edit, Declarator.editAll, Function.comp_def]

end VersionWeave
