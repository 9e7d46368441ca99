import VersionWeave.Naming
import VersionWeave.Unified.Group

namespace VersionWeave

namespace Naming

theorem repr_inj {n k : Nat} (h : n.repr = k.repr) : n = k := by
  have hdigits : Nat.toDigits 10 n = Nat.toDigits 10 k := by
    simpa only [Nat.toList_repr] using congrArg String.toList h
  simpa only [Nat.ofDigitChars_ten_toDigits] using congrArg (Nat.ofDigitChars 10 · 0) hdigits

theorem implType_inj {naming : Naming} {n k : UInt32} :
    naming.implType n = naming.implType k ↔ n = k := by
  refine ⟨fun h => UInt32.toNat_inj.mp ?_, fun h => h ▸ rfl⟩
  exact repr_inj ((String.append_right_inj _).mp ((String.append_left_inj _).mp h))

theorem instanceField_inj {naming : Naming} {n k : UInt32} :
    naming.instanceField n = naming.instanceField k ↔ n = k := by
  refine ⟨fun h => UInt32.toNat_inj.mp ?_, fun h => h ▸ rfl⟩
  exact repr_inj ((String.append_right_inj _).mp ((String.append_left_inj _).mp h))

end Naming

namespace Member

variable {name : String} {kind : TypeKind} {change : TypeDecl → TypeDecl}

theorem type?_eq_some {m : Member} {t : TypeDecl} :
    m.type? name kind = some t ↔ m = .type t ∧ t.kind = kind ∧ t.name = name := by
  cases m with
  | type t' =>
    simp only [type?, Option.ite_none_right_eq_some, Option.some.injEq, Member.type.injEq]
    constructor
    · rintro ⟨h, rfl⟩
      exact ⟨rfl, h⟩
    · rintro ⟨rfl, h⟩
      exact ⟨h, rfl⟩
  | _ => simp [type?]

theorem exists_updateType? (change : TypeDecl → TypeDecl) {t : TypeDecl} {ms : List Member}
    (h : ms.findSome? (type? name kind) = some t) :
    ∃ ms', updateType? name kind change ms = some ms' := by
  induction ms with
  | nil => cases h
  | cons m rest ih =>
    rw [updateType?]
    cases hm : m.type? name kind with
    | some s => exact ⟨_, rfl⟩
    | none =>
      rw [List.findSome?_cons, hm] at h
      obtain ⟨rest', hrest⟩ := ih h
      exact ⟨m :: rest', by rw [hrest]; rfl⟩

/-- A change of a nested type leaves all other members as they are. -/
theorem filterMap_updateType? {β : Type} (proj : Member → Option β)
    (hproj : ∀ t, proj (.type t) = none) (ms : List Member) :
    ∀ {ms' : List Member}, updateType? name kind change ms = some ms' →
      ms'.filterMap proj = ms.filterMap proj := by
  induction ms with
  | nil => intro ms' h; simp [updateType?] at h
  | cons m rest ih =>
    intro ms' h
    unfold updateType? at h
    split at h
    next t ht =>
      obtain ⟨rfl, -⟩ := type?_eq_some.mp ht
      cases Option.some.inj h
      simp [hproj]
    next =>
      obtain ⟨rest', hrest, rfl⟩ := Option.map_eq_some_iff.mp h
      simp [List.filterMap_cons, ih hrest]

/-- A change that keeps name and kind shows where it was made and nowhere else. -/
theorem findSome?_updateType? (hname : ∀ t, (change t).name = t.name)
    (hkind : ∀ t, (change t).kind = t.kind) (name' : String) (kind' : TypeKind) (ms : List Member) :
    ∀ {ms' : List Member}, updateType? name kind change ms = some ms' →
      ms'.findSome? (type? name' kind') =
        if name' = name ∧ kind' = kind then (ms.findSome? (type? name kind)).map change
        else ms.findSome? (type? name' kind') := by
  induction ms with
  | nil => intro ms' h; simp [updateType?] at h
  | cons m rest ih =>
    intro ms' h
    unfold updateType? at h
    split at h
    next t ht =>
      obtain ⟨rfl, rfl, rfl⟩ := type?_eq_some.mp ht
      cases Option.some.inj h
      by_cases hsame : name' = t.name ∧ kind' = t.kind
      · obtain ⟨rfl, rfl⟩ := hsame
        simp [type?, hname, hkind]
      · have hother : ¬ (t.kind = kind' ∧ t.name = name') := fun h => hsame ⟨h.2.symm, h.1.symm⟩
        rw [if_neg hsame]
        simp [type?, hname, hkind, hother]
    next hm =>
      obtain ⟨rest', hrest, rfl⟩ := Option.map_eq_some_iff.mp h
      rw [List.findSome?_cons, List.findSome?_cons, List.findSome?_cons, hm, ih hrest]
      by_cases hsame : name' = name ∧ kind' = kind
      · obtain ⟨rfl, rfl⟩ := hsame
        simp [hm]
      · simp [hsame]

end Member

namespace TypeDecl

section

variable (t : TypeDecl) (members : List Member)

theorem append_nil : t.append [] = t := by
  cases t
  simp [append]

@[simp] theorem name_append : (t.append members).name = t.name := rfl

@[simp] theorem methods_append :
    (t.append members).methods = t.methods ++ members.filterMap Member.method? := by
  simp [methods, append]

@[simp] theorem fields_append :
    (t.append members).fields = t.fields ++ members.filterMap Member.field? := by
  simp [fields, append]

@[simp] theorem constructors_append :
    (t.append members).constructors = t.constructors ++ members.filterMap Member.constructor? := by
  simp [constructors, append]

end

variable {t t' : TypeDecl} {name : String} {kind : TypeKind} {change : TypeDecl → TypeDecl}

/-- Members added at the end hide no nested type. -/
theorem nested?_append {x : TypeDecl} (h : t.nested? name kind = some x) (members : List Member) :
    (t.append members).nested? name kind = some x := by
  rw [nested?] at h
  rw [nested?, append, List.findSome?_append, h, Option.some_or]

/-- Members that are no types bring no nested type along. -/
theorem nested?_append_eq {members : List Member}
    (h : members.filterMap (Member.type? name kind) = []) :
    (t.append members).nested? name kind = t.nested? name kind := by
  have hnone : members.findSome? (Member.type? name kind) = none := by
    rw [← List.head?_filterMap, h, List.head?_nil]
  rw [nested?, append, List.findSome?_append, hnone, Option.or_none, nested?]

/-- The name of a type, its own methods, fields and constructors. -/
def front (t : TypeDecl) :
    String × List MethodDecl × List FieldDecl × List ConstructorDecl :=
  (t.name, t.methods, t.fields, t.constructors)

theorem front_updateNested? (h : t.updateNested? name kind change = some t') :
    t'.front = t.front := by
  obtain ⟨members, hmembers, rfl⟩ := Option.map_eq_some_iff.mp h
  have hmethods := Member.filterMap_updateType? Member.method? (fun _ => rfl) _ hmembers
  have hfields := Member.filterMap_updateType? Member.field? (fun _ => rfl) _ hmembers
  have hconstructors := Member.filterMap_updateType? Member.constructor? (fun _ => rfl) _ hmembers
  simp only [front, methods, fields, constructors, hmethods, hfields, hconstructors]

theorem nested?_updateNested? (h : t.updateNested? name kind change = some t')
    (hname : ∀ t, (change t).name = t.name) (hkind : ∀ t, (change t).kind = t.kind)
    (name' : String) (kind' : TypeKind) :
    t'.nested? name' kind' =
      if name' = name ∧ kind' = kind then (t.nested? name kind).map change
      else t.nested? name' kind' := by
  obtain ⟨members, hmembers, rfl⟩ := Option.map_eq_some_iff.mp h
  exact Member.findSome?_updateType? hname hkind name' kind' _ hmembers

/--
What comes of a type by changes to nested types of it, one after the other, none of which touches a
name or a kind.
-/
inductive Reworked : TypeDecl → TypeDecl → Prop
  | refl (t : TypeDecl) : Reworked t t
  | step {t next last : TypeDecl} {name : String} {kind : TypeKind} {change : TypeDecl → TypeDecl}
    (hnext : t.updateNested? name kind change = some next) (hname : ∀ t, (change t).name = t.name)
    (hkind : ∀ t, (change t).kind = t.kind) (hlast : Reworked next last) : Reworked t last

theorem Reworked.trans {t next last : TypeDecl} (hnext : Reworked t next)
    (hlast : Reworked next last) : Reworked t last := by
  induction hnext with
  | refl => exact hlast
  | step h hname hkind _ ih => exact .step h hname hkind (ih hlast)

theorem Reworked.front (h : Reworked t t') : t'.front = t.front := by
  induction h with
  | refl => rfl
  | step hnext _ _ _ ih => exact ih.trans (front_updateNested? hnext)

theorem Reworked.modifiers (h : Reworked t t') : t'.modifiers = t.modifiers := by
  induction h with
  | refl => rfl
  | step hnext _ _ _ ih =>
    obtain ⟨members, -, rfl⟩ := Option.map_eq_some_iff.mp hnext
    exact ih

/-- No nested type comes or goes. -/
theorem Reworked.isSome_nested? (h : Reworked t t') (name : String) (kind : TypeKind) :
    (t'.nested? name kind).isSome = (t.nested? name kind).isSome := by
  induction h with
  | refl => rfl
  | step hnext hname hkind _ ih =>
    rw [ih, nested?_updateNested? hnext hname hkind]
    split
    next hsame => rw [hsame.1, hsame.2, Option.isSome_map]
    next => rfl

/-- A nested type that is there can be changed. -/
theorem exists_updateNested? (change : TypeDecl → TypeDecl) {x : TypeDecl}
    (h : t.nested? name kind = some x) : ∃ next, t.updateNested? name kind change = some next := by
  obtain ⟨members, hmembers⟩ := Member.exists_updateType? change h
  exact ⟨{ t with members }, by rw [updateNested?, hmembers]; rfl⟩

end TypeDecl

end VersionWeave
