import VersionWeave.Proofs.FieldAccess.Run
import VersionWeave.Proofs.Symbols
import VersionWeave.Proofs.Tree.EveryNote

namespace VersionWeave

namespace ClassInfo

theorem leastOrdinal?_mem {l : List (UInt32 × FieldInfo)} :
    ∀ {e : UInt32 × FieldInfo}, leastOrdinal? l = some e → e ∈ l := by
  induction l with
  | nil => intro e h; cases h
  | cons x rest ih =>
    intro e h
    unfold leastOrdinal? at h
    split at h
    next => cases Option.some.inj h; exact List.mem_cons_self
    next best hbest =>
      split at h
      next => cases Option.some.inj h; exact List.mem_cons_of_mem _ (ih hbest)
      next => cases Option.some.inj h; exact List.mem_cons_self

/-- The version that accessors go to declares the field, and declares it public. -/
theorem accessorOwner?_eq_some {marker : Marker} {base : String} {ts : List TypeDecl}
    {field : String} {n : UInt32} {info : FieldInfo}
    (h : (ofDeclarations marker base ts).accessorOwner? field = some (n, info)) :
    ∃ t ∈ ts, (marker.parse t.name).version = .numbered n ∧
      ∃ f ∈ t.fields, f.modifiers.isPublic = true ∧ field ∈ f.declarators.map Declarator.name := by
  obtain ⟨i, hi, hentry⟩ := List.mem_filterMap.mp (leastOrdinal?_mem h)
  obtain ⟨hpublic, hordinal⟩ := Option.ite_none_right_eq_some.mp hentry
  obtain ⟨k, hk, hn⟩ := Option.map_eq_some_iff.mp hordinal
  obtain ⟨rfl, rfl⟩ := Prod.mk.inj hn
  rw [fieldsNamed_ofDeclarations, List.mem_filter, List.mem_flatMap] at hi
  obtain ⟨⟨t, ht, hi⟩, hname⟩ := hi
  obtain ⟨f, hf, hi⟩ := List.mem_flatMap.mp hi
  obtain ⟨d, hd, rfl⟩ := List.mem_map.mp hi
  refine ⟨t, ht, ?_, f, hf, hpublic, List.mem_map.mpr ⟨d, hd, of_decide_eq_true hname⟩⟩
  cases hv : (marker.parse t.name).version with
  | normal => simp [hv, Version.ordinal?] at hk
  | numbered n => rw [hv] at hk; cases hk; rfl

/-- A field with accessors is one of the fields of the class. -/
theorem mem_keys_of_accessorOwner? {c : ClassInfo} {field : String} {e : UInt32 × FieldInfo}
    (h : c.accessorOwner? field = some e) : field ∈ c.fields.keys := by
  obtain ⟨i, hi, -⟩ := List.mem_filterMap.mp (leastOrdinal?_mem h)
  unfold fieldsNamed at hi
  cases hget : c.fields.get? field with
  | none => simp [hget] at hi
  | some found => exact Entries.mem_keys_of_get? hget

end ClassInfo

namespace FieldAccess

theorem accessed?_eq_some {s : Scope} {e receiver : Expr} {field : String}
    (h : s.accessed? e = some (receiver, field)) : ∃ v c best, receiver = .ident v ∧
      s.versionedClass? v = some c ∧ c.accessorOwner? field = some best := by
  unfold Scope.accessed? at h
  split at h
  next v name =>
    split at h
    next best hbest =>
      obtain ⟨c, hc, howner⟩ := Option.bind_eq_some_iff.mp hbest
      cases Option.some.inj h
      exact ⟨v, c, best, rfl, hc, howner⟩
    next => cases h
  next => cases h

/-- Only an access to a field with accessors on a variable of a versioned type gives way. -/
theorem exists_of_replacedAccess? {s : Scope} {e receiver : Expr} {field : String}
    (h : replacedAccess? s e = some (receiver, field)) : ∃ v c best, receiver = .ident v ∧
      s.versionedClass? v = some c ∧ c.accessorOwner? field = some best := by
  unfold replacedAccess? at h
  split at h
  next => exact accessed?_eq_some h
  next =>
    obtain ⟨-, -, h⟩ := Option.bind_eq_some_iff.mp h
    exact accessed?_eq_some h
  next => exact accessed?_eq_some h

end FieldAccess

end VersionWeave
