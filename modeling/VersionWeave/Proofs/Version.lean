import VersionWeave.Version

namespace VersionWeave

theorem VersionedName.eq_of_parts {a b : VersionedName} (hbase : a.base = b.base)
    (hversion : a.version = b.version) : a = b := by
  cases a
  cases b
  cases hbase
  cases hversion
  rfl

namespace Marker

variable {marker : Marker} {name : String}

theorem base_of_normal (h : (marker.parse name).version = .normal) :
    (marker.parse name).base = name := by
  unfold parse at h ⊢
  split at h
  next => rfl
  next =>
    split at h
    next => simp
    next => simp at h

theorem isVersioned_iff : marker.isVersioned name = true ↔
    ∃ n, (marker.parse name).version = .numbered n := by
  unfold isVersioned Version.isNumbered
  cases (marker.parse name).version <;> simp [Version.ordinal?]

/-- A base name without an ordinal of its own is its own base. -/
theorem baseName_of_not_versioned (h : marker.isVersioned name = false) :
    marker.baseName name = name := by
  refine base_of_normal ?_
  cases hv : (marker.parse name).version with
  | normal => rfl
  | numbered n => simp [isVersioned_iff.mpr ⟨n, hv⟩] at h

/-- Where an ordinal comes from. -/
theorem split?_of_parse {base : String} {n : UInt32}
    (h : marker.parse name = ⟨base, .numbered n⟩) : ∃ digits,
      split? marker.separator.toList name.toList = some (base.toList, digits) ∧
        Version.ordinalOfDigits? digits = some n := by
  unfold parse at h
  cases hsplit : split? marker.separator.toList name.toList with
  | none => rw [hsplit] at h; cases h
  | some found =>
    obtain ⟨front, digits⟩ := found
    rw [hsplit] at h
    dsimp only at h
    cases hordinal : Version.ordinalOfDigits? digits with
    | none => rw [hordinal] at h; cases h
    | some k =>
      rw [hordinal] at h
      cases h
      exact ⟨digits, by rw [String.toList_ofList], hordinal⟩

theorem digitsBetween?_eq_some {separator rest digits : List Char}
    (h : digitsBetween? separator rest = some digits) : rest = separator ++ digits ++ separator := by
  unfold digitsBetween? at h
  obtain ⟨hfront, h⟩ := Option.ite_none_right_eq_some.mp h
  obtain ⟨hsuffix, h⟩ := Option.ite_none_right_eq_some.mp h
  obtain ⟨-, h⟩ := Option.ite_none_right_eq_some.mp h
  have hrest := List.prefix_iff_eq_append.mp (List.isPrefixOf_iff_prefix.mp hfront)
  have hinner := List.suffix_iff_eq_append.mp (List.isSuffixOf_iff_suffix.mp hsuffix)
  rw [Option.some.inj h] at hinner
  rw [List.append_assoc, hinner, hrest]

/-- A name that carries an ordinal is its base with the digits between two separators. -/
theorem split?_eq_some {separator base digits : List Char} : ∀ {name : List Char},
    split? separator name = some (base, digits) → name = base ++ separator ++ digits ++ separator := by
  intro name
  induction name generalizing base with
  | nil => intro h; cases h
  | cons c rest ih =>
    intro h
    unfold split? at h
    split at h
    next => cases h
    next =>
      cases hrest : split? separator rest with
      | some found =>
        rw [hrest] at h
        cases Option.some.inj h
        rw [ih hrest]
        simp
      | none =>
        rw [hrest] at h
        obtain ⟨digits', hdigits, hfound⟩ := Option.map_eq_some_iff.mp h
        cases hfound
        rw [digitsBetween?_eq_some hdigits]
        simp

theorem not_versioned_of_not_suffix (h : ¬ marker.separator.toList <:+ name.toList) :
    marker.isVersioned name = false := by
  unfold isVersioned parse
  split
  next => rfl
  next base digits hsplit =>
    refine absurd ?_ h
    rw [split?_eq_some hsplit]
    exact List.suffix_append _ _

/-- The characters of a base name are characters of the name. -/
theorem mem_of_mem_baseName {c : Char} (h : c ∈ (marker.baseName name).toList) :
    c ∈ name.toList := by
  cases hv : marker.isVersioned name with
  | false => rwa [baseName_of_not_versioned hv] at h
  | true =>
    obtain ⟨n, hn⟩ := isVersioned_iff.mp hv
    obtain ⟨digits, hsplit, -⟩ := split?_of_parse
      (VersionedName.eq_of_parts rfl hn : marker.parse name = ⟨marker.baseName name, .numbered n⟩)
    rw [split?_eq_some hsplit]
    simp [h]

end Marker

mutual

/-- Every name in a type, arguments included. -/
def TypeRef.names : TypeRef → List String
  | ⟨name, args, _⟩ => name :: TypeRef.allNames args

def TypeRef.allNames : List TypeRef → List String
  | [] => []
  | t :: rest => t.names ++ TypeRef.allNames rest

end

/-- No name in the type has a base name that carries an ordinal itself. -/
def TypeRef.Settled (marker : Marker) (t : TypeRef) : Prop :=
  ∀ name ∈ t.names, marker.isVersioned (marker.baseName name) = false

instance (marker : Marker) (t : TypeRef) : Decidable (t.Settled marker) :=
  inferInstanceAs (Decidable (∀ name ∈ t.names, _ = false))

section

variable {marker : Marker}

mutual

theorem TypeRef.normalize_names : ∀ t : TypeRef,
    (∀ name ∈ t.names, marker.isVersioned (marker.baseName name) = false) →
      (t.normalize marker).normalize marker = t.normalize marker
  | ⟨name, args, dims⟩, h => by
    simp only [TypeRef.names, List.forall_mem_cons] at h
    simp only [TypeRef.normalize, Marker.baseName_of_not_versioned h.1,
      TypeRef.normalizeAll_names args h.2]

theorem TypeRef.normalizeAll_names : ∀ ts : List TypeRef,
    (∀ name ∈ TypeRef.allNames ts, marker.isVersioned (marker.baseName name) = false) →
      TypeRef.normalizeAll marker (TypeRef.normalizeAll marker ts) = TypeRef.normalizeAll marker ts
  | [], _ => rfl
  | t :: rest, h => by
    simp only [TypeRef.allNames, List.forall_mem_append] at h
    simp only [TypeRef.normalizeAll, TypeRef.normalize_names t h.1,
      TypeRef.normalizeAll_names rest h.2]

end

/-- Taking the marks off a settled type a second time changes nothing. -/
theorem TypeRef.signature_normalize {t : TypeRef} (h : t.Settled marker) :
    (t.normalize marker).signature marker = t.signature marker := by
  rw [TypeRef.signature, TypeRef.normalize_names t h, TypeRef.signature]

end

end VersionWeave
