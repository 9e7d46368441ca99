import VersionWeave.Proofs.Pinning.Run
import VersionWeave.Proofs.Version

namespace VersionWeave

namespace Marker

variable {marker : Marker} {name : String}

/-- Taking off a mark makes a name shorter. -/
theorem length_baseName_lt (h : marker.isVersioned name = true) :
    (marker.baseName name).length < name.length := by
  obtain ⟨n, hn⟩ := isVersioned_iff.mp h
  have hparse : marker.parse name = ⟨marker.baseName name, .numbered n⟩ :=
    VersionedName.eq_of_parts rfl hn
  obtain ⟨digits, hsplit, -⟩ := split?_of_parse hparse
  have hname := congrArg List.length (split?_eq_some hsplit)
  have hsep : 0 < marker.separator.toList.length :=
    List.length_pos_iff.mpr (by simpa using marker.separator_ne)
  simp only [List.length_append, String.length_toList] at hname hsep
  omega

theorem length_baseName_le (marker : Marker) (name : String) :
    (marker.baseName name).length + (if marker.isVersioned name then 1 else 0) ≤ name.length := by
  cases h : marker.isVersioned name with
  | false =>
    rw [baseName_of_not_versioned h]
    exact Nat.le_refl _
  | true => exact length_baseName_lt h

end Marker

namespace TypeRef

section

variable {marker : Marker}

mutual

theorem names_normalize : ∀ t : TypeRef, (t.normalize marker).names = t.names.map marker.baseName
  | ⟨name, args, dims⟩ => by
    rw [normalize, names, names, List.map_cons, allNames_normalizeAll args]

theorem allNames_normalizeAll : ∀ ts : List TypeRef,
    allNames (normalizeAll marker ts) = (allNames ts).map marker.baseName
  | [] => rfl
  | t :: rest => by
    rw [normalizeAll, allNames, allNames, List.map_append, names_normalize t,
      allNames_normalizeAll rest]

end

mutual

/-- The text of a type loses at least one character for every mark that is taken off. -/
theorem length_source_normalize : ∀ t : TypeRef,
    (t.normalize marker).source.length + t.names.countP marker.isVersioned ≤ t.source.length
  | ⟨name, args, dims⟩ => by
    have hname := marker.length_baseName_le name
    have hargs := length_sources_normalizeAll args
    rw [normalize, source, source, names, List.countP_cons]
    cases args with
    | nil =>
      simp only [normalizeAll, allNames, List.countP_nil, List.isEmpty_nil, if_true,
        String.length_append]
      omega
    | cons t rest =>
      simp only [normalizeAll, List.isEmpty_cons, Bool.false_eq_true, if_false,
        String.length_append] at hargs ⊢
      omega

theorem length_sources_normalizeAll : ∀ ts : List TypeRef,
    (commas (sources (normalizeAll marker ts))).length + (allNames ts).countP marker.isVersioned ≤
      (commas (sources ts)).length
  | [] => Nat.le_refl _
  | t :: rest => by
    have ht := length_source_normalize t
    have hrest := length_sources_normalizeAll rest
    rw [allNames, List.countP_append]
    cases rest with
    | nil =>
      simp only [normalizeAll, sources, allNames, List.countP_nil, commas,
        String.intercalate_singleton]
      exact ht
    | cons u more =>
      simp only [normalizeAll, sources, commas, String.intercalate_cons_cons,
        String.length_append] at hrest ⊢
      omega

end

/-- The signature of a type outlasts the loss of its marks only if no mark is left after it. -/
theorem signature_normalize_iff {t : TypeRef} :
    (t.normalize marker).signature marker = t.signature marker ↔ t.Settled marker := by
  refine ⟨fun h name hname => ?_, signature_normalize⟩
  have hlength : ((t.normalize marker).normalize marker).source.length +
      (t.normalize marker).names.countP marker.isVersioned ≤ (t.normalize marker).source.length :=
    length_source_normalize _
  have hsame := congrArg String.length h
  unfold signature at hsame
  have hnone : (t.normalize marker).names.countP marker.isVersioned = 0 := by omega
  rw [names_normalize] at hnone
  have hbase := List.countP_eq_zero.mp hnone _ (List.mem_map_of_mem hname)
  exact Bool.eq_false_iff.mpr hbase

theorem normalize_normalize_iff {t : TypeRef} :
    (t.normalize marker).normalize marker = t.normalize marker ↔ t.Settled marker :=
  ⟨fun h => signature_normalize_iff.mp (congrArg source h), normalize_names t⟩

end

end TypeRef

namespace Pinning

theorem run_params (naming : Naming) (st : Pinning) (params : List Param) :
    (Param.reviseAll (reviser naming) params).run st =
      (params.map fun p => { p with ty := p.ty.normalize st.scope.marker }, st) := by
  induction params with
  | nil => rfl
  | cons p rest ih =>
    simp only [Param.reviseAll, run_bind, run_pure, run_typeRef naming st p.ty, ih, List.map_cons]

end Pinning

/--
The signature of a parameter list is the same after the marks are taken off its types exactly when
no name in them has a base name that carries an ordinal itself.
-/
theorem signatureTypes_stable_iff (naming : Naming) (st : Pinning) (params : List Param) :
    ((Param.reviseAll (Pinning.reviser naming) params).run st).1 =
      params.map (fun p => { p with ty := p.ty.normalize st.scope.marker }) ∧
    (signatureTypes st.scope.marker
        (params.map fun p => { p with ty := p.ty.normalize st.scope.marker }) =
          signatureTypes st.scope.marker params ↔ ∀ p ∈ params, p.ty.Settled st.scope.marker) ∧
    ∀ t : TypeRef, (t.normalize st.scope.marker).normalize st.scope.marker =
      t.normalize st.scope.marker ↔ t.Settled st.scope.marker := by
  refine ⟨congrArg Prod.fst (Pinning.run_params naming st params), ?_,
    fun t => TypeRef.normalize_normalize_iff⟩
  unfold signatureTypes
  rw [List.map_map, List.map_inj_left]
  exact forall_congr' fun p => imp_congr_right fun _ => TypeRef.signature_normalize_iff

/-- A type whose name carries two ordinals has another signature when one of them is taken off. -/
theorem signatureTypes_of_two_marks :
    signatureTypes .standard [{ ty := .plain "Stock__1____2__", name := "stock" }] = ["Stock__1__"] ∧
    signatureTypes .standard
      [{ ty := (TypeRef.plain "Stock__1____2__").normalize .standard, name := "stock" }] =
        ["Stock"] := by
  decide

end VersionWeave
