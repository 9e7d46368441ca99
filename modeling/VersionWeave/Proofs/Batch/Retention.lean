import VersionWeave.Proofs.Batch.Failures

namespace VersionWeave

namespace Weaver

variable {w : Weaver} {units : List CompilationUnit} {u : CompilationUnit} {t : TypeDecl}
  {base : String} {n : UInt32}

/-- A declaration with an ordinal makes its base name a versioned one. -/
theorem isVersioned_of_parse (hu : u ∈ units) (ht : t ∈ u.types)
    (hparse : w.marker.parse t.name = ⟨base, .numbered n⟩) :
    (w.symbols units).isVersioned base = true := by
  have hmark := Marker.isVersioned_iff.mpr ⟨n, congrArg VersionedName.version hparse⟩
  have hbase : w.marker.baseName t.name = base := congrArg VersionedName.base hparse
  exact hbase ▸ isVersioned_symbols hu ht hmark

/-- A version goes into its group with the units whose primary type has its base name. -/
theorem exists_declares_iff : (∃ t, w.Declares units base n t) ↔
    ∃ u ∈ units, u.primaryName?.map w.marker.baseName = some base ∧
      ∃ t ∈ u.types, w.marker.parse t.name = ⟨base, .numbered n⟩ := by
  constructor
  · rintro ⟨t, ⟨u, hu, hgroup, ht⟩, hparse⟩
    exact ⟨u, hu, (groupName?_eq_some.mp hgroup).1, t, ht, hparse⟩
  · rintro ⟨u, hu, hprimary, t, ht, hparse⟩
    have hgroup := groupName?_eq_some.mpr ⟨hprimary, isVersioned_of_parse hu ht hparse⟩
    exact ⟨t, ⟨u, hu, hgroup, ht⟩, hparse⟩

/-- Some type of the base name holds the version: it has an implementation type for it. -/
def Unifies (w : Weaver) (units : List CompilationUnit) (base : String) (n : UInt32) : Prop :=
  ∃ out ∈ (w.transform units).units, ∃ outer ∈ out.types, outer.name = base ∧
    (outer.nested? (w.options.naming.implType n) .classType).isSome = true

/-- A version in a unit of its own base name gets its implementation type. -/
theorem Declares.unifies (hok : (w.transform units).failures = [])
    (ht : w.Declares units base n t) : w.Unifies units base n := by
  obtain ⟨u, hu, hgroup, -⟩ := ht.1
  obtain ⟨vs, outer, hvs, hunified, -, hout⟩ := exists_built hu hgroup (by simp [hok])
  have hmem : { ordinal := n, decl := w.reviseType (w.symbols units) t } ∈ vs :=
    (mem_versions_group hvs).mpr ⟨t, ht, rfl⟩
  exact ⟨_, hout, outer, (Group.foldl_addBystander _ [outer]).1 outer (by simp), hunified.name,
    (hunified.impls n).mpr (List.mem_map.mpr ⟨_, hmem, rfl⟩)⟩

/-- What is put out at the top is the unified type of a group, or a type of the input, revised. -/
theorem exists_origin {out : CompilationUnit} {x : TypeDecl}
    (hout : out ∈ (w.transform units).units) (hx : x ∈ out.types) :
    (∃ base vs, (w.group units base).versions w.marker = .ok vs ∧
      Group.Unified w.marker (w.symbols units) w.options base vs x) ∨
    ∃ u ∈ units, ∃ t ∈ u.types, w.reviseType (w.symbols units) t = x := by
  rcases mem_units_transform.mp hout with ⟨base, -, hbuild⟩ | ⟨u, hu, -, rfl⟩
  · rw [revisedGroup_eq] at hbuild
    rcases Group.build_cases w.marker (w.symbols units) w.options (w.group units base) with
      ⟨vs, outer, hvs, hunified, hok⟩ | ⟨e, -, he⟩
    · cases hok.symm.trans hbuild
      obtain ⟨added, htypes, hadded⟩ :=
        Group.mem_bystanders w.marker base (w.group units base).types [outer]
      rcases List.mem_cons.mp (htypes ▸ hx : x ∈ [outer] ++ added) with rfl | hx
      · exact .inl ⟨base, vs, hvs, hunified⟩
      · obtain ⟨-, -, before, after, hsplit, -⟩ := (hadded x).mp hx
        have hmem : x ∈ (w.group units base).types := by simp [hsplit]
        obtain ⟨u, hu, -, hfrom⟩ := mem_types_group.mp hmem
        exact .inr ⟨u, hu, hfrom⟩
    · cases he.symm.trans hbuild
  · exact .inr ⟨u, hu, List.mem_map.mp hx⟩

/-- Unless the input looked so before, only a declared version has an implementation type. -/
theorem Unifies.exists_declares (h : w.Unifies units base n)
    (hfresh : ∀ u ∈ units, ∀ t ∈ u.types, t.name = base →
      t.nested? (w.options.naming.implType n) .classType = none) :
    ∃ t, w.Declares units base n t := by
  obtain ⟨out, hout, outer, houter, hname, himpl⟩ := h
  rcases exists_origin hout houter with ⟨base', vs, hvs, hunified⟩ | ⟨u, hu, t, ht, rfl⟩
  · obtain rfl : base' = base := hunified.name.symm.trans hname
    obtain ⟨v, hv, rfl⟩ := List.mem_map.mp ((hunified.impls n).mp himpl)
    obtain ⟨t, ht, -⟩ := (mem_versions_group hvs).mp hv
    exact ⟨t, ht⟩
  · rw [name_reviseType] at hname
    rw [isSome_nested?_reviseType, hfresh u hu t ht hname] at himpl
    cases himpl

/-- A type beside a primary type of another base name stays at the top under its own name. -/
theorem exists_bystander (hok : (w.transform units).failures = []) (hu : u ∈ units)
    (ht : t ∈ u.types)
    (hprimary : u.primaryName?.map w.marker.baseName ≠ some (w.marker.baseName t.name)) :
    ∃ out ∈ (w.transform units).units, ∃ x ∈ out.types, x.name = t.name := by
  cases hgroup : w.groupName? (w.symbols units) u with
  | none =>
    refine ⟨_, mem_units_of_not_grouped hu hgroup, _, List.mem_map.mpr ⟨t, ht, rfl⟩, ?_⟩
    rw [name_reviseType]
  | some base =>
    obtain ⟨vs, outer, -, -, -, hout⟩ := exists_built hu hgroup (by simp [hok])
    have hne : w.marker.baseName (w.reviseType (w.symbols units) t).name ≠ base := by
      rw [name_reviseType]
      rintro rfl
      exact hprimary (groupName?_eq_some.mp hgroup).1
    have hmem := mem_types_group.mpr ⟨u, hu, hgroup, t, ht, rfl⟩
    obtain ⟨x, hx, hname⟩ := (Group.foldl_addBystander _ [outer]).2 _ hmem hne
    exact ⟨_, hout, x, hx, hname.trans (w.name_reviseType _ t)⟩

/-- One version stands beside an ordinary primary type, two others share a unit of their own. -/
def stowaway : List CompilationUnit :=
  [{ types := [{ modifiers := .pub, name := "Main" }, { name := "Test__1__" }] },
    { types := [{ name := "Test__2__" }, { modifiers := .pub, name := "Test__3__" }] }]

/-- A version that is not declared in a unit of its own base name is not unified. -/
theorem not_every_version_unified : ¬ ∀ units : List CompilationUnit,
    (transform {} units).failures = [] → ∀ u ∈ units, ∀ t ∈ u.types, ∀ base n,
      Marker.standard.parse t.name = ⟨base, .numbered n⟩ →
        ∃ out ∈ (transform {} units).units, ∃ outer ∈ out.types, outer.name = base ∧
          (outer.nested? (Naming.implType {} n) .classType).isSome = true := by
  intro h
  have hnone : ¬ ∃ out ∈ (transform {} stowaway).units, ∃ outer ∈ out.types, outer.name = "Test" ∧
      (outer.nested? (Naming.implType {} 1) .classType).isSome = true := by
    decide +kernel
  exact hnone (h stowaway (by decide +kernel) _ List.mem_cons_self _
    (List.mem_cons_of_mem _ List.mem_cons_self) "Test" 1 (by decide +kernel))

/--
A version whose unit has a primary type of its base name is unified. Any other stays at the top
under the name it was declared by, though it makes its base name a versioned one. So, unless the
input has such a nested type already, a type of the base name holds the version exactly if some unit
whose primary type has this base name declares it.
-/
theorem version_unified_iff (w : Weaver) (units : List CompilationUnit)
    (hok : (w.transform units).failures = []) (base : String) (n : UInt32) :
    (∀ u ∈ units, ∀ t ∈ u.types, w.marker.parse t.name = ⟨base, .numbered n⟩ →
      (u.primaryName?.map w.marker.baseName = some base → w.Unifies units base n) ∧
      (u.primaryName?.map w.marker.baseName ≠ some base →
        (w.symbols units).isVersioned base = true ∧
          ∃ out ∈ (w.transform units).units, ∃ x ∈ out.types, x.name = t.name)) ∧
    ((∀ u ∈ units, ∀ t ∈ u.types, t.name = base →
        t.nested? (w.options.naming.implType n) .classType = none) →
      (w.Unifies units base n ↔ ∃ u ∈ units, u.primaryName?.map w.marker.baseName = some base ∧
        ∃ t ∈ u.types, w.marker.parse t.name = ⟨base, .numbered n⟩)) := by
  have hunifies : (∃ u ∈ units, u.primaryName?.map w.marker.baseName = some base ∧
      ∃ t ∈ u.types, w.marker.parse t.name = ⟨base, .numbered n⟩) → w.Unifies units base n := by
    intro hdeclared
    obtain ⟨t, ht⟩ := exists_declares_iff.mpr hdeclared
    exact ht.unifies hok
  refine ⟨fun u hu t ht hparse => ⟨fun hprimary => ?_, fun hprimary => ?_⟩, fun hfresh => ?_⟩
  · exact hunifies ⟨u, hu, hprimary, t, ht, hparse⟩
  · have hbase : w.marker.baseName t.name = base := congrArg VersionedName.base hparse
    exact ⟨isVersioned_of_parse hu ht hparse, exists_bystander hok hu ht (hbase ▸ hprimary)⟩
  · exact ⟨fun h => exists_declares_iff.mp (h.exists_declares hfresh), hunifies⟩

/-- The first version is left out of the unified type, and kept beside the primary type it had. -/
theorem version_unified_stowaway : (transform {} stowaway).failures = [] ∧
    Unifies {} stowaway "Test" 2 ∧ Unifies {} stowaway "Test" 3 ∧ ¬ Unifies {} stowaway "Test" 1 ∧
    (symbols {} stowaway).isVersioned "Test" = true ∧
    ∃ out ∈ (transform {} stowaway).units, ∃ x ∈ out.types, x.name = "Test__1__" := by
  have hok : (transform {} stowaway).failures = [] := by decide +kernel
  have hexact := version_unified_iff {} stowaway hok "Test"
  have htwo := (hexact 2).2 (by decide)
  have hthree := (hexact 3).2 (by decide)
  have hone := (hexact 1).2 (by decide)
  obtain ⟨hversioned, hkept⟩ := ((hexact 1).1 _ List.mem_cons_self _
    (List.mem_cons_of_mem _ List.mem_cons_self) (by decide +kernel)).2 (by decide +kernel)
  refine ⟨hok, htwo.mpr ?_, hthree.mpr ?_, fun h => ?_, hversioned, hkept⟩
  · decide +kernel
  · decide +kernel
  · exact absurd (hone.mp h) (by decide +kernel)

end Weaver

end VersionWeave
