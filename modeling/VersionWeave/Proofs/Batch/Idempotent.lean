import VersionWeave.Proofs.Batch.Marks
import VersionWeave.Proofs.Batch.Operations
import VersionWeave.Proofs.Unified.Types

namespace VersionWeave

/-- Neither a type in the batch nor the name of a top-level declaration carries an ordinal. -/
structure Unmarked (marker : Marker) (units : List CompilationUnit) : Prop where
  types : ∀ u ∈ units, u.outline.Types (TypeRef.Unmarked marker)
  names : ∀ u ∈ units, ∀ t ∈ u.types, marker.isVersioned t.name = false

/-- One layer of marks is all there is, in types and in the names of top-level declarations. -/
structure OnceMarked (marker : Marker) (units : List CompilationUnit) : Prop where
  types : ∀ u ∈ units, u.outline.Types (TypeRef.OnceMarked marker)
  names : ∀ u ∈ units, ∀ t ∈ u.types, marker.isVersioned (marker.baseName t.name) = false

theorem CompilationUnit.types_iff {P : TypeRef → Prop} (u : CompilationUnit) :
    u.outline.Types P ↔ ∀ t ∈ u.types, t.outline.Types P := by
  simp [CompilationUnit.outline, Node.OnType]

namespace Weaver

variable {w : Weaver} {units : List CompilationUnit}

section Unmarked

variable (h : Unmarked w.marker units)
include h

theorem versioned?_of_unmarked (base : String) : (w.symbols units).versioned? base = none := by
  refine Option.not_isSome_iff_eq_none.mp fun hv => ?_
  obtain ⟨t, ht, -, hmark⟩ := SymbolTable.isVersioned_build_iff.mp hv
  obtain ⟨u, hu, ht⟩ := List.mem_flatMap.mp ht
  rw [h.names u hu t ht] at hmark
  cases hmark

theorem plain_of_unmarked {s : Scope} (hs : s.Over (w.symbols units) w.marker) : s.Plain := by
  intro v
  cases hv : s.variableType? v with
  | none => simp [Scope.versionedClass?, hv]
  | some declared => simp [Scope.versionedClass?, hv, hs.table, versioned?_of_unmarked h]

theorem reviseUnit_of_unmarked {u : CompilationUnit} (hu : u ∈ units) :
    w.reviseUnit (w.symbols units) u = (u, {}) := by
  have hscopes : ∀ s ∈ u.scopes (w.scope (w.symbols units)), s.Plain := fun s hs =>
    plain_of_unmarked h (u.scopes_over (w.over_scope _) s hs)
  have hpins : ∀ u, Pinning.pins w.options.naming (w.scope (w.symbols units)) u = [] := by
    intro u
    refine List.eq_nil_iff_forall_not_mem.mpr (CompilationUnit.notes_all (fun s hs => ?_) u
      (w.over_scope _))
    exact Pinning.notes_of_plain (plain_of_unmarked h hs)
  have haccesses : ∀ u,
      FieldAccess.accesses w.options.naming (w.scope (w.symbols units)) u = [] := by
    intro u
    refine List.eq_nil_iff_forall_not_mem.mpr (CompilationUnit.notes_all (fun s hs => ?_) u
      (w.over_scope _))
    exact FieldAccess.notes_of_plain (plain_of_unmarked h hs)
  refine Prod.ext (reviseUnit_eq_self hscopes (h.types u hu)) ?_
  rw [reviseUnit_snd, hpins, haccesses]
  rfl

/-- A batch without marks passes through: nothing is revised, nothing is grouped. -/
theorem transform_of_unmarked :
    w.transform units = { units, failures := [], stats := {} } := by
  have hnone : ∀ u, w.groupName? (w.symbols units) u = none := by
    intro u
    simp [groupName?, SymbolTable.isVersioned, versioned?_of_unmarked h]
  have hrevised : units.map (w.reviseUnit (w.symbols units)) = units.map fun u => (u, {}) :=
    List.map_congr_left fun u hu => reviseUnit_of_unmarked h hu
  have hsame : (units.map fun u => (u, ({} : Stats))).map Prod.fst = units := by
    simp [Function.comp_def]
  have hgroups : w.groups (w.symbols units) units = [] := by
    rw [groups_eq_collect]
    simp [hnone, Entries.collect]
  have hothers : w.others (w.symbols units) units = units := by
    simp [others, hnone]
  have hstats : ∀ us : List CompilationUnit, (us.map fun u => (u, ({} : Stats))).foldl
      (fun (total : Stats) r => total.add r.2) {} = {} := by
    intro us
    induction us with
    | nil => rfl
    | cons u rest ih => exact ih
  simp only [transform, hrevised, hsame, hgroups, hothers, hstats, List.map_nil, List.filterMap_nil,
    List.nil_append]

end Unmarked

/-- What holds of all types after revision, and of those in generated code, holds of a built unit. -/
theorem types_of_built {P : TypeRef → Prop} (hn : w.options.naming.Admits P)
    (hone : OnePerUnit units)
    (hrevised : ∀ u ∈ units, ∀ t ∈ u.types, (w.reviseType (w.symbols units) t).outline.Types P)
    {g : Group} (hg : g ∈ w.groups (w.symbols units) (w.revised units)) {unit : CompilationUnit}
    (h : g.build w.marker (w.symbols units) w.options = .ok unit) : unit.outline.Types P := by
  obtain ⟨vs, outer, hvs, houter, rfl⟩ := Group.build_eq_ok h
  have htypes : (g.compose w.marker outer).types = [outer] :=
    Group.foldl_addBystander_eq (baseName_of_mem_group hone hg) _
  obtain ⟨hgroup, hversioned⟩ := eq_group_of_mem hg
  obtain ⟨hperm, hnodup⟩ := Group.versions_eq_ok hvs
  rw [congrArg Group.types hgroup, types_group hone hversioned, List.filterMap_map] at hperm
  rw [CompilationUnit.types_iff, htypes, List.forall_mem_singleton]
  refine Group.types_outer hn houter (fun v hv => ?_) fun owner howner field n info hbest => ?_
  · obtain ⟨t, ht, hversion⟩ := List.mem_filterMap.mp (hperm.mem_iff.mp hv)
    obtain ⟨-, hdecl⟩ := Group.version?_eq_some.mp hversion
    obtain ⟨u, hu, ht⟩ := List.mem_flatMap.mp (List.mem_filter.mp ht).1
    exact hdecl ▸ hrevised u hu t ht
  · -- accessors go to a version that declares the field, so its written type is found there
    have howned : owner = .ofDeclarations w.marker g.baseName
        (declarations w.marker units g.baseName) :=
      SymbolTable.versioned?_build_eq_some (Option.filter_eq_some_iff.mpr ⟨howner, by
        simpa [SymbolTable.isVersioned, SymbolTable.versioned?, howner] using hversioned⟩)
    obtain ⟨t, ht, hnumber, f, hf, -, hfield⟩ := ClassInfo.accessorOwner?_eq_some (howned ▸ hbest)
    refine Accessor.declaredType?_isSome hnodup (mem_versions hperm ht hnumber)
      (f := w.reviseField (w.symbols units) t f) ?_ ?_
    · rw [fields_reviseType]
      exact List.mem_map.mpr ⟨f, hf, rfl⟩
    · rw [names_reviseField]
      exact hfield

/-- What is put out has no marks, if there was one layer of them and generated code has none. -/
theorem unmarked_transform (hn : w.options.naming.Admits (TypeRef.Unmarked w.marker))
    (hone : OnePerUnit units) (honce : OnceMarked w.marker units) :
    Unmarked w.marker (w.transform units).units := by
  have hrevised : ∀ u ∈ units, ∀ t ∈ u.types,
      (w.reviseType (w.symbols units) t).outline.Types (TypeRef.Unmarked w.marker) :=
    fun u hu t ht => types_reviseType (u.types_iff.mp (honce.types u hu) t ht)
  have hbuilt : ∀ g ∈ w.groups (w.symbols units) (w.revised units), ∀ unit,
      g.build w.marker (w.symbols units) w.options = .ok unit →
        unit.outline.Types (TypeRef.Unmarked w.marker) ∧
          ∀ t ∈ unit.types, w.marker.isVersioned t.name = false := by
    intro g hg unit hunit
    refine ⟨types_of_built hn hone hrevised hg hunit, ?_⟩
    obtain ⟨outer, htypes, hname⟩ := types_of_build hone hg hunit
    obtain ⟨t, ht, hbase, -⟩ := SymbolTable.isVersioned_build_iff.mp (eq_group_of_mem hg).2
    obtain ⟨u, hu, ht⟩ := List.mem_flatMap.mp ht
    rw [htypes, List.forall_mem_singleton, hname, ← hbase]
    exact honce.names u hu t ht
  have hothers : ∀ u ∈ w.others (w.symbols units) (w.revised units),
      u.outline.Types (TypeRef.Unmarked w.marker) ∧
        ∀ t ∈ u.types, w.marker.isVersioned t.name = false := by
    intro v hv
    obtain ⟨hv, hnone⟩ := List.mem_filter.mp hv
    obtain ⟨u, hu, rfl⟩ := List.mem_map.mp hv
    rw [groupName?_reviseWithin, Option.isNone_iff_eq_none] at hnone
    obtain ⟨t, ht⟩ := List.length_eq_one_iff.mp (hone u hu)
    have hmem : t ∈ u.types := by simp [ht]
    rw [CompilationUnit.types_iff, reviseWithin, ht]
    simp only [List.map_singleton, List.forall_mem_singleton, name_reviseType]
    refine ⟨hrevised u hu t hmem, ?_⟩
    -- an ordinal in the name would put the unit into a group
    cases hmark : w.marker.isVersioned t.name with
    | false => rfl
    | true =>
      rw [groupName?_of_types ht, if_pos (isVersioned_symbols hu hmem hmark)] at hnone
      cases hnone
  have hall : ∀ u ∈ (w.transform units).units, u.outline.Types (TypeRef.Unmarked w.marker) ∧
      ∀ t ∈ u.types, w.marker.isVersioned t.name = false := by
    rw [units_transform]
    refine List.forall_mem_append.mpr ⟨fun unit hunit => ?_, hothers⟩
    obtain ⟨g, hg, hunit⟩ := List.mem_filterMap.mp hunit
    cases hbuild : g.build w.marker (w.symbols units) w.options with
    | error e => rw [hbuild] at hunit; cases hunit
    | ok unit' =>
      rw [hbuild] at hunit
      cases hunit
      exact hbuilt g hg _ hbuild
  exact ⟨fun u hu => (hall u hu).1, fun u hu => (hall u hu).2⟩

/-- No type of generated code carries an ordinal under the standard names. -/
theorem standard_admits : Naming.Admits {} (TypeRef.Unmarked .standard) where
  contract := by decide +kernel
  impl n := by
    refine Marker.not_versioned_of_not_suffix fun h => ?_
    have hsuffix : ['_', '_'] <:+ ['V'] ++ (Nat.repr n.toNat).toList ++ ['_', 'I', 'm', 'p', 'l'] := by
      simpa [TypeRef.plain, Naming.implType, Marker.standard] using h
    have hlast := List.IsSuffix.getLast hsuffix (by simp)
    simp at hlast
  void := by decide +kernel
  int := by decide +kernel
  refusal := by decide +kernel
  unsupported := by decide +kernel

/--
Transformation is idempotent: what it puts out carries no marks, and to transform that again fails
nowhere, puts out the same units in the same order, pins no call and replaces no access.
-/
theorem transform_idempotent (w : Weaver) (hnaming : w.options.naming = {})
    (hmarker : w.marker = .standard) (units : List CompilationUnit) (hone : OnePerUnit units)
    (honce : OnceMarked w.marker units) :
    Unmarked w.marker (w.transform units).units ∧
      w.transform (w.transform units).units =
        { units := (w.transform units).units, failures := [], stats := {} } := by
  have hn : w.options.naming.Admits (TypeRef.Unmarked w.marker) := by
    rw [hnaming, hmarker]
    exact standard_admits
  have hout := unmarked_transform hn hone honce
  exact ⟨hout, transform_of_unmarked hout⟩

theorem transform_idempotent_journal :
    (∃ u ∈ journal, ∃ t ∈ u.types, Marker.standard.isVersioned t.name = true) ∧
      0 < (transform {} journal).stats.pinnedCalls ∧
      transform {} (transform {} journal).units =
        { units := (transform {} journal).units, failures := [], stats := {} } := by
  refine ⟨by decide +kernel, by decide +kernel, ?_⟩
  exact (transform_idempotent {} rfl rfl journal (by decide)
    ⟨by decide +kernel, by decide +kernel⟩).2

end Weaver

end VersionWeave
