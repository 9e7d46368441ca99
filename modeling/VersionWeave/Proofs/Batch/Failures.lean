import VersionWeave.Proofs.Batch.Outcome
import VersionWeave.Proofs.Distinct

namespace VersionWeave

namespace Weaver

/-- The versioned base names of a batch, in the order in which primary types first have them. -/
def bases (w : Weaver) (units : List CompilationUnit) : List String :=
  distinct (units.filterMap (w.groupName? (w.symbols units)))

/-- The units whose primary types have a versioned base name. -/
def unitsUnder (w : Weaver) (units : List CompilationUnit) (base : String) :
    List CompilationUnit :=
  units.filter fun u => w.groupName? (w.symbols units) u = some base

/-- Among the types of a base name in its units, one has no ordinal or two have the same. -/
def Flawed (w : Weaver) (units : List CompilationUnit) (base : String) : Prop :=
  let versions := Group.versionsUnder w.marker base
    ((w.unitsUnder units base).flatMap CompilationUnit.types)
  .normal ∈ versions ∨ ¬ versions.Nodup

instance (w : Weaver) (units : List CompilationUnit) (base : String) :
    Decidable (w.Flawed units base) :=
  inferInstanceAs (Decidable (_ ∨ ¬ List.Nodup _))

/-- The group of a base name as it is built: its units, after both passes. -/
def revisedGroup (w : Weaver) (units : List CompilationUnit) (base : String) : Group where
  baseName := base
  units := (w.unitsUnder units base).map fun u => (w.reviseUnit (w.symbols units) u).1

variable {w : Weaver} {units : List CompilationUnit} {base : String}

theorem mem_unitsUnder {u : CompilationUnit} : u ∈ w.unitsUnder units base ↔
    u ∈ units ∧ w.groupName? (w.symbols units) u = some base := by
  rw [unitsUnder, List.mem_filter, decide_eq_true_iff]

theorem mem_bases : base ∈ w.bases units ↔ ∃ u, u ∈ w.unitsUnder units base := by
  simp only [bases, mem_distinct, List.mem_filterMap, unitsUnder, List.mem_filter, decide_eq_true_eq]

theorem revisedGroup_eq : w.revisedGroup units base = w.group units base := by
  have hunits : ((w.unitsUnder units base).map fun u => (w.reviseUnit (w.symbols units) u).1) =
      (w.revised units).filter fun u => w.groupName? (w.symbols units) u = some base := by
    rw [revised, List.filter_map, unitsUnder]
    simp only [Function.comp_def, groupName?_reviseWithin]
    exact List.map_congr_left fun u _ => w.reviseUnit_fst (w.symbols units) u
  exact congrArg (Group.mk base) hunits

theorem groups_revised (w : Weaver) (units : List CompilationUnit) :
    w.groups (w.symbols units) (w.revised units) = (w.bases units).map (w.revisedGroup units) := by
  have hkeys : (units.map (w.reviseWithin units)).filterMap (w.groupName? (w.symbols units)) =
      units.filterMap (w.groupName? (w.symbols units)) := by
    rw [List.filterMap_map]
    exact congrArg (units.filterMap ·) (funext groupName?_reviseWithin)
  have hgroup : ∀ g ∈ w.groups (w.symbols units) (w.revised units),
      (w.revisedGroup units ∘ Group.baseName) g = id g :=
    fun g hg => revisedGroup_eq.trans (mem_groups.mp hg).1.symm
  have hbases : (w.groups (w.symbols units) (w.revised units)).map Group.baseName =
      w.bases units := by
    rw [groups_eq_collect, List.map_map, bases, ← hkeys]
    refine (Entries.keys_collect _).trans (congrArg distinct ?_)
    simp [List.map_filterMap, revised, Function.comp_def]
  rw [← hbases, List.map_map, List.map_congr_left hgroup, List.map_id]

/-- The units put out: what was built for the base names, and what was passed on. -/
theorem mem_units_transform {v : CompilationUnit} : v ∈ (w.transform units).units ↔
    (∃ base ∈ w.bases units,
      (w.revisedGroup units base).build w.marker (w.symbols units) w.options = .ok v) ∨
    ∃ u ∈ units, w.groupName? (w.symbols units) u = none ∧ w.reviseWithin units u = v := by
  rw [units_transform, groups_revised, List.filterMap_map, List.mem_append, List.mem_filterMap]
  refine or_congr ?_ ?_
  · refine exists_congr fun base => and_congr_right fun _ => ?_
    rw [Function.comp_apply]
    cases (w.revisedGroup units base).build w.marker (w.symbols units) w.options <;>
      simp [Except.toOption]
  · simp only [others, revised, List.mem_filter, List.mem_map, Option.isNone_iff_eq_none]
    constructor
    · rintro ⟨⟨u, hu, rfl⟩, hnone⟩
      exact ⟨u, hu, groupName?_reviseWithin u ▸ hnone, rfl⟩
    · rintro ⟨u, hu, hnone, rfl⟩
      exact ⟨⟨u, hu, rfl⟩, (groupName?_reviseWithin u).trans hnone⟩

theorem others_revised : w.others (w.symbols units) (w.revised units) =
    (w.others (w.symbols units) units).map fun u => (w.reviseUnit (w.symbols units) u).1 := by
  rw [others, revised, List.filter_map, others]
  simp only [Function.comp_def, groupName?_reviseWithin]
  exact (List.map_congr_left fun u _ => w.reviseUnit_fst (w.symbols units) u).symm

/-- Revision leaves the names of types alone, and with them the versions. -/
theorem versionsUnder_revisedGroup (w : Weaver) (units : List CompilationUnit) (base : String) :
    Group.versionsUnder w.marker base (w.revisedGroup units base).types =
      Group.versionsUnder w.marker base
        ((w.unitsUnder units base).flatMap CompilationUnit.types) := by
  have htypes : (w.revisedGroup units base).types =
      ((w.unitsUnder units base).flatMap CompilationUnit.types).map
        (w.reviseType (w.symbols units)) := by
    rw [Group.types, revisedGroup, List.flatMap_map, List.map_flatMap]
    simp only [w.reviseUnit_fst]
  rw [htypes, Group.versionsUnder, List.filter_map, List.map_map]
  simp only [Function.comp_def, name_reviseType]
  rfl

/-- The primary type of any unit of a group is one of its versions. -/
theorem versionsUnder_ne_nil (h : base ∈ w.bases units) :
    Group.versionsUnder w.marker base
      ((w.unitsUnder units base).flatMap CompilationUnit.types) ≠ [] := by
  obtain ⟨u, hu⟩ := mem_bases.mp h
  have hname := (groupName?_eq_some.mp (mem_unitsUnder.mp hu).2).1
  obtain ⟨t, ht, hbase⟩ := Option.map_eq_some_iff.mp ((Option.map_map ..).symm.trans hname)
  have hmem : t ∈ (w.unitsUnder units base).flatMap CompilationUnit.types :=
    List.mem_flatMap.mpr ⟨u, hu, CompilationUnit.mem_types_of_primary? ht⟩
  rw [Group.versionsUnder, Ne, List.map_eq_nil_iff]
  exact List.ne_nil_of_mem (List.mem_filter.mpr ⟨hmem, decide_eq_true hbase⟩)

theorem versions_revisedGroup (h : base ∈ w.bases units) :
    (∃ vs, (w.revisedGroup units base).versions w.marker = .ok vs) ↔ ¬ w.Flawed units base := by
  have hversions := versionsUnder_revisedGroup w units base
  rw [Group.versions_isOk_iff, Flawed, not_or, Classical.not_not]
  change Group.versionsUnder w.marker base _ ≠ [] ∧ _ ∉ Group.versionsUnder w.marker base _ ∧
    (Group.versionsUnder w.marker base _).Nodup ↔ _
  rw [hversions]
  exact and_iff_right (versionsUnder_ne_nil h)

/-- A group without flaw is built. -/
theorem build_sound (h : base ∈ w.bases units) (hsound : ¬ w.Flawed units base) :
    ∃ unit, (w.revisedGroup units base).build w.marker (w.symbols units) w.options = .ok unit ∧
      unit.types.head?.map TypeDecl.name = some base := by
  obtain ⟨vs, hvs⟩ := (versions_revisedGroup h).mpr hsound
  obtain ⟨outer, hunified, hbuild⟩ := Group.build_of_versions (w.symbols units) w.options hvs
  refine ⟨_, hbuild, ?_⟩
  rw [Group.head?_types_compose, Option.map_some, hunified.name]
  rfl

/-- A group with a flaw is refused for it. -/
theorem build_flawed (h : base ∈ w.bases units) (hflawed : w.Flawed units base) :
    ∃ e, (w.revisedGroup units base).build w.marker (w.symbols units) w.options = .error e ∧
      ((∃ name, e = .unnumbered base name) ∨ ∃ n, e = .duplicate base n) := by
  cases hvs : (w.revisedGroup units base).versions w.marker with
  | ok vs => exact absurd hflawed ((versions_revisedGroup h).mp ⟨vs, hvs⟩)
  | error e =>
    exact ⟨e, Group.build_of_refused (w.symbols units) w.options hvs, Group.versions_eq_error hvs⟩

/--
Every unit is passed on or stands in the one group of its base. The flawed groups are the failures
and the others give one unit each, by first appearance and whatever becomes of the rest.
-/
theorem failures_exact (w : Weaver) (units : List CompilationUnit) :
    (w.bases units).Nodup ∧
    ((w.bases units).flatMap (w.unitsUnder units) ++ w.others (w.symbols units) units).Perm units ∧
    ∃ (unitOf : String → CompilationUnit) (errorOf : String → SynthesisError),
      (w.transform units).units =
        ((w.bases units).filter fun base => ¬ w.Flawed units base).map unitOf
          ++ (w.others (w.symbols units) units).map (fun u =>
            (w.reviseUnit (w.symbols units) u).1) ∧
      (w.transform units).failures =
        ((w.bases units).filter fun base => w.Flawed units base).map errorOf ∧
      ∀ base ∈ w.bases units,
        (¬ w.Flawed units base →
          (w.revisedGroup units base).build w.marker (w.symbols units) w.options =
              .ok (unitOf base) ∧
            (unitOf base).types.head?.map TypeDecl.name = some base) ∧
        (w.Flawed units base →
          (w.revisedGroup units base).build w.marker (w.symbols units) w.options =
              .error (errorOf base) ∧
            ((∃ name, errorOf base = .unnumbered base name) ∨
              ∃ n, errorOf base = .duplicate base n)) := by
  have hbuild : ∀ base, ∃ r : CompilationUnit × SynthesisError, base ∈ w.bases units →
      (¬ w.Flawed units base →
        (w.revisedGroup units base).build w.marker (w.symbols units) w.options = .ok r.1 ∧
          r.1.types.head?.map TypeDecl.name = some base) ∧
      (w.Flawed units base →
        (w.revisedGroup units base).build w.marker (w.symbols units) w.options = .error r.2 ∧
          ((∃ name, r.2 = .unnumbered base name) ∨ ∃ n, r.2 = .duplicate base n)) := by
    intro base
    by_cases hbase : base ∈ w.bases units
    · by_cases hflawed : w.Flawed units base
      · obtain ⟨e, he⟩ := build_flawed hbase hflawed
        exact ⟨(default, e), fun _ => ⟨fun h => absurd hflawed h, fun _ => he⟩⟩
      · obtain ⟨unit, hunit⟩ := build_sound hbase hflawed
        exact ⟨(unit, .unnumbered base base), fun _ => ⟨fun _ => hunit, fun h => absurd h hflawed⟩⟩
    · exact ⟨(default, .unnumbered base base), fun h => absurd h hbase⟩
  obtain ⟨result, hresult⟩ := Classical.skolem.mp hbuild
  refine ⟨nodup_distinct _, perm_keyed _ (nodup_distinct _) fun u hu base hbase => ?_,
    fun base => (result base).1, fun base => (result base).2, ?_, ?_, hresult⟩
  · exact mem_distinct.mpr (List.mem_filterMap.mpr ⟨u, hu, hbase⟩)
  · rw [units_transform, groups_revised, others_revised, List.filterMap_map]
    refine congrArg (· ++ _) (filterMap_eq_map_filter fun base hbase => ?_)
    by_cases hflawed : w.Flawed units base
    · simp [hflawed, ((hresult base hbase).2 hflawed).1, Except.toOption]
    · simp [hflawed, ((hresult base hbase).1 hflawed).1, Except.toOption]
  · rw [transform]
    dsimp only
    rw [map_reviseUnit, groups_revised, List.map_map, List.filterMap_map]
    refine filterMap_eq_map_filter fun base hbase => ?_
    by_cases hflawed : w.Flawed units base
    · simp [hflawed, ((hresult base hbase).2 hflawed).1]
    · simp [hflawed, ((hresult base hbase).1 hflawed).1]

end Weaver

end VersionWeave
