import VersionWeave.Proofs.Batch.Outcome

namespace VersionWeave

/-- The units put out that have a top-level type of this name. -/
def Outcome.unitsOf (o : Outcome) (name : String) : List CompilationUnit :=
  o.units.filter fun u => u.types.any fun t => t.name = name

/-- Every unit of the batch has exactly one top-level type. -/
def OnePerUnit (units : List CompilationUnit) : Prop :=
  ∀ u ∈ units, u.types.length = 1

instance (units : List CompilationUnit) : Decidable (OnePerUnit units) :=
  inferInstanceAs (Decidable (∀ u ∈ units, u.types.length = 1))

namespace Weaver

variable {w : Weaver} {units : List CompilationUnit} {base : String}

theorem primaryName?_of_types {u : CompilationUnit} {t : TypeDecl} (h : u.types = [t]) :
    u.primaryName? = some t.name := by
  by_cases hp : t.modifiers.isPublic <;>
    simp [CompilationUnit.primaryName?, CompilationUnit.primary?, h, hp]

theorem groupName?_of_types {u : CompilationUnit} {t : TypeDecl} (h : u.types = [t]) :
    w.groupName? (w.symbols units) u =
      if (w.symbols units).isVersioned (w.marker.baseName t.name) then
        some (w.marker.baseName t.name)
      else none := by
  rw [groupName?, primaryName?_of_types h, Option.map_some, Option.filter_some]

/-- The group of a versioned base name holds the declarations under it, revised. -/
theorem types_group (hone : OnePerUnit units)
    (hv : (w.symbols units).isVersioned base = true) :
    (w.group units base).types =
      (declarations w.marker units base).map (w.reviseType (w.symbols units)) := by
  have hall : ∀ us : List CompilationUnit, OnePerUnit us →
      ((us.map (w.reviseWithin units)).filter fun u =>
          w.groupName? (w.symbols units) u = some base).flatMap CompilationUnit.types =
        (declarations w.marker us base).map (w.reviseType (w.symbols units)) := by
    intro us hone
    induction us with
    | nil => rfl
    | cons u rest ih =>
      obtain ⟨hu, hrest⟩ := List.forall_mem_cons.mp hone
      obtain ⟨t, ht⟩ := List.length_eq_one_iff.mp hu
      have hname : w.groupName? (w.symbols units) u = some base ↔
          w.marker.baseName t.name = base := by
        rw [groupName?_of_types ht]
        constructor
        · intro h
          simpa using (Option.ite_none_right_eq_some.mp h).2
        · rintro rfl
          rw [if_pos hv]
      have htypes : (w.reviseWithin units u).types = [w.reviseType (w.symbols units) t] := by
        rw [reviseWithin, ht, List.map_singleton]
      have hdecls : declarations w.marker (u :: rest) base =
          [t].filter (fun t => w.marker.baseName t.name = base) ++
            declarations w.marker rest base := by
        rw [declarations, List.flatMap_cons, List.filter_append, ht]
        rfl
      rw [List.map_cons, List.filter_cons, groupName?_reviseWithin, hdecls]
      by_cases hb : w.marker.baseName t.name = base
      · simp [hname, hb, htypes, ih hrest]
      · simp [hname, hb, ih hrest]
  exact hall units hone

theorem baseName_of_mem_group (hone : OnePerUnit units) {g : Group}
    (hg : g ∈ w.groups (w.symbols units) (w.revised units)) :
    ∀ t ∈ g.types, w.marker.baseName t.name = g.baseName := by
  intro t ht
  obtain ⟨v, hv, ht⟩ := List.mem_flatMap.mp ht
  rw [(mem_groups.mp hg).1] at hv
  obtain ⟨u, hu, hname, rfl⟩ := mem_group_units.mp hv
  obtain ⟨t', ht'⟩ := List.length_eq_one_iff.mp (hone u hu)
  rw [groupName?_of_types ht'] at hname
  simp only [reviseWithin, ht', List.map_singleton, List.mem_singleton] at ht
  subst ht
  rw [name_reviseType]
  simpa using (Option.ite_none_right_eq_some.mp hname).2

theorem types_of_build (hone : OnePerUnit units) {g : Group}
    (hg : g ∈ w.groups (w.symbols units) (w.revised units)) {unit : CompilationUnit}
    (h : g.build w.marker (w.symbols units) w.options = .ok unit) :
    ∃ outer : TypeDecl, unit.types = [outer] ∧ outer.name = g.baseName := by
  rcases Group.build_cases w.marker (w.symbols units) w.options g with
    ⟨vs, outer, -, hunified, hbuild⟩ | ⟨e, -, hbuild⟩
  · cases hbuild.symm.trans h
    exact ⟨outer, Group.foldl_addBystander_eq (baseName_of_mem_group hone hg) _, hunified.name⟩
  · cases hbuild.symm.trans h

theorem name_of_not_grouped (hv : (w.symbols units).isVersioned base = true) {u : CompilationUnit}
    (hu : u ∈ units) {t : TypeDecl} (ht : u.types = [t])
    (hnone : w.groupName? (w.symbols units) u = none) : t.name ≠ base :=
  fun h => primaryName?_of_not_grouped hv hu hnone ((primaryName?_of_types ht).trans (congrArg some h))

/-- The unit built for a versioned base name is the only one that has a type of this name. -/
theorem unitsOf_of_build (hone : OnePerUnit units)
    (hv : (w.symbols units).isVersioned base = true) {unit : CompilationUnit}
    (hgroup : w.group units base ∈ w.groups (w.symbols units) (w.revised units))
    (hbuild : (w.group units base).build w.marker (w.symbols units) w.options = .ok unit) :
    (w.transform units).unitsOf base = [unit] := by
  have hothers : (w.others (w.symbols units) (w.revised units)).filter
      (fun u => u.types.any fun t => t.name = base) = [] := by
    rw [List.filter_eq_nil_iff]
    intro x hx hany
    obtain ⟨hx, hnone⟩ := List.mem_filter.mp hx
    obtain ⟨v, hv', rfl⟩ := List.mem_map.mp hx
    obtain ⟨s, hs⟩ := List.length_eq_one_iff.mp (hone v hv')
    rw [groupName?_reviseWithin, Option.isNone_iff_eq_none] at hnone
    refine name_of_not_grouped hv hv' hs hnone ?_
    simpa [reviseWithin, hs] using hany
  rw [Outcome.unitsOf, units_transform, List.filter_append, hothers, List.append_nil]
  refine filter_filterMap_eq_singleton nodup_groups hgroup (by rw [hbuild]; rfl) ?_
  intro g hg unit hunit
  cases hg' : g.build w.marker (w.symbols units) w.options with
  | error e => rw [hg'] at hunit; cases hunit
  | ok unit' =>
    rw [hg'] at hunit
    cases hunit
    obtain ⟨o, ho, honame⟩ := types_of_build hone hg hg'
    simp [ho, honame, group, groupOf]

theorem exists_grouped (hone : OnePerUnit units) (hv : (w.symbols units).isVersioned base = true) :
    ∃ u ∈ units, w.groupName? (w.symbols units) u = some base := by
  obtain ⟨t, ht, hbase, -⟩ := SymbolTable.isVersioned_build_iff.mp hv
  obtain ⟨u, hu, ht⟩ := List.mem_flatMap.mp ht
  obtain ⟨t', ht'⟩ := List.length_eq_one_iff.mp (hone u hu)
  obtain rfl : t = t' := by simpa [ht'] using ht
  exact ⟨u, hu, by rw [groupName?_of_types ht', hbase, if_pos hv]⟩

/-- A versioned base name without failure has one unit, which holds its unified type alone. -/
theorem unitsOf_transform (hone : OnePerUnit units)
    (hv : (w.symbols units).isVersioned base = true)
    (hok : ∀ e ∈ (w.transform units).failures, e.baseName ≠ base) :
    ∃ unit outer vs, (w.transform units).unitsOf base = [unit] ∧ unit.types = [outer] ∧
      Group.Unified w.marker (w.symbols units) w.options base vs outer ∧
      vs.Perm ((declarations w.marker units base).filterMap fun t =>
        Group.version? w.marker base (w.reviseType (w.symbols units) t)) ∧
      (vs.map VersionDecl.ordinal).Nodup := by
  obtain ⟨u, hu, hname⟩ := exists_grouped hone hv
  obtain ⟨vs, outer, hvs, hunified, hbuild, -⟩ := exists_built hu hname hok
  have hgroup := group_mem_groups hu hname
  obtain ⟨hperm, hnodup⟩ := Group.versions_eq_ok hvs
  rw [types_group hone hv, List.filterMap_map] at hperm
  have htypes : ((w.group units base).compose w.marker outer).types = [outer] :=
    Group.foldl_addBystander_eq (baseName_of_mem_group hone hgroup) _
  exact ⟨_, outer, vs, unitsOf_of_build hone hv hgroup hbuild, htypes, hunified, hperm, hnodup⟩

end Weaver

end VersionWeave
