import VersionWeave.Proofs.Batch.Groups

namespace VersionWeave

namespace Weaver

variable {w : Weaver} {units : List CompilationUnit} {base : String}

/-- A unit after both passes of its batch. -/
def reviseWithin (w : Weaver) (units : List CompilationUnit) (u : CompilationUnit) :
    CompilationUnit :=
  { u with types := u.types.map (w.reviseType (w.symbols units)) }

def revised (w : Weaver) (units : List CompilationUnit) : List CompilationUnit :=
  units.map (w.reviseWithin units)

theorem primaryName?_reviseWithin (u : CompilationUnit) :
    (w.reviseWithin units u).primaryName? = u.primaryName? :=
  CompilationUnit.primaryName?_map (w.name_reviseType (w.symbols units))
    (w.modifiers_reviseType (w.symbols units)) u

theorem groupName?_reviseWithin (u : CompilationUnit) :
    w.groupName? (w.symbols units) (w.reviseWithin units u) = w.groupName? (w.symbols units) u := by
  rw [groupName?, groupName?, primaryName?_reviseWithin]

theorem map_reviseUnit (w : Weaver) (units : List CompilationUnit) :
    (units.map (w.reviseUnit (w.symbols units))).map Prod.fst = w.revised units := by
  rw [List.map_map, revised]
  exact List.map_congr_left fun u _ => w.reviseUnit_fst (w.symbols units) u

theorem units_transform (w : Weaver) (units : List CompilationUnit) : (w.transform units).units =
    (w.groups (w.symbols units) (w.revised units)).filterMap
        (fun g => (g.build w.marker (w.symbols units) w.options).toOption)
      ++ w.others (w.symbols units) (w.revised units) := by
  simp only [transform, map_reviseUnit, List.filterMap_map, Function.comp_def]

theorem mem_failures {g : Group} {e : SynthesisError}
    (hg : g ∈ w.groups (w.symbols units) (w.revised units))
    (he : g.build w.marker (w.symbols units) w.options = .error e) :
    e ∈ (w.transform units).failures := by
  simp only [transform, map_reviseUnit]
  exact List.mem_filterMap.mpr ⟨.error e, List.mem_map.mpr ⟨g, hg, he⟩, rfl⟩

/-- The group of a base name after both passes. -/
def group (w : Weaver) (units : List CompilationUnit) (base : String) : Group :=
  w.groupOf (w.symbols units) (w.revised units) base

theorem mem_group_units {v : CompilationUnit} : v ∈ (w.group units base).units ↔
    ∃ u ∈ units, w.groupName? (w.symbols units) u = some base ∧ w.reviseWithin units u = v := by
  simp only [group, groupOf, revised, List.mem_filter, List.mem_map, decide_eq_true_eq]
  constructor
  · rintro ⟨⟨u, hu, rfl⟩, hbase⟩
    exact ⟨u, hu, groupName?_reviseWithin u ▸ hbase, rfl⟩
  · rintro ⟨u, hu, hbase, rfl⟩
    exact ⟨⟨u, hu, rfl⟩, (groupName?_reviseWithin u).trans hbase⟩

theorem group_mem_groups {u : CompilationUnit} (hu : u ∈ units)
    (hbase : w.groupName? (w.symbols units) u = some base) :
    w.group units base ∈ w.groups (w.symbols units) (w.revised units) := by
  refine mem_groups.mpr ⟨rfl, fun hnil => ?_⟩
  have hmem : w.reviseWithin units u ∈ (w.group units base).units :=
    mem_group_units.mpr ⟨u, hu, hbase, rfl⟩
  simp [hnil] at hmem

/-- A group that no failure names is built, and its unit is put out. -/
theorem exists_built {u : CompilationUnit} (hu : u ∈ units)
    (hbase : w.groupName? (w.symbols units) u = some base)
    (hok : ∀ e ∈ (w.transform units).failures, e.baseName ≠ base) :
    ∃ vs outer, (w.group units base).versions w.marker = .ok vs ∧
      Group.Unified w.marker (w.symbols units) w.options base vs outer ∧
      (w.group units base).build w.marker (w.symbols units) w.options =
        .ok ((w.group units base).compose w.marker outer) ∧
      (w.group units base).compose w.marker outer ∈ (w.transform units).units := by
  have hmem := group_mem_groups hu hbase
  rcases Group.build_cases w.marker (w.symbols units) w.options (w.group units base) with
    ⟨vs, outer, hvs, hunified, hbuild⟩ | ⟨e, he, hbuild⟩
  · refine ⟨vs, outer, hvs, hunified, hbuild, ?_⟩
    rw [units_transform]
    exact List.mem_append_left _ (List.mem_filterMap.mpr ⟨_, hmem, by rw [hbuild]; rfl⟩)
  · exact absurd he (hok e (mem_failures hmem hbuild))

theorem mem_units_of_not_grouped {u : CompilationUnit} (hu : u ∈ units)
    (hnone : w.groupName? (w.symbols units) u = none) :
    w.reviseWithin units u ∈ (w.transform units).units := by
  rw [units_transform]
  refine List.mem_append_right _ (List.mem_filter.mpr ⟨List.mem_map.mpr ⟨u, hu, rfl⟩, ?_⟩)
  rw [groupName?_reviseWithin, hnone]
  rfl

/-- A type that carries an ordinal makes its base name a versioned one. -/
theorem isVersioned_symbols {u : CompilationUnit} {t : TypeDecl} (hu : u ∈ units) (ht : t ∈ u.types)
    (hv : w.marker.isVersioned t.name = true) :
    (w.symbols units).isVersioned (w.marker.baseName t.name) = true :=
  SymbolTable.isVersioned_build_iff.mpr ⟨t, List.mem_flatMap.mpr ⟨u, hu, ht⟩, rfl, hv⟩

theorem groupName?_eq_some {u : CompilationUnit} : w.groupName? (w.symbols units) u = some base ↔
    u.primaryName?.map w.marker.baseName = some base ∧
      (w.symbols units).isVersioned base = true := by
  rw [groupName?, Option.filter_eq_some_iff]

/-- A unit that belongs to no versioned base name is not named like one either. -/
theorem primaryName?_of_not_grouped (hv : (w.symbols units).isVersioned base = true)
    {u : CompilationUnit} (hu : u ∈ units) (hnone : w.groupName? (w.symbols units) u = none) :
    u.primaryName? ≠ some base := by
  intro hname
  obtain ⟨t, ht, rfl⟩ := Option.map_eq_some_iff.mp hname
  have hversioned : (w.symbols units).isVersioned (w.marker.baseName t.name) = true := by
    cases hmark : w.marker.isVersioned t.name with
    | true => exact isVersioned_symbols hu (CompilationUnit.mem_types_of_primary? ht) hmark
    | false => rwa [Marker.baseName_of_not_versioned hmark]
  have hsome := groupName?_eq_some.mpr ⟨congrArg (Option.map w.marker.baseName) hname, hversioned⟩
  cases hnone.symm.trans hsome

/-- A group that was formed is the group of a versioned base name. -/
theorem eq_group_of_mem {g : Group} (hg : g ∈ w.groups (w.symbols units) (w.revised units)) :
    g = w.group units g.baseName ∧ (w.symbols units).isVersioned g.baseName = true := by
  obtain ⟨hgroup, hne⟩ := mem_groups.mp hg
  refine ⟨hgroup, ?_⟩
  obtain ⟨v, hv⟩ := List.exists_mem_of_ne_nil _ hne
  rw [hgroup] at hv
  obtain ⟨u, -, hname, -⟩ := mem_group_units.mp hv
  exact (groupName?_eq_some.mp hname).2

theorem mem_types_group {x : TypeDecl} : x ∈ (w.group units base).types ↔
    ∃ u ∈ units, w.groupName? (w.symbols units) u = some base ∧
      ∃ t ∈ u.types, w.reviseType (w.symbols units) t = x := by
  simp only [Group.types, List.mem_flatMap, mem_group_units]
  constructor
  · rintro ⟨_, ⟨u, hu, hgroup, rfl⟩, hx⟩
    exact ⟨u, hu, hgroup, List.mem_map.mp hx⟩
  · rintro ⟨u, hu, hgroup, hx⟩
    exact ⟨_, ⟨u, hu, hgroup, rfl⟩, List.mem_map.mpr hx⟩

/-- A version of a base name as the batch declares it, in a unit that goes into its group. -/
def Declares (w : Weaver) (units : List CompilationUnit) (base : String) (n : UInt32)
    (t : TypeDecl) : Prop :=
  (∃ u ∈ units, w.groupName? (w.symbols units) u = some base ∧ t ∈ u.types) ∧
    w.marker.parse t.name = ⟨base, .numbered n⟩

/-- The versions of a group are the declared ones, after both passes. -/
theorem mem_versions_group {vs : List VersionDecl}
    (hvs : (w.group units base).versions w.marker = .ok vs) {v : VersionDecl} : v ∈ vs ↔
      ∃ t, w.Declares units base v.ordinal t ∧ w.reviseType (w.symbols units) t = v.decl := by
  rw [Group.mem_versions hvs, mem_types_group]
  constructor
  · rintro ⟨⟨u, hu, hgroup, t, ht, hrevised⟩, hparse⟩
    refine ⟨t, ⟨⟨u, hu, hgroup, ht⟩, ?_⟩, hrevised⟩
    rw [← w.name_reviseType (w.symbols units) t, hrevised]
    exact hparse
  · rintro ⟨t, ⟨⟨u, hu, hgroup, ht⟩, hparse⟩, hrevised⟩
    refine ⟨⟨u, hu, hgroup, t, ht, hrevised⟩, ?_⟩
    rw [← hrevised, name_reviseType]
    exact hparse

end Weaver

namespace Group

variable {marker : Marker} {base : String}

/-- Of several types of one name the first comes along, unless the name is there already. -/
theorem mem_bystanders (marker : Marker) (base : String) (ts : List TypeDecl) :
    ∀ types : List TypeDecl, ∃ added,
    ts.foldl (addBystander marker base) types = types ++ added ∧
      ∀ t, t ∈ added ↔ marker.baseName t.name ≠ base ∧ (∀ s ∈ types, s.name ≠ t.name) ∧
        ∃ before after, ts = before ++ t :: after ∧ ∀ s ∈ before, s.name ≠ t.name := by
  induction ts with
  | nil => exact fun types => ⟨[], by simp, by simp⟩
  | cons x rest ih =>
    intro types
    rw [List.foldl_cons, addBystander]
    split
    next hskip =>
      obtain ⟨added, hadded, hmem⟩ := ih types
      refine ⟨added, hadded, fun t => (hmem t).trans ?_⟩
      refine and_congr_right fun hbase => and_congr_right fun hnames => ?_
      have hx : x.name ≠ t.name := by
        intro h
        simp only [h, hbase, decide_false, Bool.false_or, List.any_eq_true, beq_iff_eq] at hskip
        obtain ⟨s, hs, hsx⟩ := hskip
        exact hnames s hs hsx
      constructor
      · rintro ⟨before, after, rfl, hbefore⟩
        exact ⟨x :: before, after, rfl, List.forall_mem_cons.mpr ⟨hx, hbefore⟩⟩
      · rintro ⟨before, after, hsplit, hbefore⟩
        cases before with
        | nil => exact absurd (congrArg TypeDecl.name (List.cons.inj hsplit).1) hx
        | cons y before =>
          obtain ⟨rfl, rfl⟩ := List.cons.inj hsplit
          exact ⟨before, after, rfl, (List.forall_mem_cons.mp hbefore).2⟩
    next hnew =>
      obtain ⟨added, hadded, hmem⟩ := ih (types ++ [x])
      simp only [Bool.or_eq_true, decide_eq_true_eq, List.any_eq_true, beq_iff_eq, not_or,
        not_exists, not_and] at hnew
      refine ⟨x :: added, by rw [hadded, List.append_assoc]; rfl, fun t => ?_⟩
      rw [List.mem_cons, hmem, List.forall_mem_append, List.forall_mem_singleton]
      constructor
      · rintro (rfl | ⟨hbase, ⟨hnames, hx⟩, before, after, rfl, hbefore⟩)
        · exact ⟨hnew.1, hnew.2, [], rest, rfl, fun s hs => absurd hs List.not_mem_nil⟩
        · exact ⟨hbase, hnames, x :: before, after, rfl, List.forall_mem_cons.mpr ⟨hx, hbefore⟩⟩
      · rintro ⟨hbase, hnames, before, after, hsplit, hbefore⟩
        cases before with
        | nil => exact .inl (List.cons.inj hsplit).1.symm
        | cons y before =>
          obtain ⟨rfl, rfl⟩ := List.cons.inj hsplit
          obtain ⟨hx, hbefore⟩ := List.forall_mem_cons.mp hbefore
          exact .inr ⟨hbase, ⟨hnames, hx⟩, before, after, rfl, hbefore⟩

/-- The bystanders come after what is there already, one for each name. -/
theorem foldl_addBystander (ts types : List TypeDecl) :
    (∀ x ∈ types, x ∈ ts.foldl (addBystander marker base) types) ∧
      ∀ t ∈ ts, marker.baseName t.name ≠ base →
        ∃ x ∈ ts.foldl (addBystander marker base) types, x.name = t.name := by
  obtain ⟨added, hall, hadded⟩ := mem_bystanders marker base ts types
  rw [hall]
  refine ⟨fun x hx => List.mem_append_left _ hx, fun t ht hbase => ?_⟩
  by_cases htaken : ∃ s ∈ types, s.name = t.name
  · obtain ⟨s, hs, hname⟩ := htaken
    exact ⟨s, List.mem_append_left _ hs, hname⟩
  · have hfirst : (ts.find? fun s => s.name = t.name).isSome :=
      List.find?_isSome.mpr ⟨t, ht, decide_eq_true rfl⟩
    obtain ⟨first, hfind⟩ := Option.isSome_iff_exists.mp hfirst
    obtain ⟨hname, before, after, hsplit, hbefore⟩ := List.find?_eq_some_iff_append.mp hfind
    simp only [decide_eq_true_eq, Bool.not_eq_true', decide_eq_false_iff_not] at hname hbefore
    refine ⟨first, List.mem_append_right _ ((hadded first).mpr ?_), hname⟩
    rw [hname]
    exact ⟨hbase, fun s hs h => htaken ⟨s, hs, h⟩, before, after, hsplit, hbefore⟩

theorem foldl_addBystander_eq {ts : List TypeDecl} (h : ∀ t ∈ ts, marker.baseName t.name = base)
    (types : List TypeDecl) : ts.foldl (addBystander marker base) types = types := by
  induction ts generalizing types with
  | nil => rfl
  | cons t rest ih =>
    obtain ⟨ht, hrest⟩ := List.forall_mem_cons.mp h
    rw [List.foldl_cons, addBystander, if_pos (by simp [ht]), ih hrest]

end Group

end VersionWeave
