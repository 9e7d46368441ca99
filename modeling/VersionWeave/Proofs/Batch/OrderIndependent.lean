import VersionWeave.Proofs.Batch.Alike
import VersionWeave.Proofs.Batch.PinnedStubs

namespace VersionWeave

/-- The same type but for the order of the pairs of accessors at the end of its members. -/
def TypeDecl.SameUpToPairs (naming : Naming) (t t' : TypeDecl) : Prop :=
  ∃ (front : TypeDecl) (pairs pairs' : List (List Member)),
    t = front.append pairs.flatten ∧ t' = front.append pairs'.flatten ∧ pairs.Perm pairs' ∧
      ∀ p ∈ pairs, ∃ field ty n, p = [.method (Accessor.getter naming field ty n),
        .method (Accessor.setter naming field ty n)]

namespace Accessor

/-- The pairs of accessors of a base name, without the fields that have none. -/
def pairs (options : Options) (table : SymbolTable) (base : String) (vs : List VersionDecl) :
    List (List Member) :=
  match options.generateAccessors, table.get? base with
  | true, some owner =>
    (owner.fields.keys.map (pair options.naming owner vs)).filter fun p => !p.isEmpty
  | _, _ => []

theorem flatten_pairs (options : Options) (table : SymbolTable) (base : String)
    (vs : List VersionDecl) :
    (pairs options table base vs).flatten = members options table base vs := by
  unfold pairs members
  cases options.generateAccessors with
  | false => rfl
  | true =>
    cases table.get? base with
    | none => rfl
    | some owner => exact List.flatten_filter_not_isEmpty

theorem exists_of_mem_pairs {options : Options} {table : SymbolTable} {base : String}
    {vs : List VersionDecl} {p : List Member} (h : p ∈ pairs options table base vs) :
    ∃ field ty n, p = [.method (getter options.naming field ty n),
      .method (setter options.naming field ty n)] := by
  unfold pairs at h
  split at h
  next owner _ _ =>
    obtain ⟨hp, hne⟩ := List.mem_filter.mp h
    obtain ⟨field, -, rfl⟩ := List.mem_map.mp hp
    unfold pair at hne ⊢
    cases hbest : owner.accessorOwner? field with
    | none => simp [hbest] at hne
    | some best => exact ⟨field, _, best.1, rfl⟩
  next => simp at h

/-- Alike tables give the same pairs, in another order. -/
theorem pairs_perm (options : Options) {table table' : SymbolTable} (h : table.Alike table')
    (base : String) (vs : List VersionDecl) :
    (pairs options table base vs).Perm (pairs options table' base vs) := by
  have hbase := h base
  unfold pairs
  generalize table.get? base = c at hbase ⊢
  generalize table'.get? base = c' at hbase ⊢
  cases options.generateAccessors with
  | false => exact .refl _
  | true =>
    cases hbase with
    | none => exact .refl _
    | @some c c' hc =>
      have hpair : pair options.naming c vs = pair options.naming c' vs := by
        funext field
        rw [pair, pair, hc.accessorOwner?_eq]
      dsimp only
      rw [hpair]
      exact (hc.fieldNames.map _).filter _

end Accessor

namespace Group

variable {marker : Marker} {table table' : SymbolTable} {options : Options}

/-- Over alike tables the unified types of some versions differ in the order of accessors only. -/
theorem outer_alike (h : table.Alike table') (base : String) (vs : List VersionDecl) :
    (∃ outer outer', Group.outer marker table options base vs = .ok outer ∧
      Group.outer marker table' options base vs = .ok outer' ∧
      outer.SameUpToPairs options.naming outer') ∨
    ∃ e, Group.outer marker table options base vs = .error e ∧
      Group.outer marker table' options base vs = .error e := by
  rw [outer_eq_map, outer_eq_map]
  cases bareOuter marker options.naming base vs with
  | error e => exact .inr ⟨e, rfl, rfl⟩
  | ok front =>
    refine .inl ⟨_, _, rfl, rfl, front, Accessor.pairs options table base vs,
      Accessor.pairs options table' base vs, ?_, ?_, Accessor.pairs_perm options h base vs,
      fun p hp => Accessor.exists_of_mem_pairs hp⟩
    · rw [Accessor.flatten_pairs]
    · rw [Accessor.flatten_pairs]

/-- Groups with the same declarations yield the same unified type up to accessors, or fail alike. -/
theorem build_alike (h : table.Alike table') {g g' : Group} (hbase : g.baseName = g'.baseName)
    (hperm : g.types.Perm g'.types) (hnodup : (g.types.map fun t => marker.parse t.name).Nodup) :
    (∃ outer outer', g.build marker table options = .ok (g.compose marker outer) ∧
      g'.build marker table' options = .ok (g'.compose marker outer') ∧
      outer.SameUpToPairs options.naming outer') ∨
    ∃ e, g.build marker table options = .error e ∧ g'.build marker table' options = .error e := by
  unfold build
  rw [← versions_eq_of_perm hbase hperm hnodup, ← hbase]
  cases g.versions marker with
  | error e => exact .inr ⟨e, rfl, rfl⟩
  | ok vs =>
    dsimp only [bind, Except.bind]
    rcases outer_alike h g.baseName vs with ⟨outer, outer', houter, houter', hsame⟩ | ⟨e, he, he'⟩
    · rw [houter, houter']
      exact .inl ⟨outer, outer', rfl, rfl, hsame⟩
    · rw [he, he']
      exact .inr ⟨e.cause, rfl, rfl⟩

end Group

namespace Weaver

variable {w : Weaver} {units units' : List CompilationUnit} {base : String}

/-- The units put out that hold no type named like a versioned base name of the batch. -/
def passedThrough (w : Weaver) (units : List CompilationUnit) : List CompilationUnit :=
  (w.transform units).units.filter fun u => !u.types.any fun t => (w.symbols units).isVersioned t.name

theorem passedThrough_eq_others (hone : OnePerUnit units) :
    w.passedThrough units = w.others (w.symbols units) (w.revised units) := by
  have hbuilt : ((w.groups (w.symbols units) (w.revised units)).filterMap
      fun g => (g.build w.marker (w.symbols units) w.options).toOption).filter
        (fun u => !u.types.any fun t => (w.symbols units).isVersioned t.name) = [] := by
    rw [List.filter_eq_nil_iff]
    intro unit hunit
    obtain ⟨g, hg, hunit⟩ := List.mem_filterMap.mp hunit
    cases hbuild : g.build w.marker (w.symbols units) w.options with
    | error e => rw [hbuild] at hunit; cases hunit
    | ok unit' =>
      rw [hbuild] at hunit
      cases hunit
      obtain ⟨outer, htypes, hname⟩ := types_of_build hone hg hbuild
      simp [htypes, hname, (eq_group_of_mem hg).2]
  have hothers : (w.others (w.symbols units) (w.revised units)).filter
      (fun u => !u.types.any fun t => (w.symbols units).isVersioned t.name) =
        w.others (w.symbols units) (w.revised units) := by
    refine List.filter_eq_self.mpr fun v hv => ?_
    obtain ⟨hv, hnone⟩ := List.mem_filter.mp hv
    obtain ⟨u, hu, rfl⟩ := List.mem_map.mp hv
    obtain ⟨t, ht⟩ := List.length_eq_one_iff.mp (hone u hu)
    rw [groupName?_reviseWithin, Option.isNone_iff_eq_none] at hnone
    have hname : (w.symbols units).isVersioned t.name = false := by
      cases hversioned : (w.symbols units).isVersioned t.name with
      | false => rfl
      | true => exact absurd rfl (name_of_not_grouped hversioned hu ht hnone)
    simp [reviseWithin, ht, hname]
  rw [passedThrough, units_transform, List.filter_append, hbuilt, hothers, List.nil_append]

theorem failures_transform (w : Weaver) (units : List CompilationUnit) :
    (w.transform units).failures =
      ((w.groups (w.symbols units) (w.revised units)).map Group.baseName).filterMap fun base =>
        match (w.group units base).build w.marker (w.symbols units) w.options with
        | .error e => some e
        | .ok _ => none := by
  simp only [transform, map_reviseUnit, List.filterMap_map]
  refine List.filterMap_congr fun g hg => ?_
  have hgroup : (w.group units g.baseName).build w.marker (w.symbols units) w.options =
      g.build w.marker (w.symbols units) w.options := by
    rw [← (eq_group_of_mem hg).1]
  cases hbuild : g.build w.marker (w.symbols units) w.options with
  | error e => simp [hgroup, hbuild]
  | ok unit => simp [hgroup, hbuild]

theorem mem_groups_baseName : base ∈ (w.groups (w.symbols units) (w.revised units)).map Group.baseName ↔
    ∃ u ∈ units, w.groupName? (w.symbols units) u = some base := by
  rw [List.mem_map]
  constructor
  · rintro ⟨g, hg, rfl⟩
    obtain ⟨hgroup, hne⟩ := mem_groups.mp hg
    obtain ⟨v, hv⟩ := List.exists_mem_of_ne_nil _ hne
    rw [hgroup] at hv
    obtain ⟨u, hu, hname, -⟩ := mem_group_units.mp hv
    exact ⟨u, hu, hname⟩
  · rintro ⟨u, hu, hname⟩
    exact ⟨_, group_mem_groups hu hname, rfl⟩

section Perm

variable (hperm : units.Perm units') (hnames : DistinctNames w.marker units)
include hperm hnames

theorem symbols_alike : (w.symbols units).Alike (w.symbols units') :=
  SymbolTable.build_alike hperm hnames

theorem groupName?_perm (u : CompilationUnit) :
    w.groupName? (w.symbols units) u = w.groupName? (w.symbols units') u := by
  have hversioned : (w.symbols units).isVersioned = (w.symbols units').isVersioned :=
    funext (symbols_alike hperm hnames).isVersioned
  rw [groupName?, groupName?, hversioned]

theorem revised_perm : (w.revised units).Perm (w.revised units') := by
  have hsame : w.reviseWithin units = w.reviseWithin units' := by
    funext u
    rw [reviseWithin, reviseWithin, funext (w.reviseType_alike (symbols_alike hperm hnames))]
  rw [revised, revised, hsame]
  exact hperm.map _

theorem stats_perm : (w.transform units).stats = (w.transform units').stats := by
  have hsame : w.reviseUnit (w.symbols units) = w.reviseUnit (w.symbols units') :=
    funext (w.reviseUnit_alike (symbols_alike hperm hnames))
  simp only [transform, hsame]
  refine (hperm.map _).foldl_eq' (fun a _ b _ total => ?_) _
  simp only [Stats.add, Stats.mk.injEq]
  exact ⟨Nat.add_right_comm _ _ _, Nat.add_right_comm _ _ _⟩

theorem others_perm : (w.others (w.symbols units) (w.revised units)).Perm
    (w.others (w.symbols units') (w.revised units')) := by
  have hname : w.groupName? (w.symbols units) = w.groupName? (w.symbols units') :=
    funext (groupName?_perm hperm hnames)
  rw [others, others, hname]
  exact (revised_perm hperm hnames).filter _

theorem build_group_perm (hone : OnePerUnit units)
    (hv : (w.symbols units).isVersioned base = true) :
    (∃ outer outer', (w.group units base).build w.marker (w.symbols units) w.options =
        .ok ((w.group units base).compose w.marker outer) ∧
      (w.group units' base).build w.marker (w.symbols units') w.options =
        .ok ((w.group units' base).compose w.marker outer') ∧
      outer.SameUpToPairs w.options.naming outer') ∨
    ∃ e, (w.group units base).build w.marker (w.symbols units) w.options = .error e ∧
      (w.group units' base).build w.marker (w.symbols units') w.options = .error e := by
  have hname : w.groupName? (w.symbols units) = w.groupName? (w.symbols units') :=
    funext (groupName?_perm hperm hnames)
  refine Group.build_alike (symbols_alike hperm hnames) rfl ?_ ?_
  · simp only [group, groupOf, Group.types, hname]
    exact ((revised_perm hperm hnames).filter _).flatMap_right _
  · rw [types_group hone hv, List.map_map]
    simpa [Function.comp_def] using hnames.declarations base

theorem failures_perm (hone : OnePerUnit units) :
    (w.transform units).failures.Perm (w.transform units').failures := by
  have hbases : ((w.groups (w.symbols units) (w.revised units)).map Group.baseName).Perm
      ((w.groups (w.symbols units') (w.revised units')).map Group.baseName) := by
    refine (List.perm_ext_iff_of_nodup nodup_groups nodup_groups).mpr fun base => ?_
    rw [mem_groups_baseName, mem_groups_baseName, funext (groupName?_perm hperm hnames)]
    simp only [hperm.mem_iff]
  rw [failures_transform, failures_transform]
  refine (hbases.filterMap _).trans (.of_eq (List.filterMap_congr fun base hbase => ?_))
  obtain ⟨u, -, hname⟩ := mem_groups_baseName.mp (hbases.mem_iff.mpr hbase)
  rcases build_group_perm hperm hnames hone (groupName?_eq_some.mp hname).2 with
    ⟨outer, outer', hbuild, hbuild', -⟩ | ⟨e, hbuild, hbuild'⟩
  · rw [hbuild, hbuild']
  · rw [hbuild, hbuild']

end Perm

/--
The order of a batch does not matter: to run it in another order gives the same failures in some
order, the same counters, the same units passed through in some order, and for every versioned base
name without failure the same unified type up to the order of its pairs of accessors.
-/
theorem transform_perm (w : Weaver) (units units' : List CompilationUnit)
    (hperm : units.Perm units') (hone : OnePerUnit units) (hnames : DistinctNames w.marker units) :
    (w.transform units).failures.Perm (w.transform units').failures ∧
    (w.transform units).stats = (w.transform units').stats ∧
    (w.passedThrough units).Perm (w.passedThrough units') ∧
    ∀ base, (w.symbols units).isVersioned base = true →
      (∀ e ∈ (w.transform units).failures, e.baseName ≠ base) →
        ∃ unit unit' outer outer', (w.transform units).unitsOf base = [unit] ∧
          (w.transform units').unitsOf base = [unit'] ∧ unit.types = [outer] ∧
          unit'.types = [outer'] ∧ outer.SameUpToPairs w.options.naming outer' := by
  have hone' : OnePerUnit units' := fun u hu => hone u (hperm.mem_iff.mpr hu)
  have hfailures := failures_perm hperm hnames hone
  refine ⟨hfailures, stats_perm hperm hnames, ?_, fun base hv hok => ?_⟩
  · rw [passedThrough_eq_others hone, passedThrough_eq_others hone']
    exact others_perm hperm hnames
  · have hv' : (w.symbols units').isVersioned base = true :=
      (symbols_alike hperm hnames).isVersioned base ▸ hv
    obtain ⟨u, hu, hname⟩ := exists_grouped hone hv
    obtain ⟨u', hu', hname'⟩ := exists_grouped hone' hv'
    have hgroup := group_mem_groups hu hname
    have hgroup' := group_mem_groups hu' hname'
    rcases build_group_perm hperm hnames hone hv with
      ⟨outer, outer', hbuild, hbuild', hsame⟩ | ⟨e, hbuild, -⟩
    · exact ⟨_, _, outer, outer', unitsOf_of_build hone hv hgroup hbuild,
        unitsOf_of_build hone' hv' hgroup' hbuild',
        Group.foldl_addBystander_eq (baseName_of_mem_group hone hgroup) _,
        Group.foldl_addBystander_eq (baseName_of_mem_group hone' hgroup') _, hsame⟩
    · have hbase : e.baseName = base := by
        rcases Group.build_cases w.marker (w.symbols units) w.options (w.group units base) with
          ⟨vs, outer, -, -, hok'⟩ | ⟨e', he', herror⟩
        · cases hbuild.symm.trans hok'
        · cases hbuild.symm.trans herror
          exact he'
      exact absurd hbase (hok e (mem_failures hgroup hbuild))

/-- Two versions with a field each, and a base name that one declaration leaves without ordinal. -/
def meters : List CompilationUnit :=
  [{ types := [{ name := "Meter__1__", members := [.field (.single .pub (.plain "int") "low")] }] },
    { types := [{ name := "Meter__2__", members := [.field (.single .pub (.plain "int") "high")] }] },
    { types := [{ name := "Lamp__1__" }] },
    { types := [{ name := "Lamp" }] }]

theorem transform_perm_meters :
    (transform {} meters).failures = [.unnumbered "Lamp" "Lamp"] ∧
    (transform {} meters).failures.Perm (transform {} meters.reverse).failures ∧
    ∃ unit unit' outer outer', (transform {} meters).unitsOf "Meter" = [unit] ∧
      (transform {} meters.reverse).unitsOf "Meter" = [unit'] ∧ unit.types = [outer] ∧
      unit'.types = [outer'] ∧ outer.SameUpToPairs {} outer' ∧
      outer.methods.map MethodDecl.name ≠ outer'.methods.map MethodDecl.name := by
  obtain ⟨hfailures, -, -, houter⟩ := transform_perm {} meters meters.reverse
    (List.reverse_perm meters).symm (by decide) (by decide +kernel)
  obtain ⟨unit, unit', outer, outer', hunit, hunit', htypes, htypes', hsame⟩ :=
    houter "Meter" (by decide +kernel) (by decide +kernel)
  have hdiffer : ((transform {} meters).unitsOf "Meter").map
        (fun u => u.types.map fun t => t.methods.map MethodDecl.name) ≠
      ((transform {} meters.reverse).unitsOf "Meter").map
        fun u => u.types.map fun t => t.methods.map MethodDecl.name := by
    decide +kernel
  refine ⟨by decide +kernel, hfailures, unit, unit', outer, outer', hunit, hunit', htypes, htypes',
    hsame, fun hnames => hdiffer ?_⟩
  rw [hunit, hunit', List.map_singleton, List.map_singleton, htypes, htypes', List.map_singleton,
    List.map_singleton, hnames]

end Weaver

end VersionWeave
