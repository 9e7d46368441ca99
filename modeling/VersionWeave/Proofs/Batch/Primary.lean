import VersionWeave.Command.Run
import VersionWeave.Proofs.Batch.Failures

namespace VersionWeave

def TypeDecl.isPublic (t : TypeDecl) : Bool := t.modifiers.isPublic

theorem CompilationUnit.exists_primary {u : CompilationUnit} (h : u.types ≠ []) :
    ∃ t, u.primary? = some t := by
  obtain ⟨first, rest, htypes⟩ := List.exists_cons_of_ne_nil h
  rw [primary?, htypes, List.head?_cons, Option.or_some]
  exact ⟨_, rfl⟩

/-- A type in front is the primary one, unless it is not public and a later one is. -/
theorem CompilationUnit.primary?_eq_head_iff {u : CompilationUnit} {first : TypeDecl}
    {rest : List TypeDecl} (htypes : u.types = first :: rest) (hfirst : first ∉ rest) :
    u.primary? = some first ↔ first.isPublic = true ∨ ∀ t ∈ rest, t.isPublic = false := by
  unfold primary?
  rw [htypes, List.head?_cons, List.find?_cons]
  cases hpublic : first.modifiers.isPublic with
  | true => exact iff_of_true rfl (.inl hpublic)
  | false =>
    dsimp only
    cases hfind : rest.find? fun t => t.modifiers.isPublic with
    | none =>
      have hnone : ∀ t ∈ rest, t.isPublic = false := by
        simpa [TypeDecl.isPublic] using List.find?_eq_none.mp hfind
      exact iff_of_true rfl (.inr hnone)
    | some t =>
      have ht := List.mem_of_find?_eq_some hfind
      refine iff_of_false (fun h => hfirst (Option.some.inj h ▸ ht)) ?_
      rintro (h | h)
      · exact Bool.false_ne_true (hpublic.symm.trans h)
      · exact Bool.false_ne_true ((h t ht).symm.trans (List.find?_some hfind))

/-- A unit with types is named after its primary type. -/
theorem Command.outputName_eq {u : CompilationUnit} {t : TypeDecl} (h : u.primary? = some t)
    (index : Nat) (emit : Emit) : outputName u index emit = t.name ++ "." ++ emit.extension := by
  rw [outputName, CompilationUnit.primaryName?, h]
  rfl

namespace Group

variable {marker : Marker} {table : SymbolTable} {options : Options} {base : String}
  {vs : List VersionDecl}

/-- A type of another base name that comes along with the versions: the first of its name. -/
def Beside (marker : Marker) (g : Group) (t : TypeDecl) : Prop :=
  marker.baseName t.name ≠ g.baseName ∧ t.name ≠ g.baseName ∧
    ∃ before after, g.types = before ++ t :: after ∧ ∀ s ∈ before, s.name ≠ t.name

/-- The unit around a unified type: the type itself, then what stood beside its versions. -/
theorem exists_types_compose (marker : Marker) (g : Group) {outer : TypeDecl}
    (hname : outer.name = g.baseName) : ∃ rest, (g.compose marker outer).types = outer :: rest ∧
      ∀ t, t ∈ rest ↔ g.Beside marker t := by
  obtain ⟨rest, hrest, hmem⟩ := mem_bystanders marker g.baseName g.types [outer]
  refine ⟨rest, hrest, fun t => (hmem t).trans ?_⟩
  rw [List.forall_mem_singleton, hname, Beside, ne_comm (a := g.baseName)]

/-- A unified type has the modifiers of its lowest version, but is never static. -/
theorem modifiers_outer {outer : TypeDecl}
    (h : Group.outer marker table options base vs = .ok outer) :
    outer.modifiers = (emptyOuter base vs).modifiers := by
  rcases outer_stages marker table options base vs with
    ⟨merged, stubbed, hmerge, hstubs, houter⟩ | ⟨e, he⟩
  · cases houter.symm.trans h
    obtain ⟨next, hnext, rfl⟩ := Stub.addAll_eq_ok hstubs
    exact ((TypeDecl.reworked_mergeVersions hmerge).trans hnext).modifiers
  · cases he.symm.trans h

end Group

theorem eq_of_length_le_one {α : Type} {l : List α} (h : l.length ≤ 1) {a b : α} (ha : a ∈ l)
    (hb : b ∈ l) : a = b := by
  rcases l with - | ⟨x, - | ⟨y, rest⟩⟩
  · cases ha
  · exact (List.mem_singleton.mp ha).trans (List.mem_singleton.mp hb).symm
  · simp at h

namespace Weaver

/-- Only a unit with a second public type can bring a public type along. -/
theorem isPublic_beside {w : Weaver} {units : List CompilationUnit} {base : String}
    (hone : ∀ u ∈ w.unitsUnder units base, (u.types.filter TypeDecl.isPublic).length ≤ 1)
    {t : TypeDecl} (ht : (w.revisedGroup units base).Beside w.marker t) : t.isPublic = false := by
  obtain ⟨hbase, -, before, after, hsplit, -⟩ := ht
  have hmem : t ∈ (w.revisedGroup units base).types := by simp [hsplit]
  obtain ⟨v, hv, ht⟩ := List.mem_flatMap.mp hmem
  obtain ⟨u, hu, rfl⟩ := List.mem_map.mp hv
  rw [reviseUnit_fst] at ht
  obtain ⟨x, hx, rfl⟩ := List.mem_map.mp ht
  cases hpublic : x.isPublic with
  | false => rwa [TypeDecl.isPublic, modifiers_reviseType]
  | true =>
    have hgroup := (groupName?_eq_some.mp (mem_unitsUnder.mp hu).2).1
    cases hfind : u.types.find? TypeDecl.isPublic with
    | none => exact absurd hpublic (List.find?_eq_none.mp hfind x hx)
    | some p =>
      have hprimary : u.primary? = some p := by
        rw [CompilationUnit.primary?, show u.types.find? (fun t => t.modifiers.isPublic) = some p
          from hfind, Option.some_or]
      rw [CompilationUnit.primaryName?, hprimary] at hgroup
      have hne : p ≠ x := by
        rintro rfl
        rw [name_reviseType] at hbase
        exact hbase (Option.some.inj hgroup)
      have hp : p ∈ u.types.filter TypeDecl.isPublic :=
        List.mem_filter.mpr ⟨List.mem_of_find?_eq_some hfind, List.find?_some hfind⟩
      have hx : x ∈ u.types.filter TypeDecl.isPublic := List.mem_filter.mpr ⟨hx, hpublic⟩
      exact absurd (eq_of_length_le_one (hone u hu) hp hx) hne

/-- A unit that was built: the unified type, then what stood beside its versions. -/
theorem exists_outer_beside {w : Weaver} {units : List CompilationUnit} {base : String}
    {unit : CompilationUnit}
    (hbuild : (w.revisedGroup units base).build w.marker (w.symbols units) w.options = .ok unit) :
    ∃ vs outer rest, (w.revisedGroup units base).versions w.marker = .ok vs ∧
      unit.types = outer :: rest ∧ outer.name = base ∧
      (outer.isPublic = true ↔ ∃ v ∈ vs.head?, v.decl.isPublic = true) ∧
      ∀ t, t ∈ rest ↔ (w.revisedGroup units base).Beside w.marker t := by
  obtain ⟨vs, outer, hvs, houter, rfl⟩ := Group.build_eq_ok hbuild
  have hname := (Group.outer_eq_ok (Group.versions_eq_ok hvs).2 houter).name
  obtain ⟨rest, htypes, hrest⟩ := (w.revisedGroup units base).exists_types_compose w.marker hname
  refine ⟨vs, outer, rest, hvs, htypes, hname, ?_, hrest⟩
  rw [TypeDecl.isPublic, Group.modifiers_outer houter]
  cases vs with
  | nil => simp [Group.emptyOuter, Modifiers.isPublic]
  | cons v more => simp [Group.emptyOuter, Modifiers.isPublic, TypeDecl.isPublic]

/-- Without a second public type in any unit, what is built is named after the base name. -/
theorem primaryName?_of_build {w : Weaver} {units : List CompilationUnit} {base : String}
    {unit : CompilationUnit}
    (hbuild : (w.revisedGroup units base).build w.marker (w.symbols units) w.options = .ok unit)
    (hone : ∀ u ∈ w.unitsUnder units base, (u.types.filter TypeDecl.isPublic).length ≤ 1) :
    unit.primaryName? = some base := by
  obtain ⟨vs, outer, rest, -, htypes, rfl, -, hrest⟩ := exists_outer_beside hbuild
  have hnew : outer ∉ rest := fun h => ((hrest outer).mp h).2.1 rfl
  have hprimary := (CompilationUnit.primary?_eq_head_iff htypes hnew).mpr
    (.inr fun t ht => isPublic_beside hone ((hrest t).mp ht))
  rw [CompilationUnit.primaryName?, hprimary, Option.map_some]

/-- The lower version is not public, and beside the higher one there is a second public type. -/
def publicHelper : List CompilationUnit :=
  [{ types := [{ name := "Test__1__" }] },
    { types := [{ modifiers := .pub, name := "Test__2__" },
      { modifiers := .pub, name := "Helper" }] }]

/-- The primary type of a unit that was built need not be the unified type. -/
theorem not_every_unified_type_primary : ¬ ∀ units : List CompilationUnit,
    ∀ base ∈ bases {} units, ∀ unit, (revisedGroup {} units base).build .standard (symbols {} units) {} =
      .ok unit → unit.primaryName? = some base := by
  intro h
  have hbase : "Test" ∈ bases {} publicHelper := by decide +kernel
  have hsound : ¬ Flawed {} publicHelper "Test" := by decide +kernel
  obtain ⟨unit, hbuild, -⟩ := build_sound hbase hsound
  have hhelper : ((revisedGroup {} publicHelper "Test").build .standard (symbols {} publicHelper)
      {}).toOption.bind CompilationUnit.primaryName? = some "Helper" := by decide +kernel
  have hname := h publicHelper "Test" hbase unit hbuild
  rw [show (revisedGroup {} publicHelper "Test").build .standard (symbols {} publicHelper) {} =
    .ok unit from hbuild] at hhelper
  exact absurd (hname.symm.trans hhelper) (by decide)

/--
A unit built for a base name begins with the unified type, which is public if the lowest version is.
It is the primary type, and the file is named after the base name, exactly if it is public or no
public type of another base name comes along. So it is wherever no unit of the group has two public
types.
-/
theorem unified_unit_name_iff (w : Weaver) (units : List CompilationUnit) {base : String}
    {unit : CompilationUnit}
    (hbuild : (w.revisedGroup units base).build w.marker (w.symbols units) w.options = .ok unit) :
    ∃ vs outer, (w.revisedGroup units base).versions w.marker = .ok vs ∧
      unit.types.head? = some outer ∧ outer.name = base ∧
      (unit.primary? = some outer ↔ (∃ v ∈ vs.head?, v.decl.isPublic = true) ∨
        ∀ t, (w.revisedGroup units base).Beside w.marker t → t.isPublic = false) ∧
      (∀ index emit, Command.outputName unit index emit = base ++ "." ++ emit.extension ↔
        unit.primary? = some outer) ∧
      ((∀ u ∈ w.unitsUnder units base, (u.types.filter TypeDecl.isPublic).length ≤ 1) →
        unit.primary? = some outer) := by
  obtain ⟨vs, outer, rest, hvs, htypes, hname, hpublic, hrest⟩ := exists_outer_beside hbuild
  have hnew : ∀ t ∈ rest, t.name ≠ base := fun t ht => ((hrest t).mp ht).2.1
  have hprimary := CompilationUnit.primary?_eq_head_iff htypes fun h => hnew outer h hname
  simp only [hpublic, hrest] at hprimary
  refine ⟨vs, outer, hvs, by rw [htypes, List.head?_cons], hname, hprimary, fun index emit => ?_,
    fun hone => hprimary.mpr (.inr fun t => isPublic_beside hone)⟩
  obtain ⟨p, hp⟩ := CompilationUnit.exists_primary (htypes ▸ List.cons_ne_nil outer rest)
  rw [Command.outputName_eq hp, String.append_left_inj, String.append_left_inj, hp,
    Option.some.injEq]
  refine ⟨fun h => ?_, fun h => h ▸ hname⟩
  have hmem := CompilationUnit.mem_types_of_primary? hp
  rw [htypes] at hmem
  exact (List.mem_cons.mp hmem).resolve_right fun hrest => hnew p hrest h

/-- A version that is not public and a helper that is not public share the file of the base name. -/
theorem unified_unit_name_helper :
    let units : List CompilationUnit := [{ types := [{ name := "Test__1__" }, { name := "Helper" }] },
      { types := [{ modifiers := .pub, name := "Test__2__" }] }]
    ∃ unit, (revisedGroup {} units "Test").build .standard (symbols {} units) {} = .ok unit ∧
      Command.outputName unit 0 .java = "Test.java" := by
  intro units
  have hbase : "Test" ∈ bases {} units := by decide +kernel
  have hsound : ¬ Flawed {} units "Test" := by decide +kernel
  have hone : ∀ u ∈ unitsUnder {} units "Test", (u.types.filter TypeDecl.isPublic).length ≤ 1 := by
    decide +kernel
  obtain ⟨unit, hbuild, -⟩ := build_sound hbase hsound
  obtain ⟨vs, outer, -, -, -, -, hfile, hnamed⟩ := unified_unit_name_iff {} units hbuild
  exact ⟨unit, hbuild, (hfile 0 .java).mpr (hnamed hone)⟩

end Weaver

end VersionWeave
