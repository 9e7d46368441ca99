import Mathlib.Data.List.Nodup
import VersionWeave.Proofs.Batch.Primary
import VersionWeave.Proofs.Disk

namespace VersionWeave

namespace Command

variable {out : String} {emit : Emit} {disk after : Disk}

/-- Where a unit is written to, given with its place in the list. -/
def outputPath (out : String) (emit : Emit) (u : CompilationUnit × Nat) : String :=
  Path.join out (outputName u.1 u.2 emit)

/--
What is left once some units have been written one after the other: every path could be followed,
and a place shows the last unit that was written to it, or what was there before.
-/
structure Written (out : String) (emit : Emit) (units : List (CompilationUnit × Nat))
    (disk after : Disk) : Prop where
  directories : disk.SameDirectories after
  located : ∀ u ∈ units, ∃ place, after.locate (outputPath out emit u) = .ok place
  spot : ∀ place,
    (∃ front last back, units = front ++ last :: back ∧
      after.locate (outputPath out emit last) = .ok place ∧
      (∀ u ∈ back, after.locate (outputPath out emit u) ≠ .ok place) ∧
      after.spot place = .file (outputText last.1 emit).toUTF8) ∨
    (∀ u ∈ units, after.locate (outputPath out emit u) ≠ .ok place) ∧
      after.spot place = disk.spot place

theorem Written.nil (disk : Disk) : Written out emit [] disk disk where
  directories := .refl disk
  located := fun _ hu => absurd hu List.not_mem_nil
  spot := fun _ => .inr ⟨fun _ hu => absurd hu List.not_mem_nil, rfl⟩

/-- One unit more in front: its file stays unless a later one leads to the same place. -/
theorem Written.cons {u : CompilationUnit × Nat} {units : List (CompilationUnit × Nat)} {mid : Disk}
    (hfirst : disk.writeText (outputPath out emit u) (outputText u.1 emit) = .ok mid)
    (h : Written out emit units mid after) : Written out emit (u :: units) disk after := by
  obtain ⟨own, hown, hsame, hspots⟩ := Disk.writeText_eq_ok hfirst
  have hown := (hsame.trans h.directories).locate hown
  refine ⟨hsame.trans h.directories, List.forall_mem_cons.mpr ⟨⟨own, hown⟩, h.located⟩, ?_⟩
  intro place
  rcases h.spot place with ⟨front, last, back, rfl, hlast⟩ | ⟨hnone, hspot⟩
  · exact .inl ⟨u :: front, last, back, rfl, hlast⟩
  · by_cases hplace : place = own
    · subst hplace
      exact .inl ⟨[], u, units, rfl, hown, hnone, hspot.trans ((hspots place).trans (if_pos rfl))⟩
    · refine .inr ⟨List.forall_mem_cons.mpr ⟨fun h => ?_, hnone⟩, ?_⟩
      · exact hplace (Except.ok.inj (h.symm.trans hown))
      · exact hspot.trans ((hspots place).trans (if_neg hplace))

theorem written_writeFrom {units : List CompilationUnit} {index : Nat} {names : List String}
    (h : writeFrom out emit index units disk = (.ok names, after)) :
    Written out emit (units.zipIdx index) disk after ∧
      names = (units.zipIdx index).map fun u => outputName u.1 u.2 emit := by
  induction units generalizing index disk names with
  | nil =>
    cases h
    exact ⟨.nil _, rfl⟩
  | cons u rest ih =>
    unfold writeFrom at h
    dsimp only at h
    rw [List.zipIdx_cons]
    split at h
    next => cases h
    next mid hfirst =>
      cases hrest : writeFrom out emit (index + 1) rest mid with
      | mk written last =>
        rw [hrest] at h
        cases written with
        | error e => cases h
        | ok more =>
          cases h
          obtain ⟨hwritten, rfl⟩ := ih hrest
          exact ⟨.cons hfirst hwritten, rfl⟩

theorem written_writeUnits {units : List CompilationUnit} {names : List String}
    (h : writeUnits units out emit disk = (.ok names, after)) :
    (∃ ready, Written out emit units.zipIdx ready after) ∧
      names = units.zipIdx.map fun u => outputName u.1 u.2 emit := by
  unfold writeUnits at h
  split at h
  next => cases h
  next ready _ => exact ⟨⟨ready, (written_writeFrom h).1⟩, (written_writeFrom h).2⟩

variable {units : List (CompilationUnit × Nat)}

/-- The file of a unit holds the text of the last unit that was written to the same place. -/
theorem Written.readText (h : Written out emit units disk after) {u : CompilationUnit × Nat}
    (hu : u ∈ units) : ∃ front last back, units = front ++ last :: back ∧
      after.locate (outputPath out emit last) = after.locate (outputPath out emit u) ∧
      (∀ v ∈ back,
        after.locate (outputPath out emit v) ≠ after.locate (outputPath out emit u)) ∧
      after.readText (outputPath out emit u) = .ok (outputText last.1 emit) := by
  obtain ⟨place, hplace⟩ := h.located u hu
  rcases h.spot place with ⟨front, last, back, hsplit, hlast, hback, hspot⟩ | ⟨hnone, -⟩
  · rw [hplace]
    exact ⟨front, last, back, hsplit, hlast, hback, Disk.readText_eq_ok hplace hspot⟩
  · exact absurd hplace (hnone u hu)

/-- No unit loses its text exactly if units that were written to one place have the same text. -/
theorem Written.readText_own_iff (h : Written out emit units disk after) :
    (∀ u ∈ units, after.readText (outputPath out emit u) = .ok (outputText u.1 emit)) ↔
      ∀ u ∈ units, ∀ v ∈ units,
        after.locate (outputPath out emit u) = after.locate (outputPath out emit v) →
          outputText u.1 emit = outputText v.1 emit := by
  constructor
  · intro hown u hu v hv hsame
    have hread : after.readText (outputPath out emit u) =
        after.readText (outputPath out emit v) := by
      simp only [Disk.readText, Disk.lookup, hsame]
    rw [hown u hu, hown v hv] at hread
    exact Except.ok.inj hread
  · intro htexts u hu
    obtain ⟨front, last, back, rfl, hsame, -, hread⟩ := h.readText hu
    rw [hread, htexts last (by simp) u hu hsame]

/-- The extension keeps a file name from being empty or made of dots. -/
theorem isName_outputName {u : CompilationUnit} {index : Nat}
    (h : '/' ∉ (outputName u index emit).toList) : Path.IsName (outputName u index emit) := by
  have hextension : emit.extension.length = 4 := by cases emit <;> rfl
  have hlength : 4 ≤ (outputName u index emit).length := by
    simp only [outputName, String.length_append, hextension, Nat.le_add_left]
  exact ⟨h, fun h => absurd (h ▸ hlength) (by decide), fun h => absurd (h ▸ hlength) (by decide),
    fun h => absurd (h ▸ hlength) (by decide)⟩

/-- Units whose names have no slash are written to one place exactly if they have one name. -/
theorem Written.locate_eq_iff (h : Written out emit units disk after) {u v : CompilationUnit × Nat}
    (hu : u ∈ units) (hv : v ∈ units) (huslash : '/' ∉ (outputName u.1 u.2 emit).toList)
    (hvslash : '/' ∉ (outputName v.1 v.2 emit).toList) :
    after.locate (outputPath out emit u) = after.locate (outputPath out emit v) ↔
      outputName u.1 u.2 emit = outputName v.1 v.2 emit := by
  refine ⟨fun hsame => ?_, congrArg fun name => after.locate (Path.join out name)⟩
  obtain ⟨p, hp⟩ := h.located u hu
  obtain ⟨q, hq⟩ := h.located v hv
  have hplace := Except.ok.inj (hp.symm.trans (hsame.trans hq))
  obtain ⟨above, rfl⟩ := Disk.place_join (isName_outputName huslash) hp
  obtain ⟨above', rfl⟩ := Disk.place_join (isName_outputName hvslash) hq
  exact List.singleton_inj.mp (List.append_inj' hplace rfl).2

theorem slash_outputName {u : CompilationUnit} {index : Nat} {name : String}
    (hname : u.primaryName? = some name) (h : '/' ∉ name.toList) :
    '/' ∉ (outputName u index emit).toList := by
  have hextension : '/' ∉ emit.extension.toList := by cases emit <;> decide
  simp [outputName, hname, h, hextension]

theorem exists_writeUnits {units : List CompilationUnit} {names : List String}
    (h : (writeUnits units out emit disk).1.toOption = some names) :
    ∃ after, writeUnits units out emit disk = (.ok names, after) := by
  cases hrun : writeUnits units out emit disk with
  | mk written after =>
    rw [hrun] at h
    cases written with
    | error e => cases h
    | ok names =>
      cases h
      exact ⟨after, rfl⟩

end Command

namespace Weaver

variable {w : Weaver} {units : List CompilationUnit}

/--
Every unit names a file of its own: it has types, at most one of them public and none with a slash
in its name, and no two units that are passed on have primary types of the same name.
-/
structure NamesFiles (w : Weaver) (units : List CompilationUnit) : Prop where
  types : ∀ u ∈ units, u.types ≠ []
  onePublic : ∀ u ∈ units, (u.types.filter TypeDecl.isPublic).length ≤ 1
  slash : ∀ u ∈ units, ∀ t ∈ u.types, '/' ∉ t.name.toList
  passedOn : ((w.others (w.symbols units) units).map CompilationUnit.primaryName?).Nodup

theorem NamesFiles.primaryName?_of_build (h : w.NamesFiles units) {base : String}
    {unit : CompilationUnit}
    (hbuild : (w.revisedGroup units base).build w.marker (w.symbols units) w.options = .ok unit) :
    unit.primaryName? = some base :=
  Weaver.primaryName?_of_build hbuild fun u hu => h.onePublic u (mem_unitsUnder.mp hu).1

/-- The base name of what was built and the names of what is passed on are names without a slash. -/
theorem NamesFiles.exists_primaryName (h : w.NamesFiles units) {v : CompilationUnit}
    (hv : v ∈ (w.transform units).units) : ∃ name, v.primaryName? = some name ∧
      '/' ∉ name.toList := by
  rcases mem_units_transform.mp hv with ⟨base, hbase, hbuild⟩ | ⟨u, hu, -, rfl⟩
  · refine ⟨base, h.primaryName?_of_build hbuild, fun hslash => ?_⟩
    obtain ⟨u, hunder⟩ := mem_bases.mp hbase
    obtain ⟨hu, hgroup⟩ := mem_unitsUnder.mp hunder
    obtain ⟨name, hname, rfl⟩ := Option.map_eq_some_iff.mp (groupName?_eq_some.mp hgroup).1
    obtain ⟨t, ht, rfl⟩ := Option.map_eq_some_iff.mp hname
    exact h.slash u hu t (CompilationUnit.mem_types_of_primary? ht) (Marker.mem_of_mem_baseName hslash)
  · rw [primaryName?_reviseWithin]
    obtain ⟨t, ht⟩ := CompilationUnit.exists_primary (h.types u hu)
    exact ⟨t.name, congrArg (Option.map TypeDecl.name) ht,
      h.slash u hu t (CompilationUnit.mem_types_of_primary? ht)⟩

theorem NamesFiles.eq_of_primaryName? (h : w.NamesFiles units) {u v : CompilationUnit}
    (hu : u ∈ (w.transform units).units) (hv : v ∈ (w.transform units).units)
    (hname : u.primaryName? = v.primaryName?) : u = v := by
  -- what is passed on never has the name of something built
  have hapart : ∀ base ∈ w.bases units, ∀ x ∈ units, w.groupName? (w.symbols units) x = none →
      (w.reviseWithin units x).primaryName? ≠ some base := by
    intro base hbase x hx hnone
    obtain ⟨y, hy⟩ := mem_bases.mp hbase
    have hversioned := (groupName?_eq_some.mp (mem_unitsUnder.mp hy).2).2
    rw [primaryName?_reviseWithin]
    exact primaryName?_of_not_grouped hversioned hx hnone
  have hother : ∀ x ∈ units, w.groupName? (w.symbols units) x = none →
      x ∈ w.others (w.symbols units) units :=
    fun x hx hnone => List.mem_filter.mpr ⟨hx, Option.isNone_iff_eq_none.mpr hnone⟩
  rcases mem_units_transform.mp hu with ⟨base, hbase, hbuild⟩ | ⟨x, hx, hnone, rfl⟩
  · rw [h.primaryName?_of_build hbuild] at hname
    rcases mem_units_transform.mp hv with ⟨base', hbase', hbuild'⟩ | ⟨y, hy, hnone, rfl⟩
    · rw [h.primaryName?_of_build hbuild'] at hname
      cases hname
      exact Except.ok.inj (hbuild.symm.trans hbuild')
    · exact absurd hname.symm (hapart base hbase y hy hnone)
  · rcases mem_units_transform.mp hv with ⟨base', hbase', hbuild'⟩ | ⟨y, hy, hnone', rfl⟩
    · rw [h.primaryName?_of_build hbuild'] at hname
      exact absurd hname (hapart base' hbase' x hx hnone)
    · rw [primaryName?_reviseWithin, primaryName?_reviseWithin] at hname
      rw [List.inj_on_of_nodup_map h.passedOn (hother x hx hnone) (hother y hy hnone') hname]

/-- Types of one name in two packages. -/
def twoPackages : List CompilationUnit :=
  [{ package := some "a", types := [{ modifiers := .pub, name := "Main" }] },
    { package := some "b", types := [{ modifiers := .pub, name := "Main" }] }]

/-- Units may be written over each other although every write succeeds. -/
theorem not_every_file_kept : ¬ ∀ (units : List CompilationUnit) (out : String) (emit : Emit)
    (disk after : Disk) (names : List String),
    Command.writeUnits (transform {} units).units out emit disk = (.ok names, after) →
      ∀ u ∈ (transform {} units).units.zipIdx,
        after.readText (Command.outputPath out emit u) = .ok (Command.outputText u.1 emit) := by
  intro h
  have hok : (Command.writeUnits (transform {} twoPackages).units "out" .java {}).1.toOption =
      some ["Main.java", "Main.java"] := by decide +kernel
  have hpaths : ∀ u ∈ (transform {} twoPackages).units.zipIdx,
      Command.outputPath "out" .java u = "out/Main.java" := by decide +kernel
  have htexts : ∃ u ∈ (transform {} twoPackages).units.zipIdx,
      ∃ v ∈ (transform {} twoPackages).units.zipIdx,
        Command.outputText u.1 .java ≠ Command.outputText v.1 .java := by decide +kernel
  obtain ⟨after, hwrite⟩ := Command.exists_writeUnits hok
  obtain ⟨u, hu, v, hv, hne⟩ := htexts
  have hread := h twoPackages "out" .java {} after _ hwrite
  have hu' := hread u hu
  rw [hpaths u hu, ← hpaths v hv, hread v hv] at hu'
  exact hne (Except.ok.inj hu').symm

/--
What writing the units of a batch leaves behind. Every unit's name is reported. Each file holds the
last unit written to its place, so no unit is lost exactly if those written to one place have the
same text; without slashes, one place is one name. Nothing is lost where every unit names a file of
its own.
-/
theorem files_kept_iff (w : Weaver) (units : List CompilationUnit) (out : String) (emit : Emit)
    {disk after : Disk} {names : List String}
    (hwrite : Command.writeUnits (w.transform units).units out emit disk = (.ok names, after)) :
    let written := (w.transform units).units.zipIdx
    let place u := after.locate (Command.outputPath out emit u)
    let name (u : CompilationUnit × Nat) := Command.outputName u.1 u.2 emit
    let text (u : CompilationUnit × Nat) := Command.outputText u.1 emit
    names = written.map name ∧
    (∀ u ∈ written, ∃ front last back, written = front ++ last :: back ∧ place last = place u ∧
      (∀ v ∈ back, place v ≠ place u) ∧
      after.readText (Command.outputPath out emit u) = .ok (text last)) ∧
    ((∀ u ∈ written, after.readText (Command.outputPath out emit u) = .ok (text u)) ↔
      ∀ u ∈ written, ∀ v ∈ written, place u = place v → text u = text v) ∧
    (∀ u ∈ written, ∀ v ∈ written, '/' ∉ (name u).toList → '/' ∉ (name v).toList →
      (place u = place v ↔ name u = name v)) ∧
    (w.NamesFiles units →
      ∀ u ∈ written, after.readText (Command.outputPath out emit u) = .ok (text u)) := by
  intro written place name text
  obtain ⟨⟨ready, h⟩, hnames⟩ := Command.written_writeUnits hwrite
  refine ⟨hnames, fun u hu => h.readText hu, h.readText_own_iff,
    fun u hu v hv huslash hvslash => h.locate_eq_iff hu hv huslash hvslash, fun hfiles => ?_⟩
  refine h.readText_own_iff.mpr fun u hu v hv hplace => ?_
  have hu' := List.fst_mem_of_mem_zipIdx hu
  have hv' := List.fst_mem_of_mem_zipIdx hv
  obtain ⟨a, ha, haslash⟩ := hfiles.exists_primaryName hu'
  obtain ⟨b, hb, hbslash⟩ := hfiles.exists_primaryName hv'
  have hname := (h.locate_eq_iff hu hv (Command.slash_outputName ha haslash)
    (Command.slash_outputName hb hbslash)).mp hplace
  rw [Command.outputName, Command.outputName, ha, hb, String.append_left_inj,
    String.append_left_inj, Option.getD_some, Option.getD_some] at hname
  rw [hfiles.eq_of_primaryName? hu' hv' ((ha.trans (congrArg some hname)).trans hb.symm)]

/-- A group of two versions with a helper, and a type of another package. -/
def groupAndMain : List CompilationUnit :=
  [{ types := [{ name := "Test__1__" }, { name := "Helper" }] },
    { types := [{ modifiers := .pub, name := "Test__2__" }] },
    { package := some "a", types := [{ modifiers := .pub, name := "Main" }] }]

theorem files_kept_group : ∃ after,
    Command.writeUnits (transform {} groupAndMain).units "out" .json {} =
        (.ok ["Test.json", "Main.json"], after) ∧
      ∀ u ∈ (transform {} groupAndMain).units.zipIdx,
        after.readText (Command.outputPath "out" .json u) = .ok (Command.outputText u.1 .json) := by
  have hok : (Command.writeUnits (transform {} groupAndMain).units "out" .json {}).1.toOption =
      some ["Test.json", "Main.json"] := by decide +kernel
  have hnames : NamesFiles {} groupAndMain :=
    ⟨by decide +kernel, by decide +kernel, by decide +kernel, by decide +kernel⟩
  obtain ⟨after, hwrite⟩ := Command.exists_writeUnits hok
  exact ⟨after, hwrite, (files_kept_iff {} groupAndMain "out" .json hwrite).2.2.2.2 hnames⟩

end Weaver

end VersionWeave
