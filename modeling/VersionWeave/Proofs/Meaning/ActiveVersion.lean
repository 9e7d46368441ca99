import VersionWeave.Proofs.Batch.Outcome
import VersionWeave.Proofs.Meaning.Operations
import VersionWeave.Proofs.Reordered

namespace VersionWeave

/-- A public field of a numbered declaration is among those that accessors can go to. -/
theorem ClassInfo.exists_accessible {marker : Marker} {base field : String} {ts : List TypeDecl}
    {t : TypeDecl} {n : UInt32} (ht : t ∈ ts) (hn : (marker.parse t.name).version = .numbered n)
    (hpublic : t.DeclaresPublic field) :
    ∃ info, (n, info) ∈ accessible ((ofDeclarations marker base ts).fieldsNamed field) := by
  obtain ⟨f, hf, hpub, hname⟩ := hpublic
  obtain ⟨d, hd, rfl⟩ := List.mem_map.mp hname
  let info : FieldInfo :=
    { name := d.name, type := f.ty.signature marker, version := .numbered n,
      isPublic := f.modifiers.isPublic }
  refine ⟨info, List.mem_filterMap.mpr ⟨info, ?_, by simp [info, hpub, Version.ordinal?]⟩⟩
  rw [fieldsNamed_ofDeclarations, List.mem_filter, List.mem_flatMap]
  refine ⟨⟨t, ht, List.mem_flatMap.mpr ⟨f, hf, List.mem_map.mpr ⟨d, hd, ?_⟩⟩⟩, by simp [info]⟩
  rw [hn]

/-- The lowest ordinal of the declarations that have a field public. -/
structure LeastPublic (marker : Marker) (ts : List TypeDecl) (field : String) (n : UInt32) :
    Prop where
  declared : ∃ t ∈ ts, (marker.parse t.name).version = .numbered n ∧ t.DeclaresPublic field
  least : ∀ t ∈ ts, ∀ m, (marker.parse t.name).version = .numbered m → t.DeclaresPublic field →
    n ≤ m

/-- Accessors go to the lowest of the versions that declare the field public. -/
theorem ClassInfo.exists_accessorOwner?_iff {marker : Marker} {base field : String}
    {ts : List TypeDecl} {n : UInt32} :
    (∃ info, (ofDeclarations marker base ts).accessorOwner? field = some (n, info)) ↔
      LeastPublic marker ts field n := by
  have hentry : ∀ t ∈ ts, ∀ m, (marker.parse t.name).version = .numbered m →
      t.DeclaresPublic field →
        ∃ info, (m, info) ∈ accessible ((ofDeclarations marker base ts).fieldsNamed field) :=
    fun t ht m hm hpublic => exists_accessible ht hm hpublic
  constructor
  · rintro ⟨info, hbest⟩
    refine ⟨accessorOwner?_eq_some hbest, fun t ht m hm hpublic => ?_⟩
    obtain ⟨other, hother⟩ := hentry t ht m hm hpublic
    exact (leastOrdinal?_eq_some hbest).2 _ hother
  · rintro ⟨⟨t, ht, hn, hpublic⟩, hleast⟩
    obtain ⟨info, hinfo⟩ := hentry t ht n hn hpublic
    cases hbest : (ofDeclarations marker base ts).accessorOwner? field with
    | none =>
      rw [leastOrdinal?_eq_none hbest] at hinfo
      cases hinfo
    | some best =>
      obtain ⟨m, found⟩ := best
      obtain ⟨t', ht', hm, hpublic'⟩ := accessorOwner?_eq_some hbest
      have hle : m ≤ n := (leastOrdinal?_eq_some hbest).2 _ hinfo
      cases UInt32.le_antisymm hle (hleast t' ht' m hm hpublic')
      exact ⟨found, rfl⟩

namespace Group

variable {marker : Marker} {g : Group} {vs : List VersionDecl}

/-- A table of the group's own units knows which version the accessors of a field go to. -/
theorem namesFirst (hvs : g.versions marker = .ok vs) :
    (SymbolTable.build marker g.units).NamesFirst g.baseName vs := by
  rintro field ⟨v, hv, hdeclares⟩
  have hdeclared : ∀ w ∈ vs, w.decl ∈ declarations marker g.units g.baseName ∧
      (marker.parse w.decl.name).version = .numbered w.ordinal := by
    intro w hw
    obtain ⟨ht, hparse⟩ := (mem_versions hvs).mp hw
    exact ⟨List.mem_filter.mpr ⟨ht, by simp [Marker.baseName, hparse]⟩, by rw [hparse]⟩
  have hget : (SymbolTable.build marker g.units).get? g.baseName =
      some (.ofDeclarations marker g.baseName (declarations marker g.units g.baseName)) := by
    rw [SymbolTable.get?_build, if_neg]
    exact fun hempty => List.not_mem_nil (List.isEmpty_iff.mp hempty ▸ (hdeclared v hv).1)
  cases hbest : (ClassInfo.ofDeclarations marker g.baseName
      (declarations marker g.units g.baseName)).accessorOwner? field with
  | none =>
    obtain ⟨info, hinfo⟩ := ClassInfo.exists_accessible (hdeclared v hv).1 (hdeclared v hv).2
      hdeclares
    rw [ClassInfo.leastOrdinal?_eq_none hbest] at hinfo
    cases hinfo
  | some best =>
    obtain ⟨n, info⟩ := best
    obtain ⟨⟨t, ht, hversion, hpublic⟩, hleast⟩ :=
      ClassInfo.exists_accessorOwner?_iff.mp ⟨info, hbest⟩
    obtain ⟨ht, hbase⟩ := List.mem_filter.mp ht
    have hparse : marker.parse t.name = ⟨g.baseName, .numbered n⟩ := by
      rw [← of_decide_eq_true hbase, ← hversion]
      rfl
    exact ⟨_, { ordinal := n, decl := t }, info, hget, hbest,
      (mem_versions hvs).mpr ⟨ht, hparse⟩, hpublic,
      fun w hw => hleast w.decl (hdeclared w hw).1 w.ordinal (hdeclared w hw).2⟩

/-- An outer constructor leaves the instance of its owner active, and a new one for each version. -/
theorem Unified.construct {table : SymbolTable} {options : Options} {base : String}
    {outer : TypeDecl} (h : Unified marker table options base vs outer)
    (hapart : options.naming.Apart) (hnodup : (vs.map VersionDecl.ordinal).Nodup)
    {s : ConstructorSignature} (howner : s.owner ∈ vs.map VersionDecl.ordinal) {args : List Value}
    (hargs : s.params.length = args.length) (depth : Nat) (start : Memory) : ∃ made,
      outer.construct depth
          (outerConstructor options.naming base (vs.map VersionDecl.ordinal) s) args start =
        .ok start.objects.length made ∧
      made.Holds options.naming start.objects.length (vs.map VersionDecl.ordinal)
        (fun n => start.objects.length + 1 + (vs.map VersionDecl.ordinal).idxOf n) s.owner := by
  let ordinals := vs.map VersionDecl.ordinal
  let self := start.objects.length
  let filled := (start.allocate base).instantiateAll options.naming self ordinals
  have hrun : outer.construct depth (outerConstructor options.naming base ordinals s) args start =
      .ok self (filled.activate options.naming self s.owner) := by
    have hcreate : Exec.create outer.name start = .ok self (start.allocate base) := by
      rw [Exec.create, h.name]
    have henter : (outerConstructor options.naming base ordinals s).params.length = args.length :=
      hargs
    rw [TypeDecl.construct, Exec.bind_ok hcreate, Exec.bind_ok (Env.enter_eq henter),
      Exec.bind_ok (execAll_outerConstructor options.naming base
        fun p hp => Entries.exists_get?_zip hargs p hp)]
    rfl
  have hinstances : ∀ n ∈ ordinals, filled.fields self (options.naming.instanceField n) =
      .object (start.objects.length + 1 + ordinals.idxOf n) := by
    intro n hn
    rw [Memory.fields_instantiateAll options.naming self hnodup _ n hn, Memory.allocate,
      List.length_append, List.length_singleton]
  refine ⟨_, hrun, howner, fun n hn => ?_, ?_, fun n hn => ?_, fun n hn => by omega⟩
  · rw [Memory.activate, Memory.fields_write, if_neg fun he => hapart.active n he.2,
      hinstances n hn]
  · rw [Memory.activate, Memory.fields_write, if_pos ⟨rfl, rfl⟩, hinstances s.owner howner]
  · have hobjects : (filled.activate options.naming self s.owner).objects =
        (start.objects ++ [base]) ++ ordinals.map options.naming.implType :=
      Memory.objects_instantiateAll options.naming self ordinals (start.allocate base)
    have hfront : (start.objects ++ [base]).length = start.objects.length + 1 := by simp
    rw [hobjects, List.getElem?_append_right (by omega), hfront, Nat.add_sub_cancel_left,
      List.getElem?_map, List.getElem?_idxOf hn, Option.map_some]

/--
The state machine of a built group, started by any of its constructors, keeps an active version
through every sequence of operations.
-/
theorem active_version_valid {options : Options} {unit : CompilationUnit}
    (hnaming : options.naming = {})
    (hbuild : g.build .standard (.build .standard g.units) options = .ok unit)
    (hvs : g.versions .standard = .ok vs)
    (hfree : ∀ v ∈ vs, ∀ d ∈ v.decl.methods, d.name ≠ options.naming.switchMethod) :
    ∃ outer ∈ unit.types, outer.name = g.baseName ∧ ∀ c ∈ outer.constructors,
      ∃ owner, c.OwnedBy .standard vs owner ∧
        ∀ (depth : Nat) (start : Memory) (args : List Value), c.params.length = args.length →
          ∃ self objectOf made, outer.construct (depth + 2) c args start = .ok self made ∧
            made.Holds options.naming self (vs.map VersionDecl.ordinal) objectOf owner.ordinal ∧
            ∀ ops : List Operation, (∀ op ∈ ops, op.Offered options vs) →
              ∃ current,
                (outer.operateAll options.naming self (depth + 2) ops made).Holds options.naming
                    self (vs.map VersionDecl.ordinal) objectOf current ∧
                  outer.Serves options vs self (depth + 2) objectOf current
                    (outer.operateAll options.naming self (depth + 2) ops made) := by
  have hapart : options.naming.Apart := hnaming ▸ Naming.standard_apart
  obtain ⟨vs', outer, hvs', houter, rfl⟩ := build_eq_ok hbuild
  cases hvs.symm.trans hvs'
  have hnodup := (versions_eq_ok hvs).2
  have hunified := outer_eq_ok hnodup houter
  refine ⟨outer, (foldl_addBystander g.types [outer]).1 outer List.mem_cons_self, hunified.name,
    fun c hc => ?_⟩
  rw [hunified.constructors] at hc
  obtain ⟨s, hs, rfl⟩ := List.mem_map.mp hc
  obtain ⟨owner, howner, howned⟩ := exists_ownedBy (versions_sorted hvs) hs options.naming
    g.baseName (vs.map VersionDecl.ordinal)
  refine ⟨owner, howned, fun depth start args hargs => ?_⟩
  have hknown : s.owner ∈ vs.map VersionDecl.ordinal :=
    List.mem_map.mpr ⟨owner, howned.1, howner⟩
  obtain ⟨made, hrun, hmade⟩ :=
    hunified.construct hapart hnodup hknown hargs (depth + 2) start
  refine ⟨_, _, made, hrun, howner ▸ hmade, fun ops hops => ?_⟩
  exact hunified.serves_operateAll hapart hfree (namesFirst hvs) hops hmade

def gaugeTwo : VersionDecl where
  ordinal := 2
  decl :=
    { name := "Gauge__2__"
      members := [.field (.single .pub (.plain "int") "level"),
        .method { returnType := .void, name := "reset", body := some [] }] }

def gaugeSeven : VersionDecl where
  ordinal := 7
  decl :=
    { name := "Gauge__7__"
      members := [.field (.single .pub (.plain "int") "level"),
        .constructor { name := "Gauge__7__", params := [{ ty := .plain "int", name := "top" }] }] }

/-- The higher version comes first and has the only constructor; both have a public level. -/
def gauge : Group where
  baseName := "Gauge"
  units := [{ types := [gaugeSeven.decl] }, { types := [gaugeTwo.decl] }]

theorem versions_gauge : gauge.versions .standard = .ok [gaugeTwo, gaugeSeven] :=
  versions_of_perm (by simp) (by decide) (by decide +kernel) (List.Perm.swap _ _ _)

theorem active_version_valid_gauge : ∃ unit outer,
    gauge.build .standard (.build .standard gauge.units) {} = .ok unit ∧ outer ∈ unit.types ∧
    ∃ c ∈ outer.constructors, c.OwnedBy .standard [gaugeTwo, gaugeSeven] gaugeSeven ∧
      ∃ self objectOf made,
        outer.construct 2 c [.int 100] { objects := [], fields := fun _ _ => .null } =
          .ok self made ∧
        made.Holds {} self [2, 7] objectOf 7 ∧
        ∃ m, outer.operate {} self 2 (.set "level" (.int 4))
            (outer.operateAll {} self 2 [.switchTo 7, .switchTo 5] made) = .ok .null m ∧
          m.Holds {} self [2, 7] objectOf 2 := by
  have hok : (gauge.build .standard (.build .standard gauge.units) {}).toOption.map
      (fun u => u.types.map fun t => t.constructors.map fun c => c.params.length) = some [[1]] := by
    decide +kernel
  obtain ⟨unit, hbuild, hunit⟩ := Option.map_eq_some_iff.mp hok
  have hbuild : gauge.build .standard (.build .standard gauge.units) {} = .ok unit := by
    cases hb : gauge.build .standard (.build .standard gauge.units) {} with
    | error e => rw [hb] at hbuild; cases hbuild
    | ok u => rw [hb] at hbuild; cases hbuild; rfl
  obtain ⟨outer, houter, -, hall⟩ :=
    active_version_valid rfl hbuild versions_gauge (by decide +kernel)
  have hlengths : outer.constructors.map (fun c => c.params.length) = [1] :=
    List.mem_singleton.mp (hunit ▸ List.mem_map.mpr ⟨outer, houter, rfl⟩)
  obtain ⟨c, hc, hparams⟩ : ∃ c ∈ outer.constructors, c.params.length = 1 :=
    List.mem_map.mp (hlengths ▸ List.mem_singleton.mpr rfl)
  obtain ⟨owner, howned, hrun⟩ := hall c hc
  have howner : owner = gaugeSeven := by
    have hnone : gaugeTwo.decl.constructors = [] := rfl
    rcases List.mem_cons.mp howned.1 with rfl | hseven
    · rcases howned.2 with ⟨⟨d, hd, -⟩, -⟩ | ⟨hempty, -⟩
      · rw [hnone] at hd
        cases hd
      · cases hempty gaugeSeven (by simp)
    · exact List.mem_singleton.mp hseven
  subst howner
  obtain ⟨self, objectOf, made, hmade, hholds, hops⟩ :=
    hrun 0 { objects := [], fields := fun _ _ => .null } [.int 100] hparams
  obtain ⟨current, -, hserves⟩ := hops [.switchTo 7, .switchTo 5] (by simp [Operation.Offered])
  have hfirst : gaugeTwo.FirstPublic [gaugeTwo, gaugeSeven] "level" := by
    refine ⟨List.mem_cons_self, ⟨.single .pub (.plain "int") "level", ?_⟩, fun w hw _ => ?_⟩
    · exact ⟨List.mem_cons_self, rfl, List.mem_cons_self⟩
    · rcases List.mem_cons.mp hw with rfl | hseven
      · exact UInt32.le_refl _
      · rw [List.mem_singleton.mp hseven]
        decide
  obtain ⟨m, hset, -, hm⟩ := hserves.set rfl "level" gaugeTwo (.int 4) hfirst
  exact ⟨unit, outer, hbuild, houter, c, hc, howned, self, objectOf, made, hmade, hholds, m, hset, hm⟩

end Group

end VersionWeave
