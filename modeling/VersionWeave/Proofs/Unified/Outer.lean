import VersionWeave.Proofs.Unified.Furnished
import VersionWeave.Proofs.Unified.Versions
import VersionWeave.Unified.Build

namespace VersionWeave

namespace Accessor

/-- The accessors of all fields of a base name, as the options have it. -/
def members (options : Options) (table : SymbolTable) (base : String) (vs : List VersionDecl) :
    List Member :=
  match options.generateAccessors, table.get? base with
  | true, some owner => owner.fields.keys.flatMap (pair options.naming owner vs)
  | _, _ => []

theorem exists_of_mem_pair {naming : Naming} {owner : ClassInfo} {vs : List VersionDecl}
    {field : String} {m : Member} (h : m ∈ pair naming owner vs field) : ∃ ty n,
      m = .method (getter naming field ty n) ∨ m = .method (setter naming field ty n) := by
  unfold pair at h
  split at h
  next => simp at h
  next n info _ => exact ⟨_, n, by simpa using h⟩

/-- Accessors are methods: they show in no view of a type that passes methods over. -/
theorem filterMap_members {β : Type} {proj : Member → Option β}
    (hproj : ∀ m, proj (.method m) = none) (options : Options) (table : SymbolTable) (base : String)
    (vs : List VersionDecl) : (members options table base vs).filterMap proj = [] := by
  rw [List.filterMap_eq_nil_iff]
  intro m hm
  unfold members at hm
  split at hm
  next =>
    obtain ⟨field, -, hm⟩ := List.mem_flatMap.mp hm
    obtain ⟨ty, n, rfl | rfl⟩ := exists_of_mem_pair hm <;> exact hproj _
  next => simp at hm

end Accessor

namespace Group

/-- What the unified type of some versions is made of. -/
structure Unified (marker : Marker) (table : SymbolTable) (options : Options) (base : String)
    (vs : List VersionDecl) (outer : TypeDecl) : Prop where
  name : outer.name = base
  methods : outer.methods =
    Skeleton.switchMethod options.naming (vs.map VersionDecl.ordinal) ::
      ((signatureGroups marker vs).filterMap (fun g => Stub.ofGroup? options.naming g.2)
        ++ (Accessor.members options table base vs).filterMap Member.method?)
  fields : outer.fields =
    (vs.map VersionDecl.ordinal).map (Skeleton.instanceField options.naming)
      ++ [Skeleton.activeField options.naming]
  constructors : outer.constructors =
    (constructorSignatures marker vs).map
      (outerConstructor options.naming base (vs.map VersionDecl.ordinal))
  furnished : TypeDecl.Furnished options.naming vs (Group.contract marker options.naming vs)
    (Group.implementation marker options.naming vs) outer
  impls : ∀ n, (outer.nested? (options.naming.implType n) .classType).isSome = true ↔
    n ∈ vs.map VersionDecl.ordinal

variable {marker : Marker} {table : SymbolTable} {options : Options} {base : String}
  {vs : List VersionDecl}

theorem front_skeleton (ordinals : List UInt32) :
    ((emptyOuter base vs).addSkeleton options.naming ordinals).front =
      (base, [Skeleton.switchMethod options.naming ordinals],
        ordinals.map (Skeleton.instanceField options.naming)
          ++ [Skeleton.activeField options.naming], []) := by
  have hempty : (emptyOuter base vs).front = (base, [], [], []) := by cases vs <;> rfl
  simp only [TypeDecl.front, Prod.mk.injEq] at hempty
  simp only [TypeDecl.front, TypeDecl.addSkeleton, TypeDecl.methods_append, TypeDecl.fields_append,
    TypeDecl.constructors_append, Skeleton.methods_members, Skeleton.fields_members,
    Skeleton.constructors_members, hempty, List.nil_append]
  exact congrArg (·, _) hempty.1

theorem isSome_nested?_skeleton (ordinals : List UInt32) (n : UInt32) :
    (((emptyOuter base vs).addSkeleton options.naming ordinals).nested? (options.naming.implType n)
      .classType).isSome = true ↔ n ∈ ordinals := by
  have hempty : (emptyOuter base vs).members = [] := by cases vs <;> rfl
  rw [TypeDecl.nested?, TypeDecl.addSkeleton, TypeDecl.append, hempty, List.nil_append]
  by_cases hn : n ∈ ordinals
  · rw [Skeleton.findSome?_members _ _ hn]
    exact iff_of_true rfl hn
  · rw [Skeleton.findSome?_members_eq_none _ _ hn]
    exact iff_of_false Bool.false_ne_true hn

theorem Unified.implFields {outer : TypeDecl} (h : Unified marker table options base vs outer)
    (v : VersionDecl) (hv : v ∈ vs) :
    (outer.nested? (options.naming.implType v.ordinal) .classType).map TypeDecl.fields =
      some v.decl.fields := by
  rw [h.furnished.hasImpls v hv, Option.map_some, fields_implementation]

theorem outer_of_stages {merged stubbed : TypeDecl} (hmerge : ((emptyOuter base vs).addSkeleton
      options.naming (vs.map VersionDecl.ordinal)).mergeVersions options.naming base vs = .ok merged)
    (hstubs : merged.addStubs marker options.naming base vs = .ok stubbed) :
    Group.outer marker table options base vs = .ok
      ((stubbed.addConstructors marker options.naming vs).append
        (Accessor.members options table base vs)) := by
  unfold Group.outer
  dsimp only
  rw [hmerge]
  dsimp only [bind, Except.bind]
  rw [hstubs]
  unfold Accessor.members
  cases options.generateAccessors with
  | false => rw [TypeDecl.append_nil]; rfl
  | true =>
    cases table.get? base with
    | none => rw [TypeDecl.append_nil]; rfl
    | some owner => rfl

/-- The stages of a unified type: one of them fails, or each goes on from the last. -/
theorem outer_stages (marker : Marker) (table : SymbolTable) (options : Options) (base : String)
    (vs : List VersionDecl) : (∃ merged stubbed : TypeDecl,
    ((emptyOuter base vs).addSkeleton options.naming (vs.map VersionDecl.ordinal)).mergeVersions
        options.naming base vs = .ok merged ∧
      merged.addStubs marker options.naming base vs = .ok stubbed ∧
      Group.outer marker table options base vs = .ok
        ((stubbed.addConstructors marker options.naming vs).append
          (Accessor.members options table base vs))) ∨
    ∃ e : StageFailure, Group.outer marker table options base vs = .error e := by
  cases hmerge : ((emptyOuter base vs).addSkeleton options.naming
      (vs.map VersionDecl.ordinal)).mergeVersions options.naming base vs with
  | error e =>
    refine .inr ⟨e, ?_⟩
    unfold Group.outer
    dsimp only
    rw [hmerge]
    rfl
  | ok merged =>
    cases hstubs : merged.addStubs marker options.naming base vs with
    | error e =>
      refine .inr ⟨e, ?_⟩
      unfold Group.outer
      dsimp only
      rw [hmerge]
      dsimp only [bind, Except.bind]
      rw [hstubs]
    | ok stubbed => exact .inl ⟨merged, stubbed, rfl, hstubs, outer_of_stages hmerge hstubs⟩

/-- The unified type before its accessors, for which no table is needed. -/
def bareOuter (marker : Marker) (naming : Naming) (base : String) (vs : List VersionDecl) : Stage :=
  Group.outer marker {} { naming, generateAccessors := false } base vs

theorem outer_eq_map (marker : Marker) (table : SymbolTable) (options : Options) (base : String)
    (vs : List VersionDecl) : Group.outer marker table options base vs =
      (bareOuter marker options.naming base vs).map
        (·.append (Accessor.members options table base vs)) := by
  unfold bareOuter Group.outer
  dsimp only
  cases ((emptyOuter base vs).addSkeleton options.naming
      (vs.map VersionDecl.ordinal)).mergeVersions options.naming base vs with
  | error e => rfl
  | ok merged =>
    dsimp only [bind, Except.bind]
    cases merged.addStubs marker options.naming base vs with
    | error e => rfl
    | ok stubbed =>
      dsimp only [Except.map, Accessor.members]
      cases options.generateAccessors with
      | false => exact congrArg Except.ok (TypeDecl.append_nil _).symm
      | true =>
        cases table.get? base with
        | none => exact congrArg Except.ok (TypeDecl.append_nil _).symm
        | some owner => rfl

/-- With each ordinal once the unified type is built, and has its parts in their order. -/
theorem exists_outer (marker : Marker) (table : SymbolTable) (options : Options) (base : String)
    {vs : List VersionDecl} (hnodup : (vs.map VersionDecl.ordinal).Nodup) :
    ∃ outer, Group.outer marker table options base vs = .ok outer ∧
      Unified marker table options base vs outer := by
  obtain ⟨merged, stubbed, hmerge, hstubs, hfurnished⟩ := exists_stages marker options.naming base
    hnodup (show (emptyOuter base vs).members = [] by cases vs <;> rfl)
  refine ⟨_, outer_of_stages hmerge hstubs, ?_⟩
  obtain ⟨next, hnext, rfl⟩ := Stub.addAll_eq_ok hstubs
  have hreworked := (TypeDecl.reworked_mergeVersions hmerge).trans hnext
  have hfront := hreworked.front.trans (front_skeleton _)
  obtain ⟨hname, hrest⟩ := Prod.mk.inj hfront
  obtain ⟨hmethods, hrest⟩ := Prod.mk.inj hrest
  obtain ⟨hfields, hconstructors⟩ := Prod.mk.inj hrest
  refine ⟨hname, ?_, ?_, ?_, (hfurnished.append _).append _, fun n => ?_⟩
  · simp [TypeDecl.addConstructors, hmethods, List.filterMap_map, Function.comp_def,
      Member.method?]
  · have haccessors : (Accessor.members options table base vs).filterMap Member.field? = [] :=
      Accessor.filterMap_members (fun _ => rfl) options table base vs
    simp [TypeDecl.addConstructors, hfields, List.filterMap_map, Function.comp_def,
      Member.field?, haccessors]
  · have haccessors : (Accessor.members options table base vs).filterMap Member.constructor? = [] :=
      Accessor.filterMap_members (fun _ => rfl) options table base vs
    have hstubs : ∀ stubs : List MethodDecl,
        stubs.filterMap (fun _ => (none : Option ConstructorDecl)) = [] := fun stubs => by simp
    simp [TypeDecl.addConstructors, hconstructors, List.filterMap_map, Function.comp_def,
      Member.constructor?, haccessors, hname, hstubs]
  · have haccessors : (Accessor.members options table base vs).filterMap
        (Member.type? (options.naming.implType n) .classType) = [] :=
      Accessor.filterMap_members (fun _ => rfl) options table base vs
    rw [TypeDecl.nested?_append_eq haccessors, TypeDecl.addConstructors,
      TypeDecl.nested?_append_eq (by simp [Member.type?]),
      TypeDecl.nested?_append_eq (by simp [Member.type?]), hreworked.isSome_nested?,
      isSome_nested?_skeleton]

theorem outer_eq_ok {outer : TypeDecl} (hnodup : (vs.map VersionDecl.ordinal).Nodup)
    (h : Group.outer marker table options base vs = .ok outer) :
    Unified marker table options base vs outer := by
  obtain ⟨outer', houter', hunified⟩ := exists_outer marker table options base hnodup
  cases houter'.symm.trans h
  exact hunified

theorem build_eq_ok {g : Group} {unit : CompilationUnit}
    (h : g.build marker table options = .ok unit) : ∃ vs outer, g.versions marker = .ok vs ∧
      Group.outer marker table options g.baseName vs = .ok outer ∧
      unit = g.compose marker outer := by
  unfold build at h
  cases hvs : g.versions marker with
  | error e => rw [hvs] at h; cases h
  | ok vs =>
    rw [hvs] at h
    dsimp only [bind, Except.bind] at h
    cases houter : Group.outer marker table options g.baseName vs with
    | error e => rw [houter] at h; cases h
    | ok outer => rw [houter] at h; cases h; exact ⟨vs, outer, rfl, houter, rfl⟩

/-- The unified type stands in front of the bystanders. -/
theorem head?_types_compose (marker : Marker) (g : Group) (outer : TypeDecl) :
    (g.compose marker outer).types.head? = some outer := by
  have hall : ∀ ts rest : List TypeDecl,
      (ts.foldl (addBystander marker g.baseName) (outer :: rest)).head? = some outer := by
    intro ts
    induction ts with
    | nil => exact fun _ => rfl
    | cons t more ih =>
      intro rest
      rw [List.foldl_cons, addBystander]
      split
      next => exact ih rest
      next => exact ih (rest ++ [t])
  exact hall g.types []

/-- A group that has its versions is built. -/
theorem build_of_versions {g : Group} (table : SymbolTable) (options : Options)
    (hvs : g.versions marker = .ok vs) : ∃ outer,
      Unified marker table options g.baseName vs outer ∧
        g.build marker table options = .ok (g.compose marker outer) := by
  obtain ⟨outer, houter, hunified⟩ :=
    exists_outer marker table options g.baseName (versions_eq_ok hvs).2
  refine ⟨outer, hunified, ?_⟩
  rw [build, hvs]
  dsimp only [bind, Except.bind]
  rw [houter]

theorem build_of_refused {g : Group} {e : SynthesisError} (table : SymbolTable) (options : Options)
    (he : g.versions marker = .error e) : g.build marker table options = .error e := by
  rw [build, he]
  rfl

/-- A group yields the unit around its unified type, or an error under its own base name. -/
theorem build_cases (marker : Marker) (table : SymbolTable) (options : Options) (g : Group) :
    (∃ vs outer, g.versions marker = .ok vs ∧
      Unified marker table options g.baseName vs outer ∧
      g.build marker table options = .ok (g.compose marker outer)) ∨
    ∃ e : SynthesisError, e.baseName = g.baseName ∧ g.build marker table options = .error e := by
  cases hvs : g.versions marker with
  | error e => exact .inr ⟨e, versions_baseName hvs, build_of_refused table options hvs⟩
  | ok vs =>
    obtain ⟨outer, hunified, hbuild⟩ := build_of_versions table options hvs
    exact .inl ⟨vs, outer, rfl, hunified, hbuild⟩

end Group

end VersionWeave
