import VersionWeave.Pinning
import VersionWeave.Proofs.Unified.Stubs

namespace VersionWeave

/-- The argument types by which an object of a class is created; an undeclared constructor takes none. -/
def TypeDecl.creations (marker : Marker) (t : TypeDecl) : List (List String) :=
  if t.constructors.isEmpty then [[]] else t.constructors.map fun c => signatureTypes marker c.params

theorem signatureTypes_eq_nil {marker : Marker} {params : List Param} :
    signatureTypes marker params = [] ↔ params = [] :=
  List.map_eq_nil_iff

section

variable {marker : Marker} {vs : List VersionDecl}

theorem mem_numberedConstructors {s : ConstructorSignature} : s ∈ numberedConstructors vs ↔
    ∃ v ∈ vs, ∃ c ∈ v.decl.constructors, s = { owner := v.ordinal, params := c.params } := by
  simp only [numberedConstructors, List.mem_flatMap, List.mem_map, eq_comm]

theorem numberedConstructors_eq_nil : numberedConstructors vs = [] ↔
    ∀ v ∈ vs, v.decl.constructors = [] := by
  simp only [numberedConstructors, List.flatMap_eq_nil_iff, List.map_eq_nil_iff]

/-- What is collected are the declared signatures, or the empty one when nothing is declared. -/
theorem exists_constructorSignature_iff {types : List String} :
    (∃ s ∈ constructorSignatures marker vs, signatureTypes marker s.params = types) ↔
      (∃ v ∈ vs, ∃ c ∈ v.decl.constructors, signatureTypes marker c.params = types) ∨
        vs ≠ [] ∧ (∀ v ∈ vs, v.decl.constructors = []) ∧ types = [] := by
  constructor
  · rintro ⟨s, hs, rfl⟩
    rcases mem_constructorSignatures.mp hs with hfind | ⟨hnone, v, hhead, rfl⟩
    · obtain ⟨v, hv, c, hc, rfl⟩ := mem_numberedConstructors.mp (List.mem_of_find?_eq_some hfind)
      exact .inl ⟨v, hv, c, hc, rfl⟩
    · refine .inr ⟨fun hvs => ?_, numberedConstructors_eq_nil.mp hnone, rfl⟩
      rw [hvs] at hhead
      cases hhead
  · rintro (⟨v, hv, c, hc, rfl⟩ | ⟨hvs, hnone, rfl⟩)
    · have hsome : ((numberedConstructors vs).find? fun d =>
          signatureTypes marker d.params = signatureTypes marker c.params).isSome :=
        List.find?_isSome.mpr
          ⟨_, mem_numberedConstructors.mpr ⟨v, hv, c, hc, rfl⟩, decide_eq_true rfl⟩
      obtain ⟨s, hs⟩ := Option.isSome_iff_exists.mp hsome
      have htypes : signatureTypes marker s.params = signatureTypes marker c.params :=
        of_decide_eq_true (List.find?_some hs :)
      exact ⟨s, mem_constructorSignatures.mpr (.inl (htypes ▸ hs)), htypes⟩
    · obtain ⟨v, rest, rfl⟩ := List.exists_cons_of_ne_nil hvs
      refine ⟨{ owner := v.ordinal, params := [] }, mem_constructorSignatures.mpr (.inr ?_), rfl⟩
      exact ⟨numberedConstructors_eq_nil.mpr hnone, v, rfl, rfl⟩

end

namespace Group

variable {marker : Marker} {table : SymbolTable} {options : Options} {vs : List VersionDecl}

theorem Unified.mem_constructors {base : String} {outer : TypeDecl}
    (h : Unified marker table options base vs outer) (hvs : vs ≠ []) {types : List String} :
    types ∈ outer.constructors.map (fun c => signatureTypes marker c.params) ↔
      (∃ v ∈ vs, ∃ c ∈ v.decl.constructors, signatureTypes marker c.params = types) ∨
        (∀ v ∈ vs, v.decl.constructors = []) ∧ types = [] := by
  have hcollected : (∃ s ∈ constructorSignatures marker vs,
      signatureTypes marker s.params = types) ↔ _ := exists_constructorSignature_iff
  rw [h.constructors, List.map_map, List.mem_map]
  simpa [hvs, outerConstructor] using hcollected

/--
A version is created through the unified type as it was before, unless it leaves its constructor
implicit where others declare theirs and all of these take arguments.
-/
theorem creations_kept {g : Group} {unit : CompilationUnit}
    (hbuild : g.build marker table options = .ok unit) (hvs : g.versions marker = .ok vs) :
    ∃ outer, unit.types.head? = some outer ∧ ∀ v ∈ vs,
      (∀ st : Pinning, st.scope.marker = marker →
        ((Pinning.reviser options.naming).typeRef (.plain v.decl.name)).run st =
          (.plain outer.name, st)) ∧
      ∀ types ∈ v.decl.creations marker,
        (types ∈ outer.constructors.map fun c => signatureTypes marker c.params) ↔
          (v.decl.constructors = [] → (∀ w ∈ vs, w.decl.constructors = []) ∨
            ∃ w ∈ vs, ∃ c ∈ w.decl.constructors, c.params = []) := by
  obtain ⟨vs', outer, hvs', houter, rfl⟩ := build_eq_ok hbuild
  cases hvs.symm.trans hvs'
  have hunified := outer_eq_ok (versions_eq_ok hvs).2 houter
  refine ⟨outer, head?_types_compose marker g outer, fun v hv => ⟨fun st hst => ?_, ?_⟩⟩
  · have hbase : marker.baseName v.decl.name = outer.name := by
      rw [hunified.name, Marker.baseName, ((mem_versions hvs).mp hv).2]
    rw [← hbase, ← hst]
    rfl
  · intro types htypes
    rw [hunified.mem_constructors (List.ne_nil_of_mem hv)]
    unfold TypeDecl.creations at htypes
    split at htypes
    -- The implicit constructor; a declared one is kept whatever the others declare.
    next hnone =>
      have hnone := List.isEmpty_iff.mp hnone
      cases List.mem_singleton.mp htypes
      simp only [signatureTypes_eq_nil, hnone, and_true, forall_const, or_comm]
    next hsome =>
      obtain ⟨c, hc, rfl⟩ := List.mem_map.mp htypes
      refine iff_of_true (.inl ⟨v, hv, c, hc, rfl⟩) fun hnone => ?_
      rw [hnone] at hc
      cases hc

def crateOne : VersionDecl where
  ordinal := 1
  decl :=
    { name := "Crate__1__"
      members := [.constructor
        { modifiers := .pub, name := "Crate__1__", params := [{ ty := .plain "int", name := "size" }] }] }

def crateTwo : VersionDecl where
  ordinal := 2
  decl := { name := "Crate__2__" }

/-- The first version is created with a size, the second without anything. -/
def crate : Group where
  baseName := "Crate"
  units := [{ types := [crateOne.decl] }, { types := [crateTwo.decl] }]

theorem versions_crate : crate.versions .standard = .ok [crateOne, crateTwo] :=
  versions_of_perm (by simp) (by decide) (by decide +kernel) (List.Perm.refl _)

/-- A crate of the second version was created without arguments, and there is no way left to. -/
theorem implicit_creation_lost : ∃ unit outer,
    crate.build .standard (.build .standard crate.units) {} = .ok unit ∧
    unit.types.head? = some outer ∧ [] ∈ crateTwo.decl.creations .standard ∧
    [] ∉ outer.constructors.map fun c => signatureTypes .standard c.params := by
  obtain ⟨outer, hunified, hbuild⟩ :=
    build_of_versions (.build .standard crate.units) {} versions_crate
  refine ⟨_, outer, hbuild, head?_types_compose _ _ _, by decide, fun hmem => ?_⟩
  rw [hunified.mem_constructors (by simp)] at hmem
  exact absurd hmem (by decide +kernel)

theorem creations_kept_crate : ∃ unit outer,
    crate.build .standard (.build .standard crate.units) {} = .ok unit ∧
    unit.types.head? = some outer ∧ crateOne.decl.creations .standard = [["int"]] ∧
    (["int"] ∈ outer.constructors.map fun c => signatureTypes .standard c.params) ∧
    ∀ st : Pinning, st.scope.marker = .standard →
      ((Pinning.reviser {}).typeRef (.plain "Crate__1__")).run st = (.plain outer.name, st) := by
  obtain ⟨outer, -, hbuild⟩ := build_of_versions (.build .standard crate.units) {} versions_crate
  obtain ⟨outer, houter, hkept⟩ := creations_kept hbuild versions_crate
  obtain ⟨hname, hcreations⟩ := hkept crateOne (by simp)
  refine ⟨_, outer, hbuild, houter, by decide, ?_, hname⟩
  exact (hcreations ["int"] (by decide)).mpr fun h => by cases h

end Group

end VersionWeave
