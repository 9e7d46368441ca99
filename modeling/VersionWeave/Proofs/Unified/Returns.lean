import VersionWeave.Proofs.Unified.Merged

namespace VersionWeave

/-- The return types with which a type declares a signature. -/
def TypeDecl.returnTypes (marker : Marker) (s : Signature) (t : TypeDecl) : List TypeRef :=
  (t.methods.filter fun m => m.signature marker = s).map MethodDecl.returnType

theorem TypeDecl.returnTypes_eq (marker : Marker) (s : Signature) (t : TypeDecl) :
    t.returnTypes marker s =
      ((t.methods.map fun m => (m.signature marker, m.returnType)).filter (·.1 = s)).map
        Prod.snd := by
  rw [returnTypes, List.filter_map, List.map_map]
  rfl

theorem TypeDecl.returnTypes_eq_nil {marker : Marker} {s : Signature} {t : TypeDecl} :
    t.returnTypes marker s = [] ↔ s ∉ t.methods.map (·.signature marker) := by
  simp [returnTypes, List.filter_eq_nil_iff]

namespace Stub

variable {marker : Marker} {naming : Naming} {vs : List VersionDecl} {e : Signature × MethodDecl}

/-- What stands for a shared signature is the first of several declarations. -/
theorem exists_declarers (h : e ∈ shared (signatureGroups marker vs)) : ∃ n second others,
    declarers marker vs e.1 = (n, e.2) :: second :: others ∧
      surfaces marker vs e.1 = true := by
  rw [shared, signatureGroups_eq, List.filterMap_map] at h
  obtain ⟨s, -, hs⟩ := List.mem_filterMap.mp h
  obtain ⟨m, hm, rfl⟩ := Option.map_eq_some_iff.mp hs
  dsimp only at hm ⊢
  rw [← surfaced_declarers]
  generalize declarers marker vs s = group at hm
  unfold template? at hm
  split at hm
  next n first second others =>
    split at hm
    next hsurfaced =>
      cases hm
      exact ⟨n, second, others, rfl, hsurfaced⟩
    next => cases hm
  next => cases hm

theorem filter_shared (h : e ∈ shared (signatureGroups marker vs)) :
    (shared (signatureGroups marker vs)).filter (fun x => x.1 = e.1) = [e] := by
  have hone := filter_filterMap_eq_singleton (p := fun x => x.1 = e.1) (nodup_shared marker vs) h
    (rfl : some e = some e) (fun x _ y hy => by cases hy; exact decide_eq_true_iff)
  rwa [List.filterMap_some] at hone

/-- A version keeps its return types for a shared signature, and a refusal takes the template's. -/
theorem returnTypes_implementation (naming : Naming) (v : VersionDecl)
    (h : e ∈ shared (signatureGroups marker vs)) :
    (Group.implementation marker naming vs v).returnTypes marker e.1 =
      if (v.decl.returnTypes marker e.1).isEmpty then [e.2.returnType]
      else v.decl.returnTypes marker e.1 := by
  have hsame : ∀ x ∈ shared (signatureGroups marker vs),
      (unsupported x.2 v.ordinal).signature marker = x.1 := fun x hx =>
    (signature_unsupported marker x.2 v.ordinal).trans (signature_of_mem_shared hx)
  rw [TypeDecl.returnTypes_eq,
    Group.map_methods_implementation (p := fun m => (m.signature marker, m.returnType))
      (fun _ => rfl), List.filter_append, List.map_append, ← TypeDecl.returnTypes_eq,
    List.filter_map, List.filter_filter]
  by_cases hown : e.1 ∈ v.decl.methods.map (·.signature marker)
  · have hsome : (v.decl.returnTypes marker e.1).isEmpty = false :=
      List.isEmpty_eq_false_iff.mpr fun hnil => TypeDecl.returnTypes_eq_nil.mp hnil hown
    rw [hsome, if_neg Bool.false_ne_true, List.filter_eq_nil_iff.mpr, List.map_nil, List.map_nil,
      List.append_nil]
    intro x hx
    simp only [Function.comp_apply, hsame x hx, Bool.and_eq_true, decide_eq_true_eq]
    exact fun hlacking => hlacking.2 (hlacking.1 ▸ hown)
  · rw [TypeDecl.returnTypes_eq_nil.mpr hown, List.filter_congr (q := fun x => x.1 = e.1),
      filter_shared h]
    · rfl
    intro x hx
    rw [Bool.eq_iff_iff]
    simp only [Function.comp_apply, hsame x hx, Bool.and_eq_true, decide_eq_true_eq]
    exact and_iff_left_of_imp fun hx => hx ▸ hown

end Stub

namespace Group

variable {marker : Marker} {table : SymbolTable} {options : Options} {vs : List VersionDecl}

/-- The stub of a shared signature stands in the unified type, and calls the active version. -/
theorem Unified.shared_stub {base : String} {outer : TypeDecl}
    (h : Unified marker table options base vs outer) {e : Signature × MethodDecl}
    (he : e ∈ Stub.shared (signatureGroups marker vs)) :
    Stub.forwarding e.2 (.thisField options.naming.activeField) ∈ outer.methods := by
  obtain ⟨n, second, others, hdeclarers, hsurfaces⟩ := Stub.exists_declarers he
  have hgroup : (e.1, declarers marker vs e.1) ∈ signatureGroups marker vs := by
    rw [mem_signatureGroups]
    exact ⟨rfl, by rw [hdeclarers]; exact List.cons_ne_nil _ _⟩
  rw [h.methods]
  refine List.mem_cons_of_mem _ (List.mem_append_left _ (List.mem_filterMap.mpr ⟨_, hgroup, ?_⟩))
  rw [← surfaced_declarers, hdeclarers] at hsurfaces
  rw [hdeclarers, Stub.ofGroup?, if_pos hsurfaces]
  rfl

/--
The contract, the stub and every refusal of a signature have the return type of its first
declaration, and every version keeps the return types it declares; so an implementation type can
have another return type than the contract, unless all declarations of the signature agree.
-/
theorem contract_return_types {g : Group} {unit : CompilationUnit}
    (hbuild : g.build marker table options = .ok unit) (hvs : g.versions marker = .ok vs) :
    ∃ outer contract, unit.types.head? = some outer ∧
      outer.nested? options.naming.behaviorInterface .interfaceType = some contract ∧
      ∀ c ∈ contract.methods,
        (∃ first ∈ (declarers marker vs (c.signature marker)).head?,
          first.2.returnType = c.returnType) ∧
        (∃ stub ∈ outer.methods, stub.signature marker = c.signature marker ∧
          stub.returnType = c.returnType ∧
          stub.ForwardsTo (.thisField options.naming.activeField)) ∧
        (∀ v ∈ vs, ∃ impl,
          outer.nested? (options.naming.implType v.ordinal) .classType = some impl ∧
          impl.returnTypes marker (c.signature marker) =
            if (v.decl.returnTypes marker (c.signature marker)).isEmpty then [c.returnType]
            else v.decl.returnTypes marker (c.signature marker)) ∧
        ((∀ v ∈ vs, ∀ impl,
            outer.nested? (options.naming.implType v.ordinal) .classType = some impl →
            ∀ r ∈ impl.returnTypes marker (c.signature marker), r = c.returnType) ↔
          ∀ v ∈ vs, ∀ r ∈ v.decl.returnTypes marker (c.signature marker), r = c.returnType) := by
  obtain ⟨vs', outer, hvs', houter, rfl⟩ := build_eq_ok hbuild
  cases hvs.symm.trans hvs'
  have hunified := outer_eq_ok (versions_eq_ok hvs).2 houter
  refine ⟨outer, _, head?_types_compose marker g outer, hunified.furnished.hasContract, ?_⟩
  intro c hc
  rw [methods_contract] at hc
  obtain ⟨e, he, rfl⟩ := List.mem_map.mp hc
  obtain ⟨n, second, others, hdeclarers, -⟩ := Stub.exists_declarers he
  have hsignature : (Stub.bare e.2).signature marker = e.1 :=
    (Stub.signature_bare marker e.2).trans (Stub.signature_of_mem_shared he)
  rw [hsignature]
  have himpls : ∀ v ∈ vs, ∃ impl,
      outer.nested? (options.naming.implType v.ordinal) .classType = some impl ∧
        impl.returnTypes marker e.1 =
          if (v.decl.returnTypes marker e.1).isEmpty then [e.2.returnType]
          else v.decl.returnTypes marker e.1 := fun v hv =>
    ⟨_, hunified.furnished.hasImpls v hv, Stub.returnTypes_implementation options.naming v he⟩
  refine ⟨⟨(n, e.2), by rw [hdeclarers]; rfl, rfl⟩, ⟨_, hunified.shared_stub he, ?_, rfl,
    Stub.forwarding_forwardsTo _ _⟩, himpls, ?_, ?_⟩
  · exact (Stub.signature_forwarding marker e.2 _).trans (Stub.signature_of_mem_shared he)
  · intro hagree v hv r hr
    obtain ⟨impl, himpl, hreturns⟩ := himpls v hv
    rw [if_neg (by simp [List.ne_nil_of_mem hr])] at hreturns
    exact hagree v hv impl himpl r (hreturns ▸ hr)
  · intro hagree v hv impl himpl r hr
    obtain ⟨impl', himpl', hreturns⟩ := himpls v hv
    cases himpl.symm.trans himpl'
    rw [hreturns] at hr
    split at hr
    next => exact List.mem_singleton.mp hr
    next => exact hagree v hv r hr

/-- A version that runs with a result of some type, or without one, or cannot run at all. -/
def runner (n : UInt32) (name : String) (returnTypes : List TypeRef) : VersionDecl where
  ordinal := n
  decl :=
    { name
      members := returnTypes.map fun r => .method { modifiers := .pub, returnType := r, name := "run" } }

def runnerVersions : List VersionDecl :=
  [runner 1 "Runner__1__" [.plain "int"], runner 2 "Runner__2__" [.void], runner 3 "Runner__3__" []]

def runners : Group where
  baseName := "Runner"
  units := runnerVersions.map fun v => { types := [v.decl] }

theorem versions_runners : runners.versions .standard = .ok runnerVersions :=
  versions_of_perm (by decide) (by decide) (by decide) (List.Perm.refl _)

theorem contract_return_types_runners : ∃ unit outer contract,
    runners.build .standard (.build .standard runners.units) {} = .ok unit ∧
    unit.types.head? = some outer ∧
    outer.nested? "IVersionBehavior" .interfaceType = some contract ∧
    contract.methods.map (fun c => (c.signature .standard, c.returnType)) =
      [(("run", []), .plain "int")] ∧
    (∃ impl, outer.nested? "V1_Impl" .classType = some impl ∧
      impl.returnTypes .standard ("run", []) = [.plain "int"]) ∧
    (∃ impl, outer.nested? "V2_Impl" .classType = some impl ∧
      impl.returnTypes .standard ("run", []) = [.void]) ∧
    ∃ impl, outer.nested? "V3_Impl" .classType = some impl ∧
      impl.returnTypes .standard ("run", []) = [.plain "int"] := by
  obtain ⟨built, hunified, hbuild⟩ :=
    build_of_versions (.build .standard runners.units) {} versions_runners
  obtain ⟨outer, contract, hhead, hcontract, hreturns⟩ :=
    contract_return_types hbuild versions_runners
  cases (head?_types_compose .standard runners built).symm.trans hhead
  cases hunified.furnished.hasContract.symm.trans hcontract
  obtain ⟨-, -, himpls, -⟩ := hreturns
    { returnType := .plain "int", name := "run", params := [] } List.mem_cons_self
  refine ⟨_, _, _, hbuild, hhead, hcontract, rfl, ?_, ?_, ?_⟩
  · exact himpls (runner 1 "Runner__1__" [.plain "int"]) (by simp [runnerVersions])
  · exact himpls (runner 2 "Runner__2__" [.void]) (by simp [runnerVersions])
  · exact himpls (runner 3 "Runner__3__" []) (by simp [runnerVersions])

/-- An implementation type of a group that builds need not have the return types of the contract. -/
theorem not_every_return_type_kept :
    ¬ ∀ (g : Group) (unit : CompilationUnit) (outer contract impl : TypeDecl) (n : UInt32),
      g.build .standard (.build .standard g.units) {} = .ok unit → unit.types.head? = some outer →
      outer.nested? "IVersionBehavior" .interfaceType = some contract →
      outer.nested? (({} : Naming).implType n) .classType = some impl →
      ∀ c ∈ contract.methods, ∀ m ∈ impl.methods,
        m.signature .standard = c.signature .standard → m.returnType = c.returnType := by
  intro h
  obtain ⟨built, hunified, hbuild⟩ :=
    build_of_versions (.build .standard runners.units) {} versions_runners
  have hagree := h runners _ built _ _ 2 hbuild (head?_types_compose .standard runners built)
    hunified.furnished.hasContract
    (hunified.furnished.hasImpls (runner 2 "Runner__2__" [.void]) (by simp [runnerVersions]))
    { returnType := .plain "int", name := "run" } List.mem_cons_self
    { modifiers := .pub, returnType := .void, name := "run" } List.mem_cons_self rfl
  exact absurd (congrArg TypeRef.name hagree) (by decide)

end Group

end VersionWeave
