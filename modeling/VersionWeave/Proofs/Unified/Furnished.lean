import VersionWeave.Proofs.Unified.Stages

namespace VersionWeave

namespace TypeDecl

/-- Changes the implementation type of one version after the other. -/
def updateEach (naming : Naming) (change : VersionDecl → TypeDecl → TypeDecl) :
    List VersionDecl → TypeDecl → Option TypeDecl
  | [], outer => some outer
  | v :: rest, outer =>
    (outer.updateNested? (naming.implType v.ordinal) .classType (change v)).bind
      (updateEach naming change rest)

section

variable {naming : Naming} {change : VersionDecl → TypeDecl → TypeDecl}
  {impl : VersionDecl → TypeDecl}

/-- Where every version has its implementation type, each is changed once and all else is kept. -/
theorem exists_updateEach (hname : ∀ v t, (change v t).name = t.name)
    (hkind : ∀ v t, (change v t).kind = t.kind) {vs : List VersionDecl} :
    ∀ {outer : TypeDecl}, (vs.map VersionDecl.ordinal).Nodup →
      (∀ v ∈ vs, outer.nested? (naming.implType v.ordinal) .classType = some (impl v)) →
      ∃ result, updateEach naming change vs outer = some result ∧
        (∀ v ∈ vs, result.nested? (naming.implType v.ordinal) .classType =
          some (change v (impl v))) ∧
        ∀ name kind, (∀ v ∈ vs, ¬ (name = naming.implType v.ordinal ∧ kind = .classType)) →
          result.nested? name kind = outer.nested? name kind := by
  induction vs with
  | nil => exact fun {outer} _ _ => ⟨outer, rfl, by simp, fun _ _ _ => rfl⟩
  | cons v rest ih =>
    intro outer hnodup himpls
    obtain ⟨hv, hrest⟩ := List.forall_mem_cons.mp himpls
    obtain ⟨hnew, hnodup⟩ := List.nodup_cons.mp hnodup
    obtain ⟨next, hnext⟩ := exists_updateNested? (change v) hv
    have hstep := nested?_updateNested? hnext (hname v) (hkind v)
    have hapart : ∀ w ∈ rest, naming.implType w.ordinal ≠ naming.implType v.ordinal :=
      fun w hw h => hnew (Naming.implType_inj.mp h ▸ List.mem_map.mpr ⟨w, hw, rfl⟩)
    have himpls' : ∀ w ∈ rest,
        next.nested? (naming.implType w.ordinal) .classType = some (impl w) := by
      intro w hw
      rw [hstep, if_neg fun h => hapart w hw h.1, hrest w hw]
    obtain ⟨result, hresult, hchanged, hkept⟩ := ih hnodup himpls'
    refine ⟨result, by rw [updateEach, hnext]; exact hresult,
      List.forall_mem_cons.mpr ⟨?_, hchanged⟩, fun name kind hother => ?_⟩
    · rw [hkept _ _ fun w hw h => hapart w hw h.1.symm, hstep, if_pos ⟨rfl, rfl⟩, hv]
      rfl
    · obtain ⟨hne, hother⟩ := List.forall_mem_cons.mp hother
      rw [hkept name kind hother, hstep, if_neg hne]

theorem mergeVersions_of_updateEach (base : String) {vs : List VersionDecl} :
    ∀ {outer result : TypeDecl},
      updateEach naming (fun v => Merge.absorb (naming.implType v.ordinal) v.decl) vs outer =
        some result → mergeVersions naming base vs outer = .ok result := by
  induction vs with
  | nil => intro outer result h; cases h; rfl
  | cons v rest ih =>
    intro outer result h
    obtain ⟨next, hnext, h⟩ := Option.bind_eq_some_iff.mp h
    rw [mergeVersions, hnext]
    exact ih h

end

/--
A unified type on its way: it has a contract, and an implementation type for each of its versions.
-/
structure Furnished (naming : Naming) (vs : List VersionDecl) (contract : TypeDecl)
    (impl : VersionDecl → TypeDecl) (outer : TypeDecl) : Prop where
  hasContract : outer.nested? naming.behaviorInterface .interfaceType = some contract
  hasImpls : ∀ v ∈ vs, outer.nested? (naming.implType v.ordinal) .classType = some (impl v)

namespace Furnished

variable {naming : Naming} {vs : List VersionDecl} {contract outer : TypeDecl}
  {impl : VersionDecl → TypeDecl}

theorem append (h : Furnished naming vs contract impl outer) (members : List Member) :
    Furnished naming vs contract impl (outer.append members) where
  hasContract := nested?_append h.hasContract members
  hasImpls v hv := nested?_append (h.hasImpls v hv) members

theorem updateEach (h : Furnished naming vs contract impl outer)
    (hnodup : (vs.map VersionDecl.ordinal).Nodup) (change : VersionDecl → TypeDecl → TypeDecl)
    (hname : ∀ v t, (change v t).name = t.name) (hkind : ∀ v t, (change v t).kind = t.kind) :
    ∃ result, TypeDecl.updateEach naming change vs outer = some result ∧
      Furnished naming vs contract (fun v => change v (impl v)) result := by
  obtain ⟨result, hresult, himpls, hkept⟩ := exists_updateEach hname hkind hnodup h.hasImpls
  refine ⟨result, hresult, ?_, himpls⟩
  -- The contract is an interface, so no implementation type is mistaken for it.
  rw [hkept _ _ fun v _ hsame => TypeKind.noConfusion hsame.2, h.hasContract]

theorem mergeVersions (h : Furnished naming vs contract impl outer)
    (hnodup : (vs.map VersionDecl.ordinal).Nodup) (base : String) :
    ∃ result, TypeDecl.mergeVersions naming base vs outer = .ok result ∧
      Furnished naming vs contract
        (fun v => Merge.absorb (naming.implType v.ordinal) v.decl (impl v)) result := by
  obtain ⟨result, hresult, hfurnished⟩ := h.updateEach hnodup
    (fun v => Merge.absorb (naming.implType v.ordinal) v.decl)
    (fun v t => (Merge.header_absorb (naming.implType v.ordinal) v.decl t).1)
    (fun v t => (Merge.header_absorb (naming.implType v.ordinal) v.decl t).2)
  exact ⟨result, mergeVersions_of_updateEach base hresult, hfurnished⟩

end Furnished

end TypeDecl

theorem Skeleton.furnished (naming : Naming) (vs : List VersionDecl) {outer : TypeDecl}
    (hempty : outer.members = []) :
    TypeDecl.Furnished naming vs (contract naming) (fun v => implementation naming v.ordinal)
      (outer.addSkeleton naming (vs.map VersionDecl.ordinal)) where
  hasContract := by
    simp [TypeDecl.nested?, TypeDecl.addSkeleton, TypeDecl.append, hempty, members, Member.type?,
      contract]
  hasImpls v hv := by
    rw [TypeDecl.nested?, TypeDecl.addSkeleton, TypeDecl.append, hempty, List.nil_append]
    exact findSome?_members naming _ (List.mem_map.mpr ⟨v, hv, rfl⟩)

namespace Stub

variable {marker : Marker} {naming : Naming} {vs : List VersionDecl} {contract outer : TypeDecl}
  {impl : VersionDecl → TypeDecl} {signature : Signature} {template : MethodDecl}

theorem completeAll_of_updateEach (base : String) {vs : List VersionDecl} :
    ∀ {outer result : TypeDecl},
      TypeDecl.updateEach naming (fun v => complete marker signature template v.ordinal) vs outer =
        some result → completeAll marker naming base signature template vs outer = .ok result := by
  induction vs with
  | nil => intro outer result h; cases h; rfl
  | cons v rest ih =>
    intro outer result h
    obtain ⟨next, hnext, h⟩ := Option.bind_eq_some_iff.mp h
    rw [completeAll, hnext]
    exact ih h

/-- A shared signature joins the contract, and every implementation type comes to answer to it. -/
theorem share_furnished (marker : Marker) (h : TypeDecl.Furnished naming vs contract impl outer)
    (hnodup : (vs.map VersionDecl.ordinal).Nodup) (base : String) (signature : Signature)
    (template : MethodDecl) :
    ∃ result, share marker naming base vs signature template outer = .ok result ∧
      TypeDecl.Furnished naming vs (contract.append [.method (bare template)])
        (fun v => complete marker signature template v.ordinal (impl v)) result := by
  obtain ⟨next, hnext⟩ := TypeDecl.exists_updateNested? (·.append [.method (bare template)])
    h.hasContract
  have hstep := TypeDecl.nested?_updateNested? hnext (fun _ => rfl) (fun _ => rfl)
  have hfurnished : TypeDecl.Furnished naming vs (contract.append [.method (bare template)]) impl
      next := by
    refine ⟨by rw [hstep, if_pos ⟨rfl, rfl⟩, h.hasContract]; rfl, fun v hv => ?_⟩
    rw [hstep, if_neg fun hsame => TypeKind.noConfusion hsame.2, h.hasImpls v hv]
  obtain ⟨result, hresult, hdone⟩ := hfurnished.updateEach hnodup
    (fun v => complete marker signature template v.ordinal)
    (fun v t => (header_complete v.ordinal t).1) (fun v t => (header_complete v.ordinal t).2.1)
  refine ⟨result, ?_, hdone⟩
  rw [share, extendContract, hnext]
  exact completeAll_of_updateEach base hresult

/-- The declaration that stands for several of one signature, unless all of them are private. -/
def template? : List (UInt32 × MethodDecl) → Option MethodDecl
  | (ordinal, first) :: second :: others =>
    if surfaced ((ordinal, first) :: second :: others) then some first else none
  | _ => none

/-- The signatures that several declarations share, with the declarations that stand for them. -/
def shared (groups : List (Signature × List (UInt32 × MethodDecl))) :
    List (Signature × MethodDecl) :=
  groups.filterMap fun g => (template? g.2).map (g.1, ·)

theorem shared_cons (g : Signature × List (UInt32 × MethodDecl))
    (rest : List (Signature × List (UInt32 × MethodDecl))) :
    shared (g :: rest) = ((template? g.2).map (g.1, ·)).toList ++ shared rest := by
  rw [shared, List.filterMap_cons]
  cases template? g.2 <;> rfl

/-- An implementation type after all signatures that are shared. -/
def completed (marker : Marker) (ordinal : UInt32) (signatures : List (Signature × MethodDecl))
    (impl : TypeDecl) : TypeDecl :=
  signatures.foldl (fun impl s => complete marker s.1 s.2 ordinal impl) impl

theorem addAll_furnished (hnodup : (vs.map VersionDecl.ordinal).Nodup) (base : String)
    {groups : List (Signature × List (UInt32 × MethodDecl))} :
    ∀ {stubs : List Member} {contract outer : TypeDecl} {impl : VersionDecl → TypeDecl},
      TypeDecl.Furnished naming vs contract impl outer →
      ∃ result, addAll marker naming base vs groups stubs outer = .ok result ∧
        TypeDecl.Furnished naming vs
          (contract.append ((shared groups).map fun s => .method (bare s.2)))
          (fun v => completed marker v.ordinal (shared groups) (impl v)) result := by
  induction groups with
  | nil =>
    intro stubs contract outer impl h
    refine ⟨_, rfl, ?_⟩
    rw [shared, List.filterMap_nil, List.map_nil, TypeDecl.append_nil]
    exact h.append stubs
  | cons g rest ih =>
    intro stubs contract outer impl h
    obtain ⟨signature, group⟩ := g
    rw [addAll.eq_def, shared_cons]
    dsimp only
    cases group with
    | nil => exact ih h
    | cons d others =>
      obtain ⟨ordinal, first⟩ := d
      cases others with
      | nil =>
        cases surfaced [(ordinal, first)] with
        | false => exact ih h
        | true => exact ih h
      | cons second others =>
        rw [template?]
        cases surfaced ((ordinal, first) :: second :: others) with
        | false => exact ih h
        | true =>
          obtain ⟨next, hnext, hfurnished⟩ :=
            share_furnished marker h hnodup base signature first
          obtain ⟨result, hresult, hdone⟩ := ih hfurnished
          refine ⟨result, ?_, ?_⟩
          · dsimp only
            rw [if_neg (by simp), hnext]
            exact hresult
          · simpa [TypeDecl.append, completed] using hdone

theorem fields_completed (marker : Marker) (ordinal : UInt32)
    (signatures : List (Signature × MethodDecl)) (impl : TypeDecl) :
    (completed marker ordinal signatures impl).fields = impl.fields := by
  induction signatures generalizing impl with
  | nil => rfl
  | cons s rest ih => exact (ih _).trans (header_complete ordinal impl).2.2

end Stub

namespace Group

/-- The contract of a unified type: the signatures that are shared, without their bodies. -/
def contract (marker : Marker) (naming : Naming) (vs : List VersionDecl) : TypeDecl :=
  (Skeleton.contract naming).append
    ((Stub.shared (signatureGroups marker vs)).map fun s => .method (Stub.bare s.2))

/-- The implementation type of a version: its members, made to answer to what is shared. -/
def implementation (marker : Marker) (naming : Naming) (vs : List VersionDecl) (v : VersionDecl) :
    TypeDecl :=
  Stub.completed marker v.ordinal (Stub.shared (signatureGroups marker vs))
    (Merge.absorb (naming.implType v.ordinal) v.decl (Skeleton.implementation naming v.ordinal))

theorem fields_implementation (marker : Marker) (naming : Naming) (vs : List VersionDecl)
    (v : VersionDecl) : (implementation marker naming vs v).fields = v.decl.fields := by
  rw [implementation, Stub.fields_completed, Merge.fields_absorb]
  rfl

/-- With each ordinal once, no stage misses a nested type. -/
theorem exists_stages (marker : Marker) (naming : Naming) (base : String) {vs : List VersionDecl}
    (hnodup : (vs.map VersionDecl.ordinal).Nodup) {outer : TypeDecl} (hempty : outer.members = []) :
    ∃ merged stubbed, (outer.addSkeleton naming (vs.map VersionDecl.ordinal)).mergeVersions naming
        base vs = .ok merged ∧ merged.addStubs marker naming base vs = .ok stubbed ∧
      TypeDecl.Furnished naming vs (contract marker naming vs) (implementation marker naming vs)
        stubbed := by
  obtain ⟨merged, hmerge, hmerged⟩ :=
    (Skeleton.furnished naming vs hempty).mergeVersions hnodup base
  obtain ⟨stubbed, hstubs, hstubbed⟩ := Stub.addAll_furnished hnodup base hmerged
  exact ⟨merged, stubbed, hmerge, hstubs, hstubbed⟩

end Group

end VersionWeave
