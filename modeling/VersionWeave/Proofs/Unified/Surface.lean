import VersionWeave.Proofs.Distinct
import VersionWeave.Proofs.Symbols
import VersionWeave.Proofs.Unified.Stubs

namespace VersionWeave

/-- The signatures that some versions declare, by first appearance. -/
def signatures (marker : Marker) (vs : List VersionDecl) : List Signature :=
  distinct ((numberedMethods vs).map fun d => d.2.signature marker)

/-- The declarations of a signature, with their ordinals. -/
def declarers (marker : Marker) (vs : List VersionDecl) (s : Signature) :
    List (UInt32 × MethodDecl) :=
  (numberedMethods vs).filter fun d => d.2.signature marker = s

/-- Some declaration of the signature is not private. -/
def surfaces (marker : Marker) (vs : List VersionDecl) (s : Signature) : Bool :=
  (declarers marker vs s).any fun d => d.2.modifiers.visibility != .priv

section

variable {marker : Marker} {vs : List VersionDecl} {s : Signature}

theorem signatureGroups_eq (marker : Marker) (vs : List VersionDecl) :
    signatureGroups marker vs =
      (signatures marker vs).map fun s => (s, declarers marker vs s) := by
  have hdeclarers : ∀ s, (((numberedMethods vs).map fun d => (d.2.signature marker, d)).filter
      fun b => b.1 = s).map Prod.snd = declarers marker vs s := by
    intro s
    rw [List.filter_map, List.map_map, declarers]
    simp [Function.comp_def]
  rw [signatureGroups_eq_collect, Entries.collect_eq, List.map_map]
  simp only [hdeclarers]
  rfl

theorem surfaced_declarers : Stub.surfaced (declarers marker vs s) = surfaces marker vs s := by
  rw [Stub.surfaced, surfaces, List.not_all_eq_any_not]
  rfl

theorem mem_declarers {n : UInt32} {m : MethodDecl} : (n, m) ∈ declarers marker vs s ↔
    (∃ v ∈ vs, v.ordinal = n ∧ m ∈ v.decl.methods) ∧ m.signature marker = s := by
  simp only [declarers, numberedMethods, List.mem_filter, List.mem_flatMap, List.mem_map,
    Prod.mk.injEq, decide_eq_true_eq]
  refine and_congr_left fun _ => ⟨?_, ?_⟩
  · rintro ⟨v, hv, d, hd, hn, rfl⟩
    exact ⟨v, hv, hn, hd⟩
  · rintro ⟨v, hv, hn, hm⟩
    exact ⟨v, hv, m, hm, hn, rfl⟩

end

namespace Stub

variable {marker : Marker} {naming : Naming} {vs : List VersionDecl} {s : Signature}

theorem signatureTypes_numberedParams (marker : Marker) (params : List Param) :
    signatureTypes marker (numberedParams params) = signatureTypes marker params := by
  refine List.ext_getElem? fun i => ?_
  simp [signatureTypes, numberedParams, Function.comp_def]

theorem signature_forwarding (marker : Marker) (m : MethodDecl) (receiver : Expr) :
    (forwarding m receiver).signature marker = m.signature marker :=
  congrArg (Prod.mk m.name) (signatureTypes_numberedParams marker m.params)

theorem signature_bare (marker : Marker) (m : MethodDecl) :
    (bare m).signature marker = m.signature marker :=
  congrArg (Prod.mk m.name) (signatureTypes_numberedParams marker m.params)

theorem signature_unsupported (marker : Marker) (m : MethodDecl) (ordinal : UInt32) :
    (unsupported m ordinal).signature marker = m.signature marker :=
  congrArg (Prod.mk m.name) (signatureTypes_numberedParams marker m.params)

theorem nodup_names_numberedParams (params : List Param) :
    ((numberedParams params).map Param.name).Nodup := by
  refine List.pairwise_map.mpr (List.pairwise_iff_getElem.mpr fun i j hi hj hij h => ?_)
  simp only [numberedParams, List.getElem_mapIdx, String.append_right_inj] at h
  exact Nat.ne_of_lt hij (Naming.repr_inj h)

/-- The stub of a signature says what its first declaration says. -/
theorem exists_stub (naming : Naming) (h : surfaces marker vs s = true) :
    ∃ d ∈ declarers marker vs s, ofGroup? naming (declarers marker vs s) =
      some (forwarding d.2 (receiver naming (declarers marker vs s))) := by
  cases hd : declarers marker vs s with
  | nil => simp [surfaces, hd] at h
  | cons d others =>
    refine ⟨d, List.mem_cons_self, ?_⟩
    rw [ofGroup?, if_pos]
    rw [← hd, surfaced_declarers, h]

theorem ofGroup?_eq_none (naming : Naming) (h : surfaces marker vs s = false) :
    ofGroup? naming (declarers marker vs s) = none := by
  cases hd : declarers marker vs s with
  | nil => rfl
  | cons d others =>
    rw [ofGroup?, if_neg]
    rw [← hd, surfaced_declarers, h]
    exact Bool.false_ne_true

theorem map_signature_ofGroup? (marker : Marker) (naming : Naming) (vs : List VersionDecl)
    (s : Signature) : (ofGroup? naming (declarers marker vs s)).map (·.signature marker) =
      if surfaces marker vs s then some s else none := by
  cases h : surfaces marker vs s with
  | false => rw [ofGroup?_eq_none naming h]; rfl
  | true =>
    obtain ⟨d, hd, hstub⟩ := exists_stub naming h
    rw [hstub, Option.map_some, signature_forwarding, (mem_declarers.mp hd).2]
    rfl

/-- A type offers its objects a public method of the signature. -/
def Answers (marker : Marker) (s : Signature) (t : TypeDecl) : Prop :=
  ∃ m ∈ t.methods, m.signature marker = s ∧ m.modifiers.visibility = .pub ∧
    m.modifiers.isStatic = false

section

variable {template : MethodDecl} {n : UInt32} {impl : TypeDecl}

/-- A type is completed by exposing one method of the signature or by adding one that refuses. -/
theorem methods_complete (marker : Marker) (s : Signature) (template : MethodDecl) (n : UInt32)
    (impl : TypeDecl) : (∃ before m after, impl.methods = before ++ m :: after ∧
        m.signature marker = s ∧
        (complete marker s template n impl).methods = before ++ expose m :: after) ∨
      (complete marker s template n impl).methods = impl.methods ++ [unsupported template n] := by
  unfold complete
  split
  next members h =>
    obtain ⟨before, m, after, hmembers, hm, rfl⟩ := exposeFirst?_eq_some h
    refine .inl ⟨before.filterMap Member.method?, m, after.filterMap Member.method?, ?_, hm, ?_⟩
    · rw [TypeDecl.methods, hmembers]
      simp [Member.method?]
    · rw [TypeDecl.methods]
      simp [Member.method?]
  next => exact .inr (by simp [Member.method?])

theorem mem_methods_complete {m : MethodDecl} (hm : m ∈ impl.methods)
    (hne : m.signature marker ≠ s) : m ∈ (complete marker s template n impl).methods := by
  rcases methods_complete marker s template n impl with
    ⟨before, d, after, hmethods, hd, hcomplete⟩ | hcomplete
  · rw [hmethods, List.mem_append, List.mem_cons] at hm
    rw [hcomplete, List.mem_append, List.mem_cons]
    rcases hm with hm | rfl | hm
    · exact .inl hm
    · exact absurd hd hne
    · exact .inr (.inr hm)
  · rw [hcomplete]
    exact List.mem_append_left _ hm

theorem answers_complete (htemplate : template.signature marker = s) :
    Answers marker s (complete marker s template n impl) := by
  rcases methods_complete marker s template n impl with
    ⟨before, d, after, -, hd, hcomplete⟩ | hcomplete
  · exact ⟨expose d, by simp [hcomplete], hd, rfl, rfl⟩
  · exact ⟨unsupported template n, by simp [hcomplete],
      (signature_unsupported marker template n).trans htemplate, rfl, rfl⟩

theorem Answers.complete {s' : Signature} (h : Answers marker s' impl)
    (htemplate : template.signature marker = s) :
    Answers marker s' (complete marker s template n impl) := by
  by_cases hs : s' = s
  · subst hs
    exact answers_complete htemplate
  · obtain ⟨m, hm, rfl, hrest⟩ := h
    exact ⟨m, mem_methods_complete hm hs, rfl, hrest⟩

variable {entries : List (Signature × MethodDecl)}

theorem mem_methods_completed {m : MethodDecl} (hm : m ∈ impl.methods)
    (hne : ∀ e ∈ entries, m.signature marker ≠ e.1) :
    m ∈ (completed marker n entries impl).methods := by
  induction entries generalizing impl with
  | nil => exact hm
  | cons e rest ih =>
    obtain ⟨he, hrest⟩ := List.forall_mem_cons.mp hne
    exact ih (mem_methods_complete hm he) hrest

theorem Answers.completed (h : Answers marker s impl)
    (hentries : ∀ e ∈ entries, e.2.signature marker = e.1) :
    Answers marker s (completed marker n entries impl) := by
  induction entries generalizing impl with
  | nil => exact h
  | cons e rest ih =>
    obtain ⟨he, hrest⟩ := List.forall_mem_cons.mp hentries
    exact ih (h.complete he) hrest

/-- An implementation type answers to every signature that is shared. -/
theorem answers_completed (hentries : ∀ e ∈ entries, e.2.signature marker = e.1) :
    ∀ e ∈ entries, Answers marker e.1 (completed marker n entries impl) := by
  induction entries generalizing impl with
  | nil => simp
  | cons e rest ih =>
    obtain ⟨he, hrest⟩ := List.forall_mem_cons.mp hentries
    exact List.forall_mem_cons.mpr ⟨(answers_complete he).completed hrest, ih hrest⟩

end

/-- Several declarations share the signature, not all of them private. -/
def isShared (marker : Marker) (vs : List VersionDecl) (s : Signature) : Bool :=
  surfaces marker vs s && 1 < (declarers marker vs s).length

theorem template?_declarers (marker : Marker) (vs : List VersionDecl) (s : Signature) :
    (template? (declarers marker vs s)).isSome = isShared marker vs s ∧
      ∀ m ∈ template? (declarers marker vs s), m.signature marker = s := by
  have hmem : ∀ d ∈ declarers marker vs s, d.2.signature marker = s :=
    fun d hd => (mem_declarers.mp hd).2
  rw [isShared, ← surfaced_declarers]
  cases hd : declarers marker vs s with
  | nil => exact ⟨rfl, fun m hm => by cases hm⟩
  | cons d others =>
    rw [hd] at hmem
    cases others with
    | nil => exact ⟨by simp [template?], fun m hm => by cases hm⟩
    | cons second others =>
      rw [template?]
      cases surfaced (d :: second :: others) with
      | false => exact ⟨rfl, fun m hm => by cases hm⟩
      | true =>
        refine ⟨by simp, fun m hm => ?_⟩
        cases hm
        exact hmem d List.mem_cons_self

/-- What goes into the contract: the shared signatures in their order, each with a declaration. -/
theorem map_fst_shared (marker : Marker) (vs : List VersionDecl) :
    (shared (signatureGroups marker vs)).map Prod.fst =
      (signatures marker vs).filter (isShared marker vs) := by
  rw [shared, signatureGroups_eq, List.filterMap_map, List.map_filterMap]
  refine (filterMap_eq_map_filter (g := id) fun s _ => ?_).trans (List.map_id _)
  rw [← (template?_declarers marker vs s).1]
  dsimp only [Function.comp_apply]
  cases template? (declarers marker vs s) <;> rfl

theorem nodup_shared (marker : Marker) (vs : List VersionDecl) :
    ((shared (signatureGroups marker vs)).map Prod.fst).Nodup := by
  rw [map_fst_shared]
  exact (nodup_distinct _).filter _

theorem signature_of_mem_shared {e : Signature × MethodDecl}
    (h : e ∈ shared (signatureGroups marker vs)) : e.2.signature marker = e.1 := by
  rw [shared, signatureGroups_eq, List.filterMap_map] at h
  obtain ⟨s, -, hs⟩ := List.mem_filterMap.mp h
  obtain ⟨m, hm, rfl⟩ := Option.map_eq_some_iff.mp hs
  exact (template?_declarers marker vs s).2 m hm

end Stub

namespace Group

variable {marker : Marker} {naming : Naming} {vs : List VersionDecl} {s : Signature}

theorem methods_contract (marker : Marker) (naming : Naming) (vs : List VersionDecl) :
    (contract marker naming vs).methods =
      (Stub.shared (signatureGroups marker vs)).map fun e => Stub.bare e.2 := by
  rw [contract, TypeDecl.methods_append, List.filterMap_map]
  simp [TypeDecl.methods, Skeleton.contract, Function.comp_def, Member.method?]

theorem members_contract (marker : Marker) (naming : Naming) (vs : List VersionDecl) :
    (contract marker naming vs).members = (contract marker naming vs).methods.map .method := by
  rw [methods_contract, List.map_map]
  rfl

/-- The contract says the shared signatures, each once and in their order. -/
theorem signatures_contract (marker : Marker) (naming : Naming) (vs : List VersionDecl) :
    (contract marker naming vs).methods.map (·.signature marker) =
      (signatures marker vs).filter (Stub.isShared marker vs) := by
  rw [methods_contract, List.map_map, ← Stub.map_fst_shared]
  refine List.map_congr_left fun e he => ?_
  exact (Stub.signature_bare marker e.2).trans (Stub.signature_of_mem_shared he)

/-- Every implementation type answers to every shared signature. -/
theorem answers_implementation (naming : Naming) (v : VersionDecl) (hs : s ∈ signatures marker vs)
    (hshared : Stub.isShared marker vs s = true) :
    Stub.Answers marker s (implementation marker naming vs v) := by
  have hmem : s ∈ (Stub.shared (signatureGroups marker vs)).map Prod.fst := by
    rw [Stub.map_fst_shared]
    exact List.mem_filter.mpr ⟨hs, hshared⟩
  obtain ⟨e, he, rfl⟩ := List.mem_map.mp hmem
  exact Stub.answers_completed (fun _ => Stub.signature_of_mem_shared) e he

/-- A method that shares its signature with no other stays in its implementation type. -/
theorem mem_methods_implementation (naming : Naming) {v : VersionDecl} {m : MethodDecl}
    (hm : m ∈ v.decl.methods) (hone : Stub.isShared marker vs (m.signature marker) = false) :
    m ∈ (implementation marker naming vs v).methods := by
  refine Stub.mem_methods_completed ?_ fun e he hsame => ?_
  · rw [Merge.methods_absorb]
    exact List.mem_append_right _ hm
  · have hshared : e.1 ∈ (signatures marker vs).filter (Stub.isShared marker vs) := by
      rw [← Stub.map_fst_shared]
      exact List.mem_map.mpr ⟨e, he, rfl⟩
    have htrue := (List.mem_filter.mp hshared).2
    rw [← hsame, hone] at htrue
    cases htrue

end Group

/-- No two accessors have the same name. -/
theorem Accessor.nodup_names {options : Options} (hapart : options.naming.Apart)
    {table : SymbolTable} {base : String} (vs : List VersionDecl)
    (hkeys : ∀ owner, table.get? base = some owner → owner.fields.keys.Nodup) :
    (((members options table base vs).filterMap Member.method?).map MethodDecl.name).Nodup := by
  have hpair : ∀ owner field, ((pair options.naming owner vs field).filterMap Member.method?).map
      MethodDecl.name = [] ∨ ((pair options.naming owner vs field).filterMap Member.method?).map
        MethodDecl.name = [options.naming.getter field, options.naming.setter field] := by
    intro owner field
    unfold pair
    split
    next => exact .inl rfl
    next => exact .inr rfl
  unfold members
  split
  next owner _ howner =>
    rw [List.filterMap_flatMap, List.map_flatMap]
    refine List.pairwise_flatMap.mpr ⟨fun field _ => ?_, (hkeys owner howner).imp ?_⟩
    · rcases hpair owner field with h | h
      · simp [h]
      · simpa [h] using hapart.accessors field field
    · intro field field' hne x hx y hy
      have hown : ∀ f z, z ∈ ((pair options.naming owner vs f).filterMap Member.method?).map
          MethodDecl.name → z = options.naming.getter f ∨ z = options.naming.setter f := by
        intro f z hz
        rcases hpair owner f with h | h
        · simp [h] at hz
        · simpa [h] using hz
      rcases hown field x hx with rfl | rfl <;> rcases hown field' y hy with rfl | rfl
      · exact fun h => hne ((String.append_right_inj _).mp h)
      · exact hapart.accessors field field'
      · exact (hapart.accessors field' field).symm
      · exact fun h => hne ((String.append_right_inj _).mp h)
  next => simp

namespace Group

variable {marker : Marker} {table : SymbolTable} {options : Options} {base : String}
  {vs : List VersionDecl} {outer : TypeDecl}

section

variable (h : Unified marker table options base vs outer)
  (hfree : ∀ v ∈ vs, ∀ m ∈ v.decl.methods, options.naming.isOperation m.name = false)
include h hfree

/-- Without the operations, the methods of a unified type are its stubs. -/
theorem Unified.stubs : (outer.methods.filter fun m => !options.naming.isOperation m.name) =
    (signatures marker vs).filterMap fun s =>
      Stub.ofGroup? options.naming (declarers marker vs s) := by
  have hstubs : ∀ m ∈ (signatures marker vs).filterMap
      (fun s => Stub.ofGroup? options.naming (declarers marker vs s)),
        (!options.naming.isOperation m.name) = true := by
    intro m hm
    obtain ⟨s, -, hstub⟩ := List.mem_filterMap.mp hm
    obtain ⟨d, others, hd, -, rfl⟩ := Stub.exists_of_ofGroup? hstub
    obtain ⟨⟨v, hv, -, hmethod⟩, -⟩ := mem_declarers.mp (hd ▸ List.mem_cons_self)
    exact congrArg (!·) (hfree v hv d.2 hmethod)
  have haccessors : ∀ m ∈ (Accessor.members options table base vs).filterMap Member.method?,
      ¬ (!options.naming.isOperation m.name) = true := by
    intro m hm
    simp [Accessor.isOperation_members hm]
  rw [h.methods, signatureGroups_eq, List.filterMap_map, List.filter_cons_of_neg
    (by simp [Skeleton.switchMethod, Naming.isOperation_switchMethod]), List.filter_append,
    List.filter_eq_nil_iff.mpr haccessors, List.append_nil]
  exact List.filter_eq_self.mpr hstubs

theorem Unified.signatures_stubs :
    (outer.methods.filter fun m => !options.naming.isOperation m.name).map (·.signature marker) =
      (signatures marker vs).filter (surfaces marker vs) := by
  rw [h.stubs hfree, List.map_filterMap]
  refine (filterMap_eq_map_filter (g := id) fun s _ => ?_).trans (List.map_id _)
  exact Stub.map_signature_ofGroup? marker options.naming vs s

/-- No two methods of a unified type have the same signature. -/
theorem Unified.nodup_signatures (hapart : options.naming.Apart)
    (hkeys : ∀ owner, table.get? base = some owner → owner.fields.keys.Nodup) :
    (outer.methods.map (·.signature marker)).Nodup := by
  have hperm : outer.methods.Perm
      ((outer.methods.filter fun m => !options.naming.isOperation m.name) ++
        Skeleton.switchMethod options.naming (vs.map VersionDecl.ordinal) ::
          (Accessor.members options table base vs).filterMap Member.method?) := by
    rw [h.stubs hfree, h.methods, signatureGroups_eq, List.filterMap_map]
    exact List.perm_middle.symm
  have hoperations : ∀ m ∈ Skeleton.switchMethod options.naming (vs.map VersionDecl.ordinal) ::
      (Accessor.members options table base vs).filterMap Member.method?,
        options.naming.isOperation m.name = true :=
    List.forall_mem_cons.mpr ⟨options.naming.isOperation_switchMethod,
      fun _ => Accessor.isOperation_members⟩
  -- Stubs differ by signature, operations already by name, and no stub has the name of an operation.
  rw [(hperm.map _).nodup_iff, List.map_append, List.nodup_append]
  refine ⟨?_, ?_, fun a ha b hb he => ?_⟩
  · rw [h.signatures_stubs hfree]
    exact (nodup_distinct _).filter _
  · refine List.Pairwise.of_map (S := (· ≠ ·)) Prod.fst (fun a b hne he => hne (he ▸ rfl)) ?_
    rw [List.map_map]
    refine List.nodup_cons.mpr ⟨fun hmem => ?_, Accessor.nodup_names hapart vs hkeys⟩
    obtain ⟨m, hm, hname⟩ := List.mem_map.mp hmem
    obtain ⟨field, hfield | hfield⟩ := Accessor.name_members hm
    · exact hapart.getter field (hfield.symm.trans hname)
    · exact hapart.setter field (hfield.symm.trans hname)
  · obtain ⟨m, hm, rfl⟩ := List.mem_map.mp ha
    obtain ⟨d, hd, rfl⟩ := List.mem_map.mp hb
    have hname : m.name = d.name := congrArg Prod.fst he
    have hstub := (List.mem_filter.mp hm).2
    rw [hname, hoperations d hd] at hstub
    cases hstub

omit hfree in
/-- A stub hands its parameters on for the declarations of its signature. -/
theorem Unified.stub_forwards {stub : MethodDecl} (hstub : stub ∈ outer.methods)
    (hname : options.naming.isOperation stub.name = false) :
    let found := declarers marker vs (stub.signature marker)
    stub.signature marker ∈ signatures marker vs ∧
      surfaces marker vs (stub.signature marker) = true ∧
      (stub.params.map Param.name).Nodup ∧
      stub.ForwardsTo (Stub.receiver options.naming found) ∧
      ∃ d others, found = d :: others ∧ stub.returnType = d.2.returnType := by
  obtain ⟨g, hg, hstub⟩ := (h.mem_methods hname).mp hstub
  rw [signatureGroups_eq] at hg
  obtain ⟨s, hs, rfl⟩ := List.mem_map.mp hg
  obtain ⟨d, others, hd, hsurfaced, rfl⟩ := Stub.exists_of_ofGroup? hstub
  change declarers marker vs s = d :: others at hd
  have hsignature : (Stub.forwarding d.2 (Stub.receiver options.naming
      (declarers marker vs s))).signature marker = s :=
    (Stub.signature_forwarding marker d.2 _).trans
      (mem_declarers.mp (hd ▸ List.mem_cons_self : d ∈ declarers marker vs s)).2
  dsimp only
  rw [hsignature]
  exact ⟨hs, surfaced_declarers.symm.trans hsurfaced,
    Stub.nodup_names_numberedParams d.2.params, Stub.forwarding_forwardsTo d.2 _, d, others, hd, rfl⟩

end

/--
The methods of a unified type besides its operations are the signatures that are not private
throughout, once each: those with one declaration go to its version, and the others, through the
active one, to every version.
-/
theorem stub_surface {g : Group} {tableUnits : List CompilationUnit} {unit : CompilationUnit}
    (hnaming : options.naming = {})
    (hbuild : g.build marker (.build marker tableUnits) options = .ok unit)
    (hvs : g.versions marker = .ok vs)
    (hfree : ∀ v ∈ vs, ∀ m ∈ v.decl.methods, options.naming.isOperation m.name = false) :
    ∃ outer contract, unit.types.head? = some outer ∧ outer.name = g.baseName ∧
      outer.nested? options.naming.behaviorInterface .interfaceType = some contract ∧
      (outer.methods.filter fun m => !options.naming.isOperation m.name).map
          (·.signature marker) = (signatures marker vs).filter (surfaces marker vs) ∧
      (outer.methods.map (·.signature marker)).Nodup ∧
      contract.members = contract.methods.map .method ∧
      contract.methods.map (·.signature marker) = (signatures marker vs).filter (fun s =>
        surfaces marker vs s && 1 < (declarers marker vs s).length) ∧
      ∀ stub ∈ outer.methods, options.naming.isOperation stub.name = false →
        (stub.params.map Param.name).Nodup ∧
        (∀ n m, declarers marker vs (stub.signature marker) = [(n, m)] →
          stub.ForwardsTo (.thisField (options.naming.instanceField n)) ∧
            .single Modifiers.priv.withFinal (.plain (options.naming.implType n))
              (options.naming.instanceField n) ∈ outer.fields ∧
            ∃ impl, outer.nested? (options.naming.implType n) .classType = some impl ∧
              ∃ d ∈ impl.methods, d.signature marker = stub.signature marker ∧
                d.returnType = stub.returnType) ∧
        (1 < (declarers marker vs (stub.signature marker)).length →
          stub.ForwardsTo (.thisField options.naming.activeField) ∧
            ∀ v ∈ vs, ∃ impl,
              outer.nested? (options.naming.implType v.ordinal) .classType = some impl ∧
                ∃ d ∈ impl.methods, d.signature marker = stub.signature marker ∧
                  d.modifiers.visibility = .pub ∧ d.modifiers.isStatic = false) := by
  have hapart : options.naming.Apart := hnaming ▸ Naming.standard_apart
  have hkeys : ∀ owner, (SymbolTable.build marker tableUnits).get? g.baseName = some owner →
      owner.fields.keys.Nodup := by
    intro owner howner
    rw [SymbolTable.get?_build_eq_some howner, ClassInfo.fields_ofDeclarations]
    exact Entries.nodup_keys_collect _
  obtain ⟨vs', outer, hvs', houter, rfl⟩ := build_eq_ok hbuild
  cases hvs.symm.trans hvs'
  have hunified := outer_eq_ok (versions_eq_ok hvs).2 houter
  refine ⟨outer, _, head?_types_compose marker g outer, hunified.name,
    hunified.furnished.hasContract, hunified.signatures_stubs hfree,
    hunified.nodup_signatures hfree hapart hkeys, members_contract marker options.naming vs,
    signatures_contract marker options.naming vs, fun stub hstub hname => ?_⟩
  obtain ⟨hs, hsurfaces, hparams, hforwards, d, others, hfound, hreturn⟩ :=
    hunified.stub_forwards hstub hname
  refine ⟨hparams, fun n m hone => ?_, fun hseveral => ?_⟩
  · rw [hone] at hforwards hfound
    obtain ⟨⟨v, hv, rfl, hm⟩, hsignature⟩ :=
      mem_declarers.mp (hone ▸ List.mem_singleton_self _ : (n, m) ∈ _)
    have halone : Stub.isShared marker vs (m.signature marker) = false := by
      rw [hsignature, Stub.isShared, hone]
      exact Bool.and_false _
    refine ⟨hforwards, ?_, _, hunified.furnished.hasImpls v hv, m,
      mem_methods_implementation options.naming hm halone, hsignature, ?_⟩
    · rw [hunified.fields]
      exact List.mem_append_left _ (List.mem_map.mpr ⟨_, List.mem_map.mpr ⟨v, hv, rfl⟩, rfl⟩)
    · rw [hreturn, ← (List.cons.inj hfound).1]
  · have hshared : Stub.isShared marker vs (stub.signature marker) = true := by
      rw [Stub.isShared, hsurfaces, decide_eq_true hseveral]
      rfl
    refine ⟨?_, fun v hv => ⟨_, hunified.furnished.hasImpls v hv,
      answers_implementation options.naming v hs hshared⟩⟩
    rw [hfound] at hforwards hseveral
    cases others with
    | nil => simp at hseveral
    | cons second others => exact hforwards

def ledgerOne : VersionDecl where
  ordinal := 1
  decl :=
    { name := "Ledger__1__"
      members := [
        .method
          { modifiers := .pub, returnType := .void, name := "post",
            params := [{ ty := .plain "int", name := "amount" }] },
        .method
          { modifiers := .pub, returnType := .plain "int", name := "post",
            params := [{ ty := .plain "Ledger__2__", name := "other" }] },
        .method { modifiers := .priv, returnType := .void, name := "check" }] }

def ledgerTwo : VersionDecl where
  ordinal := 2
  decl :=
    { name := "Ledger__2__"
      members := [
        .method { modifiers := .priv, returnType := .void, name := "check" },
        .method
          { returnType := .void, name := "check", params := [{ ty := .plain "String", name := "why" }] },
        .method
          { modifiers := { Modifiers.pub with isStatic := true }, returnType := .void, name := "post",
            params := [{ ty := .plain "int", name := "entry" }] }] }

def ledgerNine : VersionDecl where
  ordinal := 9
  decl := { name := "Ledger__9__" }

/-- Two versions overload a method that one has as a static one, and the last version has none. -/
def ledger : Group where
  baseName := "Ledger"
  units := [{ types := [ledgerNine.decl] }, { types := [ledgerOne.decl, ledgerTwo.decl] }]

theorem versions_ledger : ledger.versions .standard = .ok [ledgerOne, ledgerTwo, ledgerNine] := by
  refine versions_of_perm (by simp) (by decide) (by decide +kernel) ?_
  exact (List.perm_append_comm : ([ledgerOne.decl, ledgerTwo.decl] ++ [ledgerNine.decl]).Perm _)

theorem stub_surface_ledger : ∃ unit outer contract,
    ledger.build .standard (.build .standard ledger.units) {} = .ok unit ∧
    unit.types.head? = some outer ∧
    outer.nested? "IVersionBehavior" .interfaceType = some contract ∧
    (outer.methods.filter fun m => !Naming.isOperation {} m.name).map (·.signature .standard) =
      [("post", ["int"]), ("post", ["Ledger"]), ("check", ["String"])] ∧
    contract.methods.map (·.signature .standard) = [("post", ["int"])] ∧
    ∃ post ∈ outer.methods, post.signature .standard = ("post", ["int"]) ∧
      post.ForwardsTo (.thisField "currentState") ∧
      ∃ impl, outer.nested? "V9_Impl" .classType = some impl ∧
        ∃ d ∈ impl.methods, d.signature .standard = ("post", ["int"]) ∧
          d.modifiers.visibility = .pub ∧ d.modifiers.isStatic = false := by
  obtain ⟨built, -, hbuild⟩ :=
    build_of_versions (.build .standard ledger.units) {} versions_ledger
  obtain ⟨outer, contract, hhead, -, hcontract, hstubs, -, -, hshared, hall⟩ :=
    stub_surface rfl hbuild versions_ledger (by decide +kernel)
  have hsurface : (signatures .standard [ledgerOne, ledgerTwo, ledgerNine]).filter
      (surfaces .standard [ledgerOne, ledgerTwo, ledgerNine]) =
        [("post", ["int"]), ("post", ["Ledger"]), ("check", ["String"])] := by
    decide +kernel
  have hboth : (signatures .standard [ledgerOne, ledgerTwo, ledgerNine]).filter (fun s =>
      surfaces .standard [ledgerOne, ledgerTwo, ledgerNine] s &&
        1 < (declarers .standard [ledgerOne, ledgerTwo, ledgerNine] s).length) =
          [("post", ["int"])] := by
    decide +kernel
  rw [hsurface] at hstubs
  obtain ⟨post, hpost, hsignature⟩ := List.mem_map.mp (hstubs ▸ List.mem_cons_self)
  obtain ⟨hpost, hname⟩ := List.mem_filter.mp hpost
  obtain ⟨-, -, hactive⟩ := hall post hpost (by simpa using hname)
  rw [hsignature] at hactive
  obtain ⟨hforwards, himpls⟩ := hactive (by decide +kernel)
  exact ⟨_, outer, contract, hbuild, hhead, hcontract, hstubs, hshared.trans hboth, post, hpost,
    hsignature, hforwards, himpls ledgerNine (by simp)⟩

end Group

end VersionWeave
