import VersionWeave.Proofs.Batch.PinnedStubs
import VersionWeave.Proofs.Source.Types
import VersionWeave.Proofs.Unified.Returns
import VersionWeave.Proofs.Version.Stable

namespace VersionWeave

/-- What tells overloads apart where they are written: the name and the types as they stand. -/
def MethodDecl.overload (m : MethodDecl) : Signature :=
  (m.name, m.writtenTypes)

/-- The names in the types of the parameters hold no character that puts a type together. -/
def MethodDecl.HasPlainNames (m : MethodDecl) : Prop :=
  ∀ p ∈ m.params, p.ty.SpelledIn fun c => !TypeRef.isDelimiter c

namespace MethodDecl

variable {marker : Marker} {m d : MethodDecl}

theorem types_of_sources {ps qs : List Param}
    (hps : ∀ p ∈ ps, p.ty.SpelledIn fun c => !TypeRef.isDelimiter c)
    (hqs : ∀ q ∈ qs, q.ty.SpelledIn fun c => !TypeRef.isDelimiter c)
    (h : ps.map (·.ty.source) = qs.map (·.ty.source)) : ps.map Param.ty = qs.map Param.ty := by
  induction ps generalizing qs with
  | nil =>
    rw [List.map_nil, eq_comm, List.map_eq_nil_iff] at h
    rw [h]
  | cons p ps ih =>
    cases qs with
    | nil => cases h
    | cons q qs =>
      obtain ⟨hp, hps⟩ := List.forall_mem_cons.mp hps
      obtain ⟨hq, hqs⟩ := List.forall_mem_cons.mp hqs
      obtain ⟨hfirst, hrest⟩ := List.cons.inj h
      rw [List.map_cons, List.map_cons, (TypeRef.source_inj hp hq).mp hfirst, ih hps hqs hrest]

/-- Where types can be read off their texts, methods that are written alike have one signature. -/
theorem signature_of_overload (hm : m.HasPlainNames) (hd : d.HasPlainNames)
    (h : m.overload = d.overload) : m.signature marker = d.signature marker := by
  obtain ⟨hname, hwritten⟩ := Prod.mk.inj h
  have htypes : m.params.map Param.ty = d.params.map Param.ty := types_of_sources hm hd hwritten
  have hsignature : ∀ ps : List Param,
      signatureTypes marker ps = (ps.map Param.ty).map (·.signature marker) := fun ps => by
    rw [List.map_map]
    rfl
  rw [signature, signature, hname, hsignature, hsignature, htypes]

end MethodDecl

namespace Stub

theorem overload_unsupported (m : MethodDecl) (n : UInt32) :
    (unsupported m n).overload = m.overload :=
  congrArg (Prod.mk m.name) (writtenTypes_forwarding m .this)

end Stub

namespace Group

variable {marker : Marker} {naming : Naming} {vs : List VersionDecl} {v : VersionDecl}

/-- What fills the gaps of an implementation type is written like no method of its own. -/
theorem nodup_overloads_implementation (naming : Naming) (hv : v ∈ vs)
    (hplain : ∀ v ∈ vs, ∀ m ∈ v.decl.methods, m.HasPlainNames) :
    ((implementation marker naming vs v).methods.map MethodDecl.overload).Nodup ↔
      (v.decl.methods.map MethodDecl.overload).Nodup := by
  have htemplate : ∀ e ∈ Stub.shared (signatureGroups marker vs), e.2.HasPlainNames := by
    intro e he
    obtain ⟨n, second, others, hdeclarers, -⟩ := Stub.exists_declarers he
    obtain ⟨⟨v', hv', -, hmethod⟩, -⟩ := mem_declarers.mp (hdeclarers ▸ List.mem_cons_self)
    exact hplain v' hv' e.2 hmethod
  rw [map_methods_implementation (fun _ => rfl), List.nodup_append]
  simp only [Stub.overload_unsupported]
  refine ⟨And.left, fun hown => ⟨hown, ?_, ?_⟩⟩
  · have hkeys := (List.pairwise_map.mp (Stub.nodup_shared marker vs)).filter fun e =>
      e.1 ∉ v.decl.methods.map (·.signature marker)
    refine List.pairwise_map.mpr (hkeys.imp_of_mem fun {a b} ha hb hne hsame => hne ?_)
    have ha := (List.mem_filter.mp ha).1
    have hb := (List.mem_filter.mp hb).1
    rw [← Stub.signature_of_mem_shared ha, ← Stub.signature_of_mem_shared hb]
    exact MethodDecl.signature_of_overload (htemplate a ha) (htemplate b hb) hsame
  · intro a ha b hb hab
    obtain ⟨m, hm, rfl⟩ := List.mem_map.mp ha
    obtain ⟨e, he, rfl⟩ := List.mem_map.mp hb
    obtain ⟨he, hlacking⟩ := List.mem_filter.mp he
    refine of_decide_eq_true hlacking (List.mem_map.mpr ⟨m, hm, ?_⟩)
    rw [← Stub.signature_of_mem_shared he]
    exact MethodDecl.signature_of_overload (hplain v hv m hm) (htemplate e he) hab

end Group

theorem TypeRef.SpelledIn.normalize {p : Char → Bool} {t : TypeRef} (h : t.SpelledIn p)
    (marker : Marker) : (t.normalize marker).SpelledIn p := by
  intro name hname c hc
  rw [names_normalize] at hname
  obtain ⟨original, horiginal, rfl⟩ := List.mem_map.mp hname
  exact h original horiginal c (Marker.mem_of_mem_baseName hc)

namespace Weaver

variable {w : Weaver} {units : List CompilationUnit} {base : String} {n : UInt32} {t : TypeDecl}

theorem overload_reviseMethod (table : SymbolTable) (t : TypeDecl) (m : MethodDecl) :
    (w.reviseMethod table t m).overload = m.signature w.marker := by
  rw [MethodDecl.overload, writtenTypes_reviseMethod, name_reviseMethod, MethodDecl.signature]

theorem hasPlainNames_reviseMethod {m : MethodDecl} (table : SymbolTable) (t : TypeDecl)
    (h : m.HasPlainNames) : (w.reviseMethod table t m).HasPlainNames := by
  intro p hp
  rw [params_reviseMethod] at hp
  obtain ⟨q, hq, rfl⟩ := List.mem_map.mp hp
  exact (h q hq).normalize w.marker

/--
An implementation type has two methods that are written alike just when its version declares two
that differ in the marks of their types only. Nothing that fills a gap is written like a method
that is there.
-/
theorem overloads_distinct_iff (w : Weaver) (units : List CompilationUnit) (base : String)
    (hok : ∀ e ∈ (w.transform units).failures, e.baseName ≠ base)
    (hgroup : ∃ u ∈ units, w.groupName? (w.symbols units) u = some base)
    (hplain : ∀ n t, w.Declares units base n t → ∀ m ∈ t.methods, m.HasPlainNames) :
    ∃ out ∈ (w.transform units).units, ∃ outer, out.types.head? = some outer ∧ outer.name = base ∧
      ∀ n t, w.Declares units base n t → ∃ impl,
        outer.nested? (w.options.naming.implType n) .classType = some impl ∧
        ((impl.methods.map MethodDecl.overload).Nodup ↔
          (t.methods.map (·.signature w.marker)).Nodup) := by
  obtain ⟨u, hu, hgroup⟩ := hgroup
  obtain ⟨vs, outer, hvs, hunified, -, hout⟩ := exists_built hu hgroup hok
  refine ⟨_, hout, outer, Group.head?_types_compose w.marker _ outer, hunified.name, ?_⟩
  intro n t ht
  obtain ⟨v, hv, rfl, hdecl⟩ : ∃ v ∈ vs, v.ordinal = n ∧
      v.decl = w.reviseType (w.symbols units) t :=
    ⟨⟨n, _⟩, (mem_versions_group hvs).mpr ⟨t, ht, rfl⟩, rfl, rfl⟩
  have hplain' : ∀ v ∈ vs, ∀ m ∈ v.decl.methods, m.HasPlainNames := by
    intro v hv m hm
    obtain ⟨t, ht, hrevised⟩ := (mem_versions_group hvs).mp hv
    rw [← hrevised, methods_reviseType] at hm
    obtain ⟨d, hd, rfl⟩ := List.mem_map.mp hm
    exact hasPlainNames_reviseMethod _ t (hplain _ t ht d hd)
  refine ⟨_, hunified.furnished.hasImpls v hv, ?_⟩
  rw [Group.nodup_overloads_implementation w.options.naming hv hplain', hdecl,
    methods_reviseType, List.map_map]
  have hsame : MethodDecl.overload ∘ w.reviseMethod (w.symbols units) t =
      (·.signature w.marker) := funext fun m => overload_reviseMethod _ t m
  rw [hsame]

def loadMethod (stock : String) : MethodDecl :=
  { modifiers := .pub, returnType := .void, name := "load",
    params := [{ ty := .plain stock, name := "stock" }] }

/-- A unit with a version that loads stock of some types. -/
def depotLoading (name : String) (stocks : List String) : CompilationUnit :=
  { types := [{ name, members := stocks.map (.method <| loadMethod ·) }] }

theorem hasPlainNames_depotLoading (name : String) {stocks : List String}
    (h : (stocks.all fun stock => stock.toList.all fun c => !TypeRef.isDelimiter c) = true) :
    ∀ t ∈ (depotLoading name stocks).types, ∀ m ∈ t.methods, m.HasPlainNames := by
  intro t ht m hm p hp stock hstock
  cases List.mem_singleton.mp ht
  obtain ⟨_, hmember, hmethod⟩ := List.mem_filterMap.mp hm
  obtain ⟨spelled, hspelled, rfl⟩ := List.mem_map.mp hmember
  cases hmethod
  cases List.mem_singleton.mp hp
  cases List.mem_singleton.mp hstock
  exact List.all_eq_true.mp (List.all_eq_true.mp h stock hspelled)

/-- Marks stay apart in the first version, fall together in the second, and the third has a gap. -/
def depotsLoading : List CompilationUnit :=
  [depotLoading "Depot__1__" ["Stock__1____2__", "Stock__1__"],
    depotLoading "Depot__2__" ["Stock__2__", "Stock__7__"], depotLoading "Depot__3__" []]

theorem overloads_distinct_depotsLoading :
    ∃ out ∈ (transform {} depotsLoading).units, ∃ outer, out.types.head? = some outer ∧
      (∃ impl, outer.nested? "V1_Impl" .classType = some impl ∧
        (impl.methods.map MethodDecl.overload).Nodup) ∧
      (∃ impl, outer.nested? "V2_Impl" .classType = some impl ∧
        ¬ (impl.methods.map MethodDecl.overload).Nodup) ∧
      ∃ impl, outer.nested? "V3_Impl" .classType = some impl ∧
        (impl.methods.map MethodDecl.overload).Nodup := by
  have hall : ∀ u ∈ depotsLoading, ∀ t ∈ u.types, ∀ m ∈ t.methods, m.HasPlainNames := by
    simp only [depotsLoading, List.forall_mem_cons, List.not_mem_nil, false_implies, implies_true,
      and_true]
    exact ⟨hasPlainNames_depotLoading _ rfl, hasPlainNames_depotLoading _ rfl,
      hasPlainNames_depotLoading _ rfl⟩
  have hplain : ∀ n t, Declares {} depotsLoading "Depot" n t → ∀ m ∈ t.methods,
      m.HasPlainNames := by
    rintro n t ⟨⟨u, hu, -, ht⟩, -⟩
    exact hall u hu t ht
  have hdeclares : ∀ u ∈ depotsLoading, ∀ t ∈ u.types, ∀ n,
      Marker.standard.parse t.name = ⟨"Depot", .numbered n⟩ →
        Declares {} depotsLoading "Depot" n t := fun u hu t ht n hparse =>
    ⟨⟨u, hu, (by decide +kernel : ∀ u ∈ depotsLoading,
      groupName? {} (symbols {} depotsLoading) u = some "Depot") u hu, ht⟩, hparse⟩
  obtain ⟨out, hout, outer, hhead, -, himpls⟩ := overloads_distinct_iff {} depotsLoading "Depot"
    (by decide +kernel) ⟨_, List.mem_cons_self, by decide +kernel⟩ hplain
  refine ⟨out, hout, outer, hhead, ?_, ?_, ?_⟩
  · obtain ⟨impl, himpl, hiff⟩ := himpls 1 _ (hdeclares _ List.mem_cons_self _ List.mem_cons_self 1
      (by decide +kernel))
    exact ⟨impl, himpl, hiff.mpr (by decide)⟩
  · obtain ⟨impl, himpl, hiff⟩ := himpls 2 _ (hdeclares _ (List.mem_cons_of_mem _ List.mem_cons_self)
      _ List.mem_cons_self 2 (by decide +kernel))
    exact ⟨impl, himpl, fun h => absurd (hiff.mp h) (by decide)⟩
  · obtain ⟨impl, himpl, hiff⟩ := himpls 3 _ (hdeclares _ (List.mem_cons_of_mem _
      (List.mem_cons_of_mem _ List.mem_cons_self)) _ List.mem_cons_self 3 (by decide +kernel))
    exact ⟨impl, himpl, hiff.mpr (by decide)⟩

/-- Overloads that are told apart by marks alone do not stay apart. -/
theorem not_every_overload_distinct : ¬ ∀ (units : List CompilationUnit) (base : String),
    (∀ e ∈ (transform {} units).failures, e.baseName ≠ base) →
    (∀ n t, Declares {} units base n t → (t.methods.map MethodDecl.overload).Nodup) →
      ∀ n t, Declares {} units base n t → ∀ out ∈ (transform {} units).units,
        ∀ outer ∈ out.types, outer.name = base →
          (outer.nested? (Naming.implType {} n) .classType).all fun impl =>
            (impl.methods.map MethodDecl.overload).Nodup := by
  intro h
  let units := [depotLoading "Depot__1__" ["Stock__1__", "Stock__2__"]]
  have hall : ∀ t ∈ units.flatMap CompilationUnit.types,
      (t.methods.map MethodDecl.overload).Nodup := by decide
  have hwritten : ∀ n t, Declares {} units "Depot" n t →
      (t.methods.map MethodDecl.overload).Nodup := by
    rintro n t ⟨⟨u, hu, -, ht⟩, -⟩
    exact hall t (List.mem_flatMap.mpr ⟨u, hu, ht⟩)
  have hdistinct := h units "Depot" (by decide +kernel) hwritten 1 _
    ⟨⟨_, List.mem_cons_self, by decide +kernel, List.mem_cons_self⟩, by decide +kernel⟩
  exact absurd hdistinct (by decide +kernel)

end Weaver

end VersionWeave
