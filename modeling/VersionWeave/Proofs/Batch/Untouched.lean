import VersionWeave.Proofs.Batch.Marks
import VersionWeave.Proofs.Batch.Outcome

namespace VersionWeave

section

variable {P : TypeRef → Prop}

mutual

theorem Stmt.types_locals : ∀ x : Stmt, x.outline.Types P → ∀ v ∈ x.locals, v.ty.outline.Types P
  | .vars v, h => by
    simp only [Stmt.outline, LocalVars.outline, Outline.types_node, Outline.allTypes_cons] at h
    exact List.forall_mem_singleton.mpr h.1.1.1.1
  | .block stmts, h => by
    simp only [Stmt.outline, Outline.types_node, Outline.allTypes_cons] at h
    exact Stmt.types_allLocals stmts h.1.1.1
  | .ifElse _ thenBranch elseBranch, h => by
    simp only [Stmt.outline, Outline.types_node, Outline.allTypes_cons] at h
    exact List.forall_mem_append.mpr
      ⟨Stmt.types_locals thenBranch h.1.2.1, Stmt.types_optionLocals elseBranch h.1.2.2⟩
  | .whileLoop _ body, h => by
    simp only [Stmt.outline, Outline.types_node, Outline.allTypes_cons] at h
    exact Stmt.types_locals body h.1.2.1
  | .forLoop init _ _ body, h => by
    simp only [Stmt.outline, Outline.types_node, Outline.allTypes_cons, Outline.allTypes_append] at h
    exact List.forall_mem_append.mpr
      ⟨Stmt.types_allLocals init h.1.1.1.1, Stmt.types_locals body h.1.2.1⟩
  | .switch _ cases, h => by
    simp only [Stmt.outline, Outline.types_node, Outline.allTypes_cons] at h
    exact SwitchCase.types_allLocals cases h.1.2
  | .expr _, _ | .ret _, _ | .breakOut, _ | .continueOn, _ | .throw _, _ | .empty, _ => by
    simp [Stmt.locals]

theorem Stmt.types_optionLocals : ∀ x : Option Stmt, Outline.AllTypes P (Stmt.optionOutline x) →
    ∀ v ∈ Stmt.optionLocals x, v.ty.outline.Types P
  | none, _ => by simp [Stmt.optionLocals]
  | some x, h => Stmt.types_locals x ((Outline.allTypes_cons _ _).mp h).1

theorem Stmt.types_allLocals : ∀ xs : List Stmt, Outline.AllTypes P (Stmt.outlines xs) →
    ∀ v ∈ Stmt.allLocals xs, v.ty.outline.Types P
  | [], _ => by simp [Stmt.allLocals]
  | x :: rest, h => by
    simp only [Stmt.outlines, Outline.allTypes_cons] at h
    exact List.forall_mem_append.mpr ⟨Stmt.types_locals x h.1, Stmt.types_allLocals rest h.2⟩

theorem SwitchCase.types_allLocals : ∀ cs : List SwitchCase,
    Outline.AllTypes P (SwitchCase.outlines cs) →
      ∀ v ∈ SwitchCase.allLocals cs, v.ty.outline.Types P
  | [], _ => by simp [SwitchCase.allLocals]
  | ⟨_, body⟩ :: rest, h => by
    simp only [SwitchCase.outlines, Outline.allTypes_append] at h
    exact List.forall_mem_append.mpr
      ⟨Stmt.types_allLocals body h.1.2, SwitchCase.types_allLocals rest h.2⟩

end

/-- The text of a variable's type is that of a type written in the method. -/
theorem MethodDecl.exists_type_of_mem_declared {marker : Marker} {m : MethodDecl}
    (hm : m.outline.Types P) {d : String × String} (hd : d ∈ m.declared marker) :
    ∃ ty : TypeRef, ty.outline.Types P ∧ d.2 = ty.signature marker := by
  obtain ⟨-, hparams, hbody⟩ := m.types_iff.mp hm
  obtain ⟨x, hx, rfl⟩ := List.mem_map.mp hd
  refine ⟨x.2, ?_, rfl⟩
  rcases List.mem_append.mp hx with hparam | hlocal
  · obtain ⟨p, hp, rfl⟩ := List.mem_map.mp hparam
    exact hparams p hp
  · obtain ⟨v, hv, hmem⟩ := List.mem_flatMap.mp hlocal
    obtain ⟨x, -, rfl⟩ := List.mem_map.mp hmem
    cases hb : m.body with
    | none => simp [hb, Stmt.allLocals] at hv
    | some b => exact Stmt.types_allLocals b (hbody b hb) v (by simpa [hb] using hv)

end

/-- What is found after a run of puts was there before or was put. -/
theorem Entries.mem_of_get?_foldl_put {κ α : Type} [DecidableEq κ] {k : κ} {a : α}
    (items : List (κ × α)) : ∀ {es : Entries κ α},
      get? (items.foldl (fun es b => es.put b.1 b.2) es) k = some a →
        es.get? k = some a ∨ (k, a) ∈ items := by
  induction items with
  | nil => exact fun h => .inl h
  | cons b rest ih =>
    intro es h
    rcases ih h with h | h
    · have h := (get?_alter b.1 k (fun _ => b.2) es).symm.trans h
      split at h
      next hk =>
        cases Option.some.inj h
        exact .inr (hk ▸ List.mem_cons_self)
      next => exact .inl h
    · exact .inr (List.mem_cons_of_mem _ h)

theorem MethodDecl.mem_declared_of_variableType? {marker : Marker} {version : Version}
    {m : MethodDecl} {v text : String} (h : (m.info marker version).variableType? v = some text) :
    (v, text) ∈ m.declared marker := by
  rcases Entries.mem_of_get?_foldl_put _ h with h | h
  · cases h
  · exact h

/-- A method that is looked up is one that some declaration of this version has. -/
theorem ClassInfo.findMethod?_eq_some {marker : Marker} {base name : String} {ts : List TypeDecl}
    {types : List String} {version : Version} {info : MethodInfo}
    (h : (ofDeclarations marker base ts).findMethod? name types version = some info) :
    ∃ t ∈ ts, (marker.parse t.name).version = version ∧ ∃ m ∈ t.methods,
      m.signature marker = (name, types) ∧ info = m.info marker version := by
  unfold findMethod? at h
  have hfound : info.version = version ∧ info.parameterTypes = types := by
    simpa using List.find?_some h
  have hmem := List.mem_of_find?_eq_some h
  rw [methodsNamed_ofDeclarations, List.mem_filter, List.mem_flatMap] at hmem
  obtain ⟨⟨t, ht, hinfo⟩, hname⟩ := hmem
  obtain ⟨m, hm, rfl⟩ := List.mem_map.mp hinfo
  refine ⟨t, ht, hfound.1, m, hm, ?_, hfound.1 ▸ rfl⟩
  exact Prod.ext (of_decide_eq_true hname) hfound.2

/--
The method that a scope stands in, if it stands in one, is looked up under the name of a type that
is declared in the outline and the signature of a method of this type.
-/
def Scope.StandsIn (table : SymbolTable) (marker : Marker) (nodes : List Node) (s : Scope) : Prop :=
  s.method? = none ∨ ∃ t, .typeDecl t ∈ nodes ∧ ∃ m ∈ t.methods,
    s.method? = (table.get? (marker.parse t.name).base).bind
      (·.findMethod? m.name (signatureTypes marker m.params) (marker.parse t.name).version)

section

variable {table : SymbolTable} {marker : Marker}

theorem Scope.StandsIn.mono {nodes nodes' : List Node} {s : Scope}
    (h : s.StandsIn table marker nodes) (hsub : ∀ n ∈ nodes, n ∈ nodes') :
    s.StandsIn table marker nodes' := by
  rcases h with h | ⟨t, ht, h⟩
  · exact .inl h
  · exact .inr ⟨t, hsub _ ht, h⟩

mutual

theorem Member.scopes_standIn : ∀ (m : Member) (t : TypeDecl) {s : Scope}, s.Over table marker →
    m ∈ t.members → ∀ x ∈ m.scopes (s.enterType t.name),
      x.StandsIn table marker (m.outline.nodes ++ [.typeDecl t])
  | .field _, _, _, _, _ => List.forall_mem_singleton.mpr (.inl rfl)
  | .constructor _, _, _, _, _ => List.forall_mem_singleton.mpr (.inl rfl)
  | .method m, t, s, hs, hm => by
    refine List.forall_mem_singleton.mpr (.inr ⟨t, by simp, m, ?_, ?_⟩)
    · exact List.mem_filterMap.mpr ⟨_, hm, rfl⟩
    · rw [← hs.table, ← hs.marker]
      rfl
  | .type t', t, s, hs, _ => fun x hx => by
    refine (TypeDecl.scopes_standIn t' (hs.enterType t.name) x hx).mono fun n hn => ?_
    simp [Member.outline, Outline.nodes, Outline.allNodes, hn]

theorem TypeDecl.scopes_standIn : ∀ (t : TypeDecl) {s : Scope}, s.Over table marker →
    ∀ x ∈ t.scopes s, x.StandsIn table marker t.outline.nodes
  | ⟨kind, modifiers, name, superclass, interfaces, members⟩, s, hs => by
    refine List.forall_mem_cons.mpr ⟨.inl rfl, fun x hx => ?_⟩
    have hmembers := Member.allScopes_standIn members
      ⟨kind, modifiers, name, superclass, interfaces, members⟩ hs (fun _ h => h) x hx
    refine hmembers.mono fun n hn => ?_
    simp only [TypeDecl.outline, Outline.nodes, Outline.allNodes_append, List.mem_append] at hn ⊢
    rcases hn with hn | hn
    · exact .inl (.inr hn)
    · exact .inr hn

theorem Member.allScopes_standIn : ∀ (ms : List Member) (t : TypeDecl) {s : Scope},
    s.Over table marker → (∀ m ∈ ms, m ∈ t.members) →
      ∀ x ∈ Member.allScopes (s.enterType t.name) ms,
        x.StandsIn table marker (Outline.allNodes (Member.outlines ms) ++ [.typeDecl t])
  | [], _, _, _, _ => by simp [Member.allScopes]
  | m :: rest, t, s, hs, hall => by
    obtain ⟨hm, hrest⟩ := List.forall_mem_cons.mp hall
    refine List.forall_mem_append.mpr ⟨fun x hx => ?_, fun x hx => ?_⟩
    · refine (Member.scopes_standIn m t hs hm x hx).mono fun n hn => ?_
      simp only [Member.outlines, Outline.allNodes, List.mem_append] at hn ⊢
      exact hn.imp_left .inl
    · refine (Member.allScopes_standIn rest t hs hrest x hx).mono fun n hn => ?_
      simp only [Member.outlines, Outline.allNodes, List.mem_append] at hn ⊢
      exact hn.imp_left .inr

end

theorem CompilationUnit.scopes_standIn (u : CompilationUnit) {s : Scope} (hs : s.Over table marker) :
    ∀ x ∈ u.scopes s, x.StandsIn table marker u.outline.nodes := by
  intro x hx
  obtain ⟨t, ht, hx⟩ := List.mem_flatMap.mp hx
  refine (TypeDecl.scopes_standIn t hs x hx).mono fun n hn => ?_
  have hall : ∀ ts : List TypeDecl, t ∈ ts → n ∈ Outline.allNodes (ts.map TypeDecl.outline) := by
    intro ts
    induction ts with
    | nil => simp
    | cons a rest ih =>
      intro ha
      rw [List.map_cons, Outline.allNodes, List.mem_append]
      rcases List.mem_cons.mp ha with rfl | ha
      · exact .inl hn
      · exact .inr (ih ha)
  exact List.mem_append_left _ (hall u.types ht)

end

/-- The type carries no ordinal, and its name is no versioned base name. -/
def TypeRef.Apart (marker : Marker) (table : SymbolTable) (t : TypeRef) : Prop :=
  marker.isVersioned t.name = false ∧ table.isVersioned t.name = false

/-- With arguments or dimensions the whole text of a type is no versioned base name either. -/
def TypeRef.TextApart (marker : Marker) (table : SymbolTable) (t : TypeRef) : Prop :=
  t.args.isEmpty = false ∨ t.dims ≠ 0 → table.isVersioned (marker.baseName t.source) = false

instance (marker : Marker) (table : SymbolTable) : DecidablePred (TypeRef.Apart marker table) :=
  fun _ => inferInstanceAs (Decidable (_ ∧ _))

instance (marker : Marker) (table : SymbolTable) : DecidablePred (TypeRef.TextApart marker table) :=
  fun _ => inferInstanceAs (Decidable (_ → _))

theorem TypeRef.not_versioned_signature {marker : Marker} {table : SymbolTable} {t : TypeRef}
    (h : t.outline.Types (TypeRef.Apart marker table)) (htext : t.TextApart marker table) :
    table.isVersioned (marker.baseName (t.signature marker)) = false := by
  have hsame : t.signature marker = t.source := by
    rw [TypeRef.signature, TypeRef.normalize_eq_self t (h.mono fun _ ht => ht.1)]
  rw [hsame]
  obtain ⟨name, args, dims⟩ := t
  by_cases hplain : args.isEmpty = true ∧ dims = 0
  · have hname : TypeRef.source ⟨name, args, dims⟩ = name := by
      simp [TypeRef.source, hplain.1, hplain.2, String.join]
    obtain ⟨hunmarked, hunversioned⟩ := TypeRef.of_types h
    rw [hname, Marker.baseName_of_not_versioned hunmarked]
    exact hunversioned
  · refine htext ?_
    cases hargs : args.isEmpty with
    | false => exact .inl rfl
    | true => exact .inr fun hdims => hplain ⟨hargs, hdims⟩

namespace Weaver

variable {w : Weaver} {units : List CompilationUnit} {u : CompilationUnit}

/--
No other unit declares, under the name and version of a type of the unit and with the signature of
a method of this type, a method with a variable of a versioned type.
-/
def NoHomonym (w : Weaver) (units : List CompilationUnit) (u : CompilationUnit) : Prop :=
  ∀ v ∈ units, v ≠ u → ∀ other ∈ v.types, ∀ t, .typeDecl t ∈ u.outline.nodes →
    w.marker.parse other.name = w.marker.parse t.name → ∀ m ∈ t.methods, ∀ m' ∈ other.methods,
      m'.signature w.marker = m.signature w.marker → ∀ d ∈ m'.declared w.marker,
        (w.symbols units).isVersioned (w.marker.baseName d.2) = false

/-- Without such a homonym no place of the unit sees a variable of a versioned type. -/
theorem plain_of_mem_scopes
    (hplain : u.outline.Types (TypeRef.Apart w.marker (w.symbols units)))
    (htext : u.outline.Types (TypeRef.TextApart w.marker (w.symbols units)))
    (hother : w.NoHomonym units u) :
    ∀ s ∈ u.scopes (w.scope (w.symbols units)), s.Plain := by
  intro s hs v
  have hover := u.scopes_over (w.over_scope _) s hs
  rcases u.scopes_standIn (w.over_scope _) s hs with hnone | ⟨t, ht, m, hm, hmethod⟩
  · simp [Scope.versionedClass?, Scope.variableType?, hnone]
  cases hc : s.versionedClass? v with
  | none => rfl
  | some c =>
    obtain ⟨text, hvariable, hversioned⟩ := Option.bind_eq_some_iff.mp hc
    obtain ⟨info, hinfo, hdeclared⟩ := Option.bind_eq_some_iff.mp hvariable
    obtain ⟨owner, howner, hfound⟩ := Option.bind_eq_some_iff.mp (hmethod.symm.trans hinfo)
    rw [symbols, SymbolTable.get?_build] at howner
    obtain ⟨-, howner⟩ := Option.ite_none_left_eq_some.mp howner
    cases Option.some.inj howner
    obtain ⟨other, hdeclaration, hversion, m', hm', hsignature, rfl⟩ :=
      ClassInfo.findMethod?_eq_some hfound
    obtain ⟨hunit, hbase⟩ := List.mem_filter.mp hdeclaration
    obtain ⟨unit, hmem, hunit⟩ := List.mem_flatMap.mp hunit
    have hd := MethodDecl.mem_declared_of_variableType? hdeclared
    have htrue : (w.symbols units).isVersioned (w.marker.baseName text) = true := by
      rw [← hover.table, ← hover.marker, SymbolTable.isVersioned, hversioned]
      rfl
    -- a declaration of the unit itself speaks of none but types written in the unit
    have hfalse : (w.symbols units).isVersioned (w.marker.baseName text) = false := by
      by_cases hsame : unit = u
      · subst hsame
        have hboth : unit.outline.Types fun t =>
            t.Apart w.marker (w.symbols units) ∧ t.TextApart w.marker (w.symbols units) :=
          hplain.and htext
        simp only [CompilationUnit.outline, Outline.types_node, Outline.allTypes_map] at hboth
        obtain ⟨ty, hty, htext⟩ := MethodDecl.exists_type_of_mem_declared
          (TypeDecl.types_of_mem_methods (hboth.1 other hunit) hm') hd
        dsimp only at htext
        rw [htext]
        exact TypeRef.not_versioned_signature (hty.mono fun _ h => h.1) (TypeRef.of_types hty).2
      · have hparse : w.marker.parse other.name = w.marker.parse t.name :=
          VersionedName.eq_of_parts (of_decide_eq_true hbase) hversion
        exact hother unit hmem hsame other hunit t ht hparse m hm m' hm' hsignature (v, text) hd
    rw [htrue] at hfalse
    cases hfalse

/--
A unit of unversioned types that names neither a version nor a versioned base name is put out as it
is, unless a homonym in another unit lends a variable of a versioned type to one of its methods.
-/
theorem plain_unit_unchanged (w : Weaver) (units : List CompilationUnit) (u : CompilationUnit)
    (hu : u ∈ units)
    (htop : ∀ t ∈ u.types, (w.symbols units).isVersioned (w.marker.baseName t.name) = false)
    (hplain : u.outline.Types (TypeRef.Apart w.marker (w.symbols units)))
    (htext : u.outline.Types (TypeRef.TextApart w.marker (w.symbols units)))
    (hother : w.NoHomonym units u) : u ∈ (w.transform units).units := by
  have hnone : w.groupName? (w.symbols units) u = none := by
    cases hgroup : w.groupName? (w.symbols units) u with
    | none => rfl
    | some base =>
      obtain ⟨hname, hversioned⟩ := groupName?_eq_some.mp hgroup
      obtain ⟨name, hprimary, rfl⟩ := Option.map_eq_some_iff.mp hname
      obtain ⟨t, ht, rfl⟩ := Option.map_eq_some_iff.mp hprimary
      rw [htop t (CompilationUnit.mem_types_of_primary? ht)] at hversioned
      cases hversioned
  have hsame : w.reviseWithin units u = u := by
    have hrevise := reviseUnit_eq_self (plain_of_mem_scopes hplain htext hother)
      (hplain.mono fun _ h => h.1)
    rwa [w.reviseUnit_fst] at hrevise
  exact hsame ▸ mem_units_of_not_grouped hu hnone

/-- A type with one method, which declares a variable and goes on with some statements. -/
def runner (name variableType : String) (rest : Block) : TypeDecl :=
  let declaration : Stmt := .vars { ty := .plain variableType, declarators := [{ name := "t" }] }
  { name, members := [
      .method { returnType := .void, name := "run", body := some (declaration :: rest) }] }

/-- A versioned type, a top-level helper, and a unit whose nested helper has the same name. -/
def nestedNamesake (variableType : String) : List CompilationUnit :=
  [{ types := [{ name := "Test__1__", members := [
      .method
        { returnType := .void, name := "log", params := [{ ty := .plain "int", name := "number" }] }] }] },
    { types := [runner "Helper" variableType []] },
    { types := [{ name := "Main", members := [
      .type (runner "Helper" "Logger" [.expr (.callOn (.ident "t") "log" [.int 1])])] }] }]

/-- A unit that mentions no versioned type is changed where a nested type has a namesake elsewhere. -/
theorem not_every_plain_unit_unchanged : ¬ ∀ (units : List CompilationUnit) (u : CompilationUnit),
    u ∈ units →
    (∀ t ∈ u.types, (symbols {} units).isVersioned (Marker.standard.baseName t.name) = false) →
    u.outline.Types (TypeRef.Apart .standard (symbols {} units)) →
      u ∈ (transform {} units).units := by
  intro h
  have hmem := h (nestedNamesake "Test") ((nestedNamesake "Test").get ⟨2, by decide⟩)
    (List.get_mem _ _) (by decide +kernel) (by decide +kernel)
  -- every unit with a type `Main` that is put out has a switch call, and the one taken in has none
  have hcalls : ∀ v ∈ (transform {} (nestedNamesake "Test")).units,
      (v.types.any fun t => t.name = "Main") = true →
        v.outline.calls "__switchToVersion" = 1 := by
    decide +kernel
  have hnone := hcalls _ hmem (by decide +kernel)
  revert hnone
  decide +kernel

theorem plain_unit_unchanged_namesake :
    (nestedNamesake "Logger").get ⟨2, by decide⟩ ∈ (transform {} (nestedNamesake "Logger")).units := by
  refine plain_unit_unchanged {} _ _ (List.get_mem _ _) (by decide +kernel) (by decide +kernel)
    (by decide +kernel) ?_
  intro v hv _ other hother t _ _ m _ m' hm' _
  have hall : ∀ v ∈ nestedNamesake "Logger", ∀ t ∈ v.types, ∀ m ∈ t.methods,
      ∀ d ∈ m.declared Marker.standard,
        (symbols {} (nestedNamesake "Logger")).isVersioned (Marker.standard.baseName d.2) = false := by
    decide +kernel
  exact hall v hv other hother m' hm'

end Weaver

end VersionWeave
