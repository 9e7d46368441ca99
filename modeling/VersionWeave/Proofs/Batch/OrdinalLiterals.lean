import Mathlib.Data.List.Count
import VersionWeave.Proofs.Batch.Failures
import VersionWeave.Proofs.Batch.Overloads
import VersionWeave.Proofs.Meaning.ActiveVersion
import VersionWeave.Proofs.Pinning.Erase

namespace VersionWeave

/-- A number of the type `int`, which the switch operation declares for its parameter. -/
def FitsInt (i : Int64) : Prop :=
  -2147483648 ≤ i.toInt ∧ i.toInt ≤ 2147483647

instance (i : Int64) : Decidable (FitsInt i) :=
  inferInstanceAs (Decidable (_ ∧ _))

theorem fitsInt_iff {i : Int64} {n : UInt32} (h : i.toInt = n.toNat) :
    FitsInt i ↔ n.toNat ≤ 2147483647 := by
  rw [FitsInt, h]
  omega

/-- The number that an ordinal is written as. -/
def ordinalInt (n : UInt32) : Int64 := Int64.ofNat n.toNat

theorem ordinalInt_eq_iff {n : UInt32} {i : Int64} : ordinalInt n = i ↔ i.toInt = n.toNat := by
  constructor
  · rintro rfl
    exact toInt_ordinal n
  · intro h
    exact Int64.toInt_inj.mp ((toInt_ordinal n).trans h.symm)

variable {naming : Naming} {i : Int64}

theorem Skeleton.allInts_arms (naming : Naming) (ordinals : List UInt32) :
    Outline.allInts (SwitchCase.outlines (ordinals.map (arm naming) ++ [refusal])) =
      ordinals.map ordinalInt := by
  induction ordinals with
  | nil => rfl
  | cons n rest ih =>
    rw [List.map_cons, List.cons_append, arm, SwitchCase.outlines, Outline.allInts_append, ih]
    rfl

/-- The switch operation writes the ordinals, each as the label of its arm, and no other number. -/
theorem Skeleton.mem_ints_switchMethod {ordinals : List UInt32} :
    i ∈ (switchMethod naming ordinals).outline.ints ↔ ∃ n ∈ ordinals, ordinalInt n = i := by
  rw [MethodDecl.mem_ints rfl, ← List.mem_map, ← allInts_arms naming]
  simp [Stmt.outlines, Stmt.outline, Expr.outline, Node.int?]

theorem Stub.exists_receiver (naming : Naming) (group : List (UInt32 × MethodDecl)) :
    ∃ field, receiver naming group = .thisField field := by
  unfold receiver
  split <;> exact ⟨_, rfl⟩

/-- A stub hands its parameters on and writes no number. -/
theorem Stub.notMem_ints_forwarding (m : MethodDecl) (field : String) :
    i ∉ (forwarding m (.thisField field)).outline.ints := by
  have hidents : ∀ ps : List Param,
      Outline.allInts (Expr.outlines (ps.map fun p => .ident p.name)) = [] := by
    intro ps
    induction ps with
    | nil => rfl
    | cons p rest ih => rw [List.map_cons, Expr.outlines, Outline.allInts_cons, ih]; rfl
  rw [MethodDecl.mem_ints rfl]
  cases m.returnType.isVoid <;>
    simp [Stmt.outline, Stmt.outlines, Expr.callOn, Expr.thisField, Expr.outline,
      Expr.optionOutline, Node.int?, hidents]

theorem Naming.ints_switchCall (receiver : Expr) (h : receiver.outline.ints = []) (n : UInt32) :
    (naming.switchCall receiver n).outline.ints = [ordinalInt n] := by
  simp [switchCall, Expr.callOn, Expr.int, Expr.outline, Expr.optionOutline, Expr.outlines,
    Node.int?, ordinalInt, h]

theorem Accessor.ints_place (naming : Naming) (field : String) (n : UInt32) :
    (place naming field n).outline.ints = [] := by
  simp [place, Expr.thisField, Expr.outline, Node.int?]

/-- An accessor writes the ordinal that it switches to. -/
theorem Accessor.mem_ints_getter {field : String} {ty : TypeRef} {n : UInt32} :
    i ∈ (getter naming field ty n).outline.ints ↔ ordinalInt n = i := by
  rw [MethodDecl.mem_ints rfl]
  simp [switchTo, Stmt.outlines, Stmt.outline, Expr.optionOutline, Naming.ints_switchCall .this rfl,
    ints_place, Node.int?, eq_comm]

theorem Accessor.mem_ints_setter {field : String} {ty : TypeRef} {n : UInt32} :
    i ∈ (setter naming field ty n).outline.ints ↔ ordinalInt n = i := by
  rw [MethodDecl.mem_ints rfl]
  simp [switchTo, Stmt.outlines, Stmt.outline, Expr.set, Expr.outline, Naming.ints_switchCall .this rfl,
    ints_place, Node.int?, eq_comm]

/-- The accessors write the ordinals that fields belong to. -/
theorem Accessor.mem_ints_members {options : Options} {table : SymbolTable} {base : String}
    {vs : List VersionDecl} :
    (∃ m ∈ (members options table base vs).filterMap Member.method?, i ∈ m.outline.ints) ↔
      options.generateAccessors = true ∧ ∃ owner field n info, table.get? base = some owner ∧
        owner.accessorOwner? field = some (n, info) ∧ ordinalInt n = i := by
  constructor
  · rintro ⟨m, hm, hi⟩
    obtain ⟨owner, field, hgenerate, hget, hpair⟩ := exists_of_mem_members hm
    refine ⟨hgenerate, owner, field, ?_⟩
    unfold pair at hpair
    cases hbest : owner.accessorOwner? field with
    | none => simp [hbest] at hpair
    | some best =>
      obtain ⟨n, info⟩ := best
      refine ⟨n, info, hget, rfl, ?_⟩
      simp only [hbest, List.mem_cons, Member.method.injEq, List.not_mem_nil, or_false] at hpair
      rcases hpair with rfl | rfl
      · exact mem_ints_getter.mp hi
      · exact mem_ints_setter.mp hi
  · rintro ⟨hgenerate, owner, field, n, info, hget, hbest, hi⟩
    let ty := (declaredType? vs n field).getD (.plain info.type)
    refine ⟨getter options.naming field ty n, List.mem_filterMap.mpr ⟨.method _, ?_, rfl⟩,
      mem_ints_getter.mpr hi⟩
    simp only [members, hgenerate, hget]
    refine List.mem_flatMap.mpr ⟨field, ClassInfo.mem_keys_of_accessorOwner? hbest, ?_⟩
    simp only [pair, hbest]
    exact List.mem_cons_self

/-- A unified type writes the ordinals of its versions and those that its accessors switch to. -/
theorem Group.Unified.mem_ints {marker : Marker} {table : SymbolTable} {options : Options}
    {base : String} {vs : List VersionDecl} {outer : TypeDecl}
    (h : Unified marker table options base vs outer) :
    (∃ m ∈ outer.methods, i ∈ m.outline.ints) ↔ (∃ v ∈ vs, ordinalInt v.ordinal = i) ∨
      options.generateAccessors = true ∧ ∃ owner field n info, table.get? base = some owner ∧
        owner.accessorOwner? field = some (n, info) ∧ ordinalInt n = i := by
  have hstubs : ¬ ∃ m ∈ (signatureGroups marker vs).filterMap (fun g =>
      Stub.ofGroup? options.naming g.2), i ∈ m.outline.ints := by
    rintro ⟨m, hm, hi⟩
    obtain ⟨g, -, hstub⟩ := List.mem_filterMap.mp hm
    obtain ⟨d, others, -, -, rfl⟩ := Stub.exists_of_ofGroup? hstub
    obtain ⟨field, hreceiver⟩ := Stub.exists_receiver options.naming g.2
    rw [hreceiver] at hi
    exact Stub.notMem_ints_forwarding d.2 field hi
  have hswitch : i ∈ (Skeleton.switchMethod options.naming
      (vs.map VersionDecl.ordinal)).outline.ints ↔ ∃ v ∈ vs, ordinalInt v.ordinal = i := by
    simp [Skeleton.mem_ints_switchMethod]
  simp only [h.methods, List.mem_cons, List.mem_append, or_and_right, exists_or, exists_eq_left,
    hswitch, hstubs, false_or, Accessor.mem_ints_members]

namespace Weaver

variable {w : Weaver} {units : List CompilationUnit}

/-- The unified types that a batch gives, one for each group that is built. -/
def unified (w : Weaver) (units : List CompilationUnit) : List TypeDecl :=
  (w.groups (w.symbols units) (w.revised units)).filterMap fun g =>
    (g.build w.marker (w.symbols units) w.options).toOption.bind fun u => u.types.head?

/-- The numbers that pinning adds to those that a unit has written. -/
def pinnedInts (w : Weaver) (table : SymbolTable) (u : CompilationUnit) : List Int64 :=
  (w.pinUnit table u).1.outline.ints.diff u.outline.ints

/-- The numbers that are written for ordinals: by the unified types, and by pinning. -/
def ordinalLiterals (w : Weaver) (units : List CompilationUnit) : List Int64 :=
  ((w.unified units).flatMap fun t => t.methods.flatMap fun m => m.outline.ints) ++
    units.flatMap (w.pinnedInts (w.symbols units))

/--
Where a batch has an ordinal written: as the arm of a version, in the accessors of the fields that
it is the first to have public, or for a call that only one of its methods can mean.
-/
inductive Employs (w : Weaver) (units : List CompilationUnit) (n : UInt32) : Prop
  | arm {base : String} {t : TypeDecl} (hsound : ¬ w.Flawed units base)
      (ht : w.Declares units base n t)
  | accessors {base field : String} (hgenerate : w.options.generateAccessors = true)
      (hbase : base ∈ w.bases units) (hsound : ¬ w.Flawed units base)
      (hfield : LeastPublic w.marker (declarations w.marker units base) field n)
  | pin {u : CompilationUnit} {s : Scope} {r name : String} {args : List Expr} {c : ClassInfo}
      {t : TypeDecl} {d : MethodDecl} (hu : u ∈ units)
      (hplace : (s, .expr (.call (some (.ident r)) name args)) ∈
        Pinning.places w.options.naming (w.scope (w.symbols units)) u)
      (hc : s.versionedClass? r = some c)
      (hd : declaredMethods w.marker (declarations w.marker units c.baseName)
        (name, args.map s.argumentType) = [(t, d)])
      (hn : (w.marker.parse t.name).version = .numbered n)

theorem Declares.mem_bases {base : String} {n : UInt32} {t : TypeDecl}
    (h : w.Declares units base n t) : base ∈ w.bases units := by
  obtain ⟨⟨u, hu, hgroup, -⟩, -⟩ := h
  exact Weaver.mem_bases.mpr ⟨u, mem_unitsUnder.mpr ⟨hu, hgroup⟩⟩

/-- An ordinal that is employed is that of a declaration. -/
theorem Employs.exists_declaration {n : UInt32} (h : w.Employs units n) : ∃ u ∈ units, ∃ t ∈ u.types,
    (w.marker.parse t.name).version = .numbered n := by
  have hdeclared : ∀ base, ∀ t ∈ declarations w.marker units base, ∃ u ∈ units, t ∈ u.types :=
    fun base t ht => List.mem_flatMap.mp (List.mem_filter.mp ht).1
  cases h with
  | arm hsound ht =>
    obtain ⟨⟨u, hu, -, ht⟩, hparse⟩ := ht
    exact ⟨u, hu, _, ht, congrArg VersionedName.version hparse⟩
  | accessors hgenerate hbase hsound hfield =>
    obtain ⟨t, ht, hn, -⟩ := hfield.declared
    obtain ⟨u, hu, ht⟩ := hdeclared _ t ht
    exact ⟨u, hu, t, ht, hn⟩
  | pin hu hplace hc hd hn =>
    have ht := (mem_declaredMethods.mp (hd ▸ List.mem_singleton_self _)).1
    obtain ⟨u, hu, ht⟩ := hdeclared _ _ ht
    exact ⟨u, hu, _, ht, hn⟩

theorem exists_of_mem_unified {t : TypeDecl} (h : t ∈ w.unified units) : ∃ base vs,
    base ∈ w.bases units ∧ (w.revisedGroup units base).versions w.marker = .ok vs ∧
      Group.Unified w.marker (w.symbols units) w.options base vs t := by
  rw [unified, groups_revised, List.filterMap_map] at h
  obtain ⟨base, hbase, ht⟩ := List.mem_filterMap.mp h
  obtain ⟨vs, outer, hvs, hunified, hbuild⟩ | ⟨e, -, hbuild⟩ :=
    Group.build_cases w.marker (w.symbols units) w.options (w.revisedGroup units base)
  · rw [Function.comp_apply, hbuild] at ht
    cases (Group.head?_types_compose w.marker _ outer).symm.trans ht
    exact ⟨base, vs, hbase, hvs, hunified⟩
  · rw [Function.comp_apply, hbuild] at ht
    cases ht

theorem exists_mem_unified {base : String} {vs : List VersionDecl} (hbase : base ∈ w.bases units)
    (hvs : (w.revisedGroup units base).versions w.marker = .ok vs) : ∃ t ∈ w.unified units,
      Group.Unified w.marker (w.symbols units) w.options base vs t := by
  obtain ⟨outer, hunified, hbuild⟩ := Group.build_of_versions (w.symbols units) w.options hvs
  refine ⟨outer, ?_, hunified⟩
  rw [unified, groups_revised, List.filterMap_map]
  refine List.mem_filterMap.mpr ⟨base, hbase, ?_⟩
  rw [Function.comp_apply, hbuild]
  exact Group.head?_types_compose w.marker _ outer

/-- Pinning writes the ordinals of the pins, and no other number. -/
theorem mem_pinnedInts {table : SymbolTable} {u : CompilationUnit} : i ∈ w.pinnedInts table u ↔
    ∃ p ∈ Pinning.pins w.options.naming (w.scope table) u, ordinalInt p.ordinal = i := by
  have hadds : ∀ s, (Pinning.editor w.options.naming s).Adds (Pinning.notes s) (Node.isInt i)
      fun p => ordinalInt p.ordinal == i := by
    intro s
    refine Pinning.editor_adds (Node.shallow_isInt i) fun v n => ?_
    rw [← Outline.count_ints, Naming.ints_switchCall (.ident v) rfl]
    rfl
  have hcount := CompilationUnit.count_edit hadds u (w.scope table)
  rw [← Outline.count_ints, ← Outline.count_ints, ← pinUnit_fst] at hcount
  rw [pinnedInts, ← List.count_pos_iff, List.count_diff, hcount, Nat.add_sub_cancel_left,
    List.countP_pos_iff]
  simp only [beq_iff_eq]
  rfl

theorem mem_ordinalLiterals : i ∈ w.ordinalLiterals units ↔
    (∃ t ∈ w.unified units, ∃ m ∈ t.methods, i ∈ m.outline.ints) ∨
      ∃ u ∈ units, ∃ p ∈ Pinning.pins w.options.naming (w.scope (w.symbols units)) u,
        ordinalInt p.ordinal = i := by
  simp only [ordinalLiterals, List.mem_append, List.mem_flatMap, mem_pinnedInts]

/-- Only ordinals that the batch employs are written. -/
theorem exists_employs (h : i ∈ w.ordinalLiterals units) :
    ∃ n, w.Employs units n ∧ ordinalInt n = i := by
  rcases mem_ordinalLiterals.mp h with ⟨t, ht, hi⟩ | ⟨u, hu, p, hp, hi⟩
  · obtain ⟨base, vs, hbase, hvs, hunified⟩ := exists_of_mem_unified ht
    have hsound := (versions_revisedGroup hbase).mp ⟨vs, hvs⟩
    rcases hunified.mem_ints.mp hi with
      ⟨v, hv, hi⟩ | ⟨hgenerate, owner, field, n, info, hget, hbest, hi⟩
    · rw [revisedGroup_eq] at hvs
      obtain ⟨t, ht, -⟩ := (mem_versions_group hvs).mp hv
      exact ⟨v.ordinal, .arm hsound ht, hi⟩
    · rw [SymbolTable.get?_build_eq_some hget] at hbest
      have hfield := ClassInfo.exists_accessorOwner?_iff.mp ⟨info, hbest⟩
      exact ⟨n, .accessors hgenerate hbase hsound hfield, hi⟩
  · obtain ⟨x, hplace, hpin⟩ := Pinning.mem_pins.mp hp
    obtain ⟨r, name, args, m, rfl, hr, htarget, -⟩ := Pinning.pin?_eq_some_iff.mp hpin
    obtain ⟨c, hc⟩ := Scope.exists_versionedClass? htarget
    have hs := Pinning.over_of_mem_places ⟨rfl, rfl⟩ hplace
    rw [hr] at hpin
    obtain ⟨t, d, hd, hn⟩ := (Pinning.pin?_call_iff hs hc p.ordinal).mp hpin
    exact ⟨p.ordinal, .pin hu hplace hc hd hn, hi⟩

/-- Every ordinal that the batch employs is written. -/
theorem Employs.mem_ordinalLiterals {n : UInt32} (h : w.Employs units n) :
    ordinalInt n ∈ w.ordinalLiterals units := by
  refine Weaver.mem_ordinalLiterals.mpr ?_
  cases h with
  | @arm base t hsound ht =>
    obtain ⟨vs, hvs⟩ := (versions_revisedGroup ht.mem_bases).mpr hsound
    obtain ⟨outer, houter, hunified⟩ := exists_mem_unified ht.mem_bases hvs
    rw [revisedGroup_eq] at hvs
    let v : VersionDecl := { ordinal := n, decl := w.reviseType (w.symbols units) t }
    have hv : v ∈ vs := (mem_versions_group hvs).mpr ⟨t, ht, rfl⟩
    exact .inl ⟨outer, houter, hunified.mem_ints.mpr (.inl ⟨v, hv, rfl⟩)⟩
  | @accessors base field hgenerate hbase hsound hfield =>
    obtain ⟨vs, hvs⟩ := (versions_revisedGroup hbase).mpr hsound
    obtain ⟨outer, houter, hunified⟩ := exists_mem_unified hbase hvs
    obtain ⟨info, hbest⟩ := ClassInfo.exists_accessorOwner?_iff.mpr hfield
    obtain ⟨t, ht, -⟩ := hfield.declared
    have hget : (w.symbols units).get? base = some (.ofDeclarations w.marker base
        (declarations w.marker units base)) := by
      rw [symbols, SymbolTable.get?_build, if_neg]
      exact fun hempty => List.not_mem_nil (List.isEmpty_iff.mp hempty ▸ ht)
    exact .inl ⟨outer, houter, hunified.mem_ints.mpr
      (.inr ⟨hgenerate, _, field, n, info, hget, hbest, rfl⟩)⟩
  | @pin u s r name args c t d hu hplace hc hd hn =>
    let p : Pin := { scope := s, receiver := .ident r, ordinal := n }
    have hs := Pinning.over_of_mem_places ⟨rfl, rfl⟩ hplace
    have hpin := (Pinning.pin?_call_iff hs hc n).mpr ⟨t, d, hd, hn⟩
    have hp : p ∈ Pinning.pins w.options.naming (w.scope (w.symbols units)) u :=
      Pinning.mem_pins.mpr ⟨_, hplace, hpin⟩
    exact .inr ⟨u, hu, p, hp, rfl⟩

/--
The numbers written for ordinals are those of the ordinals that the batch employs, so they all fit
the parameter of the switch operation just when these ordinals do. Nothing else keeps them in: an
ordinal may be twice as large.
-/
theorem ordinal_literals_fit_iff (w : Weaver) (units : List CompilationUnit) :
    (∀ i, i ∈ w.ordinalLiterals units ↔ ∃ n, w.Employs units n ∧ i.toInt = n.toNat) ∧
    ((∀ i ∈ w.ordinalLiterals units, FitsInt i) ↔
      ∀ n, w.Employs units n → n.toNat ≤ 2147483647) ∧
    ((∀ u ∈ units, ∀ t ∈ u.types, ∀ n, (w.marker.parse t.name).version = .numbered n →
        n.toNat ≤ 2147483647) →
      ∀ i ∈ w.ordinalLiterals units, FitsInt i) := by
  have hmem : ∀ i, i ∈ w.ordinalLiterals units ↔ ∃ n, w.Employs units n ∧ i.toInt = n.toNat := by
    simp only [← ordinalInt_eq_iff]
    refine fun i => ⟨exists_employs, ?_⟩
    rintro ⟨n, hn, rfl⟩
    exact hn.mem_ordinalLiterals
  have hfit : (∀ i ∈ w.ordinalLiterals units, FitsInt i) ↔
      ∀ n, w.Employs units n → n.toNat ≤ 2147483647 := by
    constructor
    · intro hfits n hn
      exact (fitsInt_iff (toInt_ordinal n)).mp (hfits _ ((hmem _).mpr ⟨n, hn, toInt_ordinal n⟩))
    · intro hordinals i hi
      obtain ⟨n, hn, hvalue⟩ := (hmem i).mp hi
      exact (fitsInt_iff hvalue).mpr (hordinals n hn)
  refine ⟨hmem, hfit, fun hsmall => hfit.mpr fun n hn => ?_⟩
  obtain ⟨u, hu, t, ht, hversion⟩ := hn.exists_declaration
  exact hsmall u hu t ht n hversion

/-- A version with a public field, of the ordinal 3000000000, and a call that is pinned to it. -/
def distantVersion : List CompilationUnit :=
  [{ types := [{ name := "Test__3000000000__", members := [
      .field (.single .pub (.plain "int") "level"),
      .method { modifiers := .pub, returnType := .void, name := "log", body := some [] }] }] },
    { types := [{ name := "Main", members := [.method
      { returnType := .void, name := "main", params := [{ ty := .plain "Test", name := "t" }],
        body := some [.expr (.callOn (.ident "t") "log" [])] }] }] }]

/-- The label of the arm, both accessors and the pinned call can write a number that is no `int`. -/
theorem not_every_ordinal_literal_fits :
    ordinalLiterals {} distantVersion = List.replicate 4 3000000000 ∧
      ¬ ∀ units, ∀ i ∈ ordinalLiterals {} units, FitsInt i := by
  have hwritten : ordinalLiterals {} distantVersion = List.replicate 4 3000000000 := by
    decide +kernel
  refine ⟨hwritten, fun hfits => ?_⟩
  have hfit : FitsInt 3000000000 := by
    refine hfits distantVersion _ ?_
    rw [hwritten]
    exact List.mem_cons_self
  exact absurd hfit (by decide)

end Weaver

end VersionWeave
