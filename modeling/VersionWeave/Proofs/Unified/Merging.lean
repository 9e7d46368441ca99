import Mathlib.Data.List.Forall2
import VersionWeave.Proofs.Unified.Merged

namespace VersionWeave

/-- The same constructor under another name. -/
structure ConstructorDecl.RenamedTo (newName : String) (c c' : ConstructorDecl) : Prop where
  modifiers : c'.modifiers = c.modifiers
  name : c'.name = newName
  params : c'.params = c.params
  body : c'.body = c.body

/-- The same method, but public and not static. -/
structure MethodDecl.ExposedAs (m m' : MethodDecl) : Prop where
  visibility : m'.modifiers.visibility = .pub
  isStatic : m'.modifiers.isStatic = false
  isFinal : m'.modifiers.isFinal = m.modifiers.isFinal
  isAbstract : m'.modifiers.isAbstract = m.modifiers.isAbstract
  returnType : m'.returnType = m.returnType
  name : m'.name = m.name
  params : m'.params = m.params
  body : m'.body = m.body

/-- A public method that can stand for another one, and that throws whatever it is given. -/
structure MethodDecl.RefusedAs (n : UInt32) (m m' : MethodDecl) : Prop where
  modifiers : m'.modifiers =
    { visibility := .pub, isStatic := false, isFinal := false, isAbstract := false }
  returnType : m'.returnType = m.returnType
  name : m'.name = m.name
  params : m'.params = m.params
  body : m'.body = some [.throw (.create
    { name := "UnsupportedOperationException", args := [], dims := 0 }
    [.literal (.str (m.name ++ " is not supported by version " ++ n.toNat.repr))])]

/--
What becomes of a member of a version in its implementation type: a constructor takes the name of
the type, the first method of a shared signature is exposed, and all else is as it was.
-/
inductive Member.CarriedAs (marker : Marker) (shared : List Signature) (name : String)
    (earlier : List Member) : Member → Member → Prop
  | field (f : FieldDecl) : CarriedAs marker shared name earlier (.field f) (.field f)
  | type (t : TypeDecl) : CarriedAs marker shared name earlier (.type t) (.type t)
  | constructor {c c' : ConstructorDecl} (h : c.RenamedTo name c') :
    CarriedAs marker shared name earlier (.constructor c) (.constructor c')
  | exposed {m m' : MethodDecl} (hshared : m.signature marker ∈ shared)
    (hfirst : m.signature marker ∉ Member.signatures marker earlier) (h : m.ExposedAs m') :
    CarriedAs marker shared name earlier (.method m) (.method m')
  | method {m : MethodDecl}
    (h : m.signature marker ∈ shared → m.signature marker ∈ Member.signatures marker earlier) :
    CarriedAs marker shared name earlier (.method m) (.method m)

/--
The members of an implementation type in three parts: those of its version one by one, a constructor
without arguments if none of these is one, and a refusal for each method of the contract that the
version lacks.
-/
structure VersionDecl.MergedInto (marker : Marker) (name : String) (contract : TypeDecl)
    (v : VersionDecl) (own added refusals : List Member) : Prop where
  length_own : own.length = v.decl.members.length
  own : ∀ (i : Nat) (m : Member), v.decl.members[i]? = some m → ∃ m', own[i]? = some m' ∧
    m.CarriedAs marker (Member.signatures marker contract.members) name (v.decl.members.take i) m'
  constructible : (∃ c ∈ v.decl.constructors, c.params = []) → added = []
  added : (∀ c ∈ v.decl.constructors, c.params ≠ []) →
    added = [.constructor
      { modifiers := { visibility := .pub, isStatic := false, isFinal := false, isAbstract := false }
        name := name, params := [], body := [] }]
  refusals : List.Forall₂ (fun m x => ∃ m', x = Member.method m' ∧ m.RefusedAs v.ordinal m')
    (contract.methods.filter fun m => m.signature marker ∉ Member.signatures marker v.decl.members)
    refusals

/-! Each of the predicates has one solution, and it is what the stages make. -/

theorem ConstructorDecl.renamedTo_iff {name : String} {c c' : ConstructorDecl} :
    c.RenamedTo name c' ↔ c' = { c with name } := by
  constructor
  · rintro ⟨hmodifiers, hname, hparams, hbody⟩
    cases c'
    cases hmodifiers
    cases hname
    cases hparams
    cases hbody
    rfl
  · rintro rfl
    exact ⟨rfl, rfl, rfl, rfl⟩

theorem MethodDecl.exposedAs_iff {m m' : MethodDecl} : m.ExposedAs m' ↔ m' = Stub.expose m := by
  constructor
  · rintro ⟨hvisibility, hstatic, hfinal, habstract, hreturnType, hname, hparams, hbody⟩
    obtain ⟨⟨_, _, _, _⟩, _, _, _, _⟩ := m'
    cases hvisibility
    cases hstatic
    cases hfinal
    cases habstract
    cases hreturnType
    cases hname
    cases hparams
    cases hbody
    rfl
  · rintro rfl
    exact ⟨rfl, rfl, rfl, rfl, rfl, rfl, rfl, rfl⟩

/-- The methods of the contract have their parameters numbered already. -/
theorem MethodDecl.refusedAs_iff {n : UInt32} {m m' : MethodDecl}
    (hm : Stub.numberedParams m.params = m.params) :
    m.RefusedAs n m' ↔ m' = Stub.unsupported m n := by
  constructor
  · rintro ⟨hmodifiers, hreturnType, hname, hparams, hbody⟩
    rw [Stub.unsupported, hm]
    cases m'
    cases hmodifiers
    cases hreturnType
    cases hname
    cases hparams
    cases hbody
    rfl
  · rintro rfl
    exact ⟨rfl, rfl, rfl, hm, rfl⟩

namespace Member

variable {marker : Marker} {shared : List Signature} {name : String} {earlier : List Member}

theorem carriedAs_method_iff {m : MethodDecl} {x : Member} :
    (Member.method m).CarriedAs marker shared name earlier x ↔ x = .method
      (if m.signature marker ∈ shared ∧ m.signature marker ∉ signatures marker earlier
        then Stub.expose m else m) := by
  constructor
  · intro h
    cases h with
    | exposed hshared hfirst h => rw [if_pos ⟨hshared, hfirst⟩, MethodDecl.exposedAs_iff.mp h]
    | method h => rw [if_neg fun hnew => hnew.2 (h hnew.1)]
  · rintro rfl
    split
    next hnew => exact .exposed hnew.1 hnew.2 (MethodDecl.exposedAs_iff.mpr rfl)
    next hold => exact .method fun hshared => Classical.byContradiction fun h => hold ⟨hshared, h⟩

theorem carriedAs_other_iff {m x : Member} (hm : m.method? = none) :
    m.CarriedAs marker shared name earlier x ↔ x = Merge.rename name m := by
  cases m with
  | method m => cases hm
  | field f =>
    refine ⟨fun h => ?_, fun h => h ▸ .field f⟩
    cases h
    rfl
  | type t =>
    refine ⟨fun h => ?_, fun h => h ▸ .type t⟩
    cases h
    rfl
  | constructor c =>
    refine ⟨fun h => ?_, fun h => h ▸ .constructor (ConstructorDecl.renamedTo_iff.mpr rfl)⟩
    cases h with
    | constructor h => rw [ConstructorDecl.renamedTo_iff.mp h]; rfl

end Member

namespace Merge

variable {marker : Marker} {name : String} {shared seen : List Signature} {earlier : List Member}

theorem length_place (ms : List Member) :
    (place marker name shared seen ms).length = ms.length := by
  induction ms generalizing seen with
  | nil => rfl
  | cons m rest ih =>
    rcases m.method_or_other with ⟨d, rfl⟩ | hm
    · rw [place_method, List.length_cons, List.length_cons, ih]
    · rw [place_other hm, List.length_cons, List.length_cons, ih]

/-- Member by member, what was placed is what the member is carried over as. -/
theorem getElem?_place (ms : List Member)
    (hseen : ∀ s, s ∈ seen ↔ s ∈ Member.signatures marker earlier) (i : Nat) (m x : Member)
    (hm : ms[i]? = some m) : (place marker name shared seen ms)[i]? = some x ↔
      m.CarriedAs marker shared name (earlier ++ ms.take i) x := by
  induction ms generalizing seen earlier i with
  | nil => cases hm
  | cons first rest ih =>
    rcases first.method_or_other with ⟨d, rfl⟩ | hfirst
    · have hmore : ∀ s, s ∈ d.signature marker :: seen ↔
          s ∈ Member.signatures marker (earlier ++ [.method d]) := fun s => by
        simp [hseen, Member.signatures, Member.method?, or_comm]
      rw [place_method]
      cases i with
      | zero =>
        cases hm
        rw [List.take_zero, List.append_nil, Member.carriedAs_method_iff]
        simp [hseen, eq_comm]
      | succ i =>
        rw [List.take_succ_cons, List.append_cons]
        exact ih hmore i hm
    · have hmore : ∀ s, s ∈ seen ↔ s ∈ Member.signatures marker (earlier ++ [first]) := fun s => by
        rw [hseen, Member.signatures_append, Member.signatures_of_method? hfirst]
        simp [Member.signatures]
      rw [place_other hfirst]
      cases i with
      | zero =>
        cases hm
        rw [List.take_zero, List.append_nil, Member.carriedAs_other_iff hfirst]
        simp [eq_comm]
      | succ i =>
        rw [List.take_succ_cons, List.append_cons]
        exact ih hmore i hm

theorem implied_of_constructible {version : TypeDecl}
    (h : ∃ c ∈ version.constructors, c.params = []) : implied name version = [] := by
  obtain ⟨c, hc, hparams⟩ := h
  exact if_pos (List.any_eq_true.mpr ⟨c, hc, List.isEmpty_iff.mpr hparams⟩)

theorem implied_of_not_constructible {version : TypeDecl}
    (h : ∀ c ∈ version.constructors, c.params ≠ []) :
    implied name version = [.constructor (emptyConstructor name)] := by
  refine if_neg fun hany => ?_
  obtain ⟨c, hc, hparams⟩ := List.any_eq_true.mp hany
  exact h c hc (List.isEmpty_iff.mp hparams)

theorem forall₂_refusedAs_iff {n : UInt32} {ms : List MethodDecl} {xs : List Member}
    (hms : ∀ m ∈ ms, Stub.numberedParams m.params = m.params) :
    List.Forall₂ (fun m x => ∃ m', x = Member.method m' ∧ m.RefusedAs n m') ms xs ↔
      xs = ms.map fun m => .method (Stub.unsupported m n) := by
  induction ms generalizing xs with
  | nil => exact List.forall₂_nil_left_iff
  | cons m rest ih =>
    obtain ⟨hm, hrest⟩ := List.forall_mem_cons.mp hms
    rw [List.forall₂_cons_left_iff, List.map_cons]
    constructor
    · rintro ⟨_, xs, ⟨m', rfl, hrefused⟩, hall, rfl⟩
      rw [(MethodDecl.refusedAs_iff hm).mp hrefused, (ih hrest).mp hall]
    · rintro rfl
      exact ⟨_, _, ⟨_, rfl, (MethodDecl.refusedAs_iff hm).mpr rfl⟩, (ih hrest).mpr rfl, rfl⟩

/-- The three parts are determined by the version and the contract. -/
theorem mergedInto_iff {contract : TypeDecl} {v : VersionDecl} {own added refusals : List Member}
    (hcontract : ∀ m ∈ contract.methods, Stub.numberedParams m.params = m.params) :
    v.MergedInto marker name contract own added refusals ↔
      own = place marker name (Member.signatures marker contract.members) [] v.decl.members ∧
      added = implied name v.decl ∧
      refusals = (contract.methods.filter fun m =>
        m.signature marker ∉ Member.signatures marker v.decl.members).map
          fun m => .method (Stub.unsupported m v.ordinal) := by
  have hnumbered : ∀ m ∈ contract.methods.filter fun m =>
      m.signature marker ∉ Member.signatures marker v.decl.members,
      Stub.numberedParams m.params = m.params := fun m hm =>
    hcontract m (List.mem_filter.mp hm).1
  have hplaced : ∀ (i : Nat) (m x : Member), v.decl.members[i]? = some m → (_ ↔ _) :=
    @getElem?_place marker name (Member.signatures marker contract.members) [] [] v.decl.members
      fun _ => Iff.rfl
  constructor
  · intro h
    refine ⟨List.ext_getElem? fun i => ?_, ?_, (forall₂_refusedAs_iff hnumbered).mp h.refusals⟩
    · cases hm : v.decl.members[i]? with
      | none =>
        have hlength := List.getElem?_eq_none_iff.mp hm
        rw [List.getElem?_eq_none (h.length_own ▸ hlength),
          List.getElem?_eq_none ((length_place _).symm ▸ hlength)]
      | some m =>
        obtain ⟨x, hx, hcarried⟩ := h.own i m hm
        rw [hx]
        exact ((hplaced i m x hm).mpr hcarried).symm
    · by_cases hconstructible : ∃ c ∈ v.decl.constructors, c.params = []
      · rw [h.constructible hconstructible, implied_of_constructible hconstructible]
      · have hnone : ∀ c ∈ v.decl.constructors, c.params ≠ [] := fun c hc hparams =>
          hconstructible ⟨c, hc, hparams⟩
        rw [h.added hnone, implied_of_not_constructible hnone]
        rfl
  · rintro ⟨rfl, rfl, rfl⟩
    refine ⟨length_place _, fun i m hm => ?_, implied_of_constructible,
      implied_of_not_constructible, (forall₂_refusedAs_iff hnumbered).mpr rfl⟩
    have hi : i < (place marker name (Member.signatures marker contract.members) []
        v.decl.members).length := by
      rw [length_place]
      exact (List.getElem?_eq_some_iff.mp hm).1
    have hx := List.getElem?_eq_getElem hi
    exact ⟨_, hx, (hplaced i m _ hm).mp hx⟩

end Merge

namespace Group

variable {marker : Marker} {table : SymbolTable} {options : Options} {vs : List VersionDecl}

theorem numberedParams_contract (marker : Marker) (naming : Naming) (vs : List VersionDecl) :
    ∀ m ∈ (contract marker naming vs).methods, Stub.numberedParams m.params = m.params := by
  rw [methods_contract]
  intro m hm
  obtain ⟨e, -, rfl⟩ := List.mem_map.mp hm
  exact Stub.numberedParams_numberedParams e.2.params

/--
An implementation type has the superclass of its version and, behind the contract, its interfaces.
Its members are those of its version in their order, then the constructor it may need, then a
refusal for each signature of the contract that its version lacks; no signature is in the contract
twice.
-/
theorem merging_exact {g : Group} {unit : CompilationUnit}
    (hbuild : g.build marker table options = .ok unit) (hvs : g.versions marker = .ok vs) :
    ∃ outer contract, unit.types.head? = some outer ∧
      outer.nested? options.naming.behaviorInterface .interfaceType = some contract ∧
      (Member.signatures marker contract.members).Nodup ∧
      ∀ v ∈ vs, ∃ impl own added refusals,
        outer.nested? (options.naming.implType v.ordinal) .classType = some impl ∧
        impl.superclass = v.decl.superclass ∧
        impl.interfaces =
          { name := options.naming.behaviorInterface, args := [], dims := 0 } :: v.decl.interfaces ∧
        impl.members = own ++ added ++ refusals ∧
        v.MergedInto marker (options.naming.implType v.ordinal) contract own added refusals := by
  obtain ⟨vs', outer, hvs', houter, rfl⟩ := build_eq_ok hbuild
  cases hvs.symm.trans hvs'
  have hunified := outer_eq_ok (versions_eq_ok hvs).2 houter
  refine ⟨outer, _, head?_types_compose marker g outer, hunified.furnished.hasContract, ?_,
    fun v hv => ?_⟩
  · rw [signatures_members_contract]
    exact Stub.nodup_shared marker vs
  · obtain ⟨hsuperclass, hinterfaces⟩ := supertypes_implementation marker options.naming vs v
    refine ⟨_, _, _, _, hunified.furnished.hasImpls v hv, hsuperclass, hinterfaces, ?_,
      (Merge.mergedInto_iff (numberedParams_contract marker options.naming vs)).mpr ⟨rfl, rfl, rfl⟩⟩
    rw [members_implementation, signatures_members_contract, refusals_contract]
    rfl

def depotOne : VersionDecl where
  ordinal := 1
  decl :=
    { name := "Depot__1__"
      superclass := some (.plain "Store")
      interfaces := [.plain "Closeable"]
      members := [
        .field (.single .priv (.plain "int") "size"),
        .method
          { modifiers := Modifiers.priv.withStatic, returnType := .plain "int", name := "count",
            params := [{ ty := .plain "Depot__2__", name := "other" }],
            body := some [.ret (some (.int 2))] },
        .method
          { modifiers := Modifiers.priv.withStatic.withFinal, returnType := .plain "int",
            name := "count", params := [{ ty := .plain "Depot__1__", name := "other" }],
            body := some [.ret (some (.int 1))] },
        .constructor
          { name := "Depot__1__", params := [{ ty := .plain "int", name := "size" }],
            body := [.expr (.set (.thisField "size") (.ident "size"))] }] }

def depotTwo : VersionDecl where
  ordinal := 2
  decl :=
    { name := "Depot__2__"
      members := [
        .constructor { name := "Depot__2__" },
        .method { returnType := .void, name := "close" },
        .method
          { returnType := .plain "int", name := "count",
            params := [{ ty := .plain "Depot", name := "depot" }] },
        .method { modifiers := .pub, returnType := .void, name := "close" }] }

/-- Each version declares one signature twice, and the first lacks the one that the second repeats. -/
def depot : Group where
  baseName := "Depot"
  units := [{ types := [depotOne.decl] }, { types := [depotTwo.decl] }]

theorem versions_depot : depot.versions .standard = .ok [depotOne, depotTwo] :=
  versions_of_perm (by simp) (by decide) (by decide) (List.Perm.refl _)

theorem merging_exact_depot : ∃ unit outer impl,
    depot.build .standard (.build .standard depot.units) {} = .ok unit ∧
    unit.types.head? = some outer ∧ outer.nested? "V1_Impl" .classType = some impl ∧
    impl.superclass = some (.plain "Store") ∧
    impl.interfaces = [.plain "IVersionBehavior", .plain "Closeable"] ∧
    impl.members = [
      .field (.single .priv (.plain "int") "size"),
      .method
        { modifiers := .pub, returnType := .plain "int", name := "count",
          params := [{ ty := .plain "Depot__2__", name := "other" }],
          body := some [.ret (some (.int 2))] },
      .method
        { modifiers := Modifiers.priv.withStatic.withFinal, returnType := .plain "int",
          name := "count", params := [{ ty := .plain "Depot__1__", name := "other" }],
          body := some [.ret (some (.int 1))] },
      .constructor
        { name := "V1_Impl", params := [{ ty := .plain "int", name := "size" }],
          body := [.expr (.set (.thisField "size") (.ident "size"))] },
      .constructor { modifiers := .pub, name := "V1_Impl" },
      .method
        { modifiers := .pub, returnType := .void, name := "close",
          body := some [.throw (.create (.plain "UnsupportedOperationException")
            [.string "close is not supported by version 1"])] }] := by
  obtain ⟨built, hunified, hbuild⟩ :=
    build_of_versions (.build .standard depot.units) {} versions_depot
  obtain ⟨outer, contract, hhead, hcontract, -, himpls⟩ := merging_exact hbuild versions_depot
  cases (head?_types_compose .standard depot built).symm.trans hhead
  cases hunified.furnished.hasContract.symm.trans hcontract
  obtain ⟨impl, own, added, refusals, himpl, hsuperclass, hinterfaces, hmembers, hparts⟩ :=
    himpls depotOne (by simp)
  obtain ⟨rfl, rfl, rfl⟩ := (Merge.mergedInto_iff (numberedParams_contract _ _ _)).mp hparts
  exact ⟨_, _, impl, hbuild, hhead, himpl, hsuperclass, hinterfaces, hmembers.trans rfl⟩

end Group

end VersionWeave
