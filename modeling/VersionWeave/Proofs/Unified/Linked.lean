import VersionWeave.Proofs.Unified.Constructible
import VersionWeave.Proofs.Unified.Merged

namespace VersionWeave

/-- The parameter types of every declared constructor, version by version. -/
def constructorTypes (marker : Marker) (vs : List VersionDecl) : List (List String) :=
  vs.flatMap fun v => v.decl.constructors.map fun c => signatureTypes marker c.params

/-- The field of its own object that a statement assigns and does nothing else, with the value. -/
def Stmt.assignment? : Stmt → Option (String × Expr)
  | .expr (.assign (.field .this field) .assign value) => some (field, value)
  | _ => none

/-- What the body of a constructor assigns to a field of its object. -/
def ConstructorDecl.assigned (c : ConstructorDecl) (field : String) : List Expr :=
  ((c.body.filterMap Stmt.assignment?).filter fun a => a.1 = field).map Prod.snd

section

variable {marker : Marker} {vs : List VersionDecl}

theorem constructorTypes_eq : constructorTypes marker vs =
    (numberedConstructors vs).map fun s => signatureTypes marker s.params := by
  unfold constructorTypes numberedConstructors
  rw [List.map_flatMap]
  simp only [List.map_map]
  rfl

/-- Every declared signature is collected once; without any there is the empty one. -/
theorem map_constructorSignatures (hne : vs ≠ []) :
    (constructorSignatures marker vs).map (fun s => signatureTypes marker s.params) =
      distinct (if (constructorTypes marker vs).isEmpty then [[]]
        else constructorTypes marker vs) := by
  have hfirst : ((numberedConstructors vs).foldl (fun found c =>
      Entries.putNew found (signatureTypes marker c.params) c) []).values.map
        (fun s => signatureTypes marker s.params) = distinct (constructorTypes marker vs) := by
    rw [constructorTypes_eq]
    exact Entries.map_values_foldl_putNew _ _
  obtain ⟨v, rest, rfl⟩ := List.exists_cons_of_ne_nil hne
  have hempty : (numberedConstructors (v :: rest)).isEmpty =
      (constructorTypes marker (v :: rest)).isEmpty := by
    rw [constructorTypes_eq, List.isEmpty_map]
  unfold constructorSignatures
  change List.map _ (if (numberedConstructors (v :: rest)).isEmpty then _ else _) = _
  rw [hempty]
  by_cases hnone : (constructorTypes marker (v :: rest)).isEmpty = true
  · rw [if_pos hnone, if_pos hnone]
    rfl
  · rw [if_neg hnone, if_neg hnone]
    exact hfirst

end

namespace ConstructorSignature

/-- The object that a constructor of the signature makes for a version. -/
def creation (naming : Naming) (s : ConstructorSignature) (n : UInt32) : Expr :=
  .create (.plain (naming.implType n))
    (if n = s.owner then s.params.map fun p => .ident p.name else [])

/-- The fields that a constructor of the signature assigns, with their values. -/
def initials (naming : Naming) (ordinals : List UInt32) (s : ConstructorSignature) :
    List (String × Expr) :=
  (ordinals.map fun n => (naming.instanceField n, s.creation naming n))
    ++ [(naming.activeField, .thisField (naming.instanceField s.owner))]

variable {naming : Naming} {ordinals : List UInt32} {s : ConstructorSignature}

theorem body_eq_initials (name : String) :
    (outerConstructor naming name ordinals s).body.map Stmt.assignment? =
      (s.initials naming ordinals).map some := by
  unfold outerConstructor initials
  dsimp only
  rw [List.map_append, List.map_append, List.map_map, List.map_map]
  rfl

theorem isSome_assignment? (name : String) :
    ∀ stmt ∈ (outerConstructor naming name ordinals s).body, stmt.assignment?.isSome = true := by
  intro stmt hstmt
  have hmem : stmt.assignment? ∈ (s.initials naming ordinals).map some := by
    rw [← body_eq_initials name]
    exact List.mem_map_of_mem hstmt
  obtain ⟨a, -, ha⟩ := List.mem_map.mp hmem
  rw [← ha]
  rfl

theorem assigned_eq (name field : String) :
    (outerConstructor naming name ordinals s).assigned field =
      ((s.initials naming ordinals).filter fun a => a.1 = field).map Prod.snd := by
  have hall : (outerConstructor naming name ordinals s).body.filterMap Stmt.assignment? =
      ((outerConstructor naming name ordinals s).body.map Stmt.assignment?).filterMap id := by
    rw [List.filterMap_map]
    rfl
  have hsome : ((s.initials naming ordinals).map some).filterMap id =
      s.initials naming ordinals := by
    rw [List.filterMap_map]
    exact List.filterMap_some
  rw [ConstructorDecl.assigned, hall, body_eq_initials, hsome]

/-- Where no ordinal comes twice, the instance of each version is assigned once. -/
theorem assigned_instanceField (hapart : naming.Apart) (hnodup : ordinals.Nodup) {n : UInt32}
    (hn : n ∈ ordinals) (name : String) :
    (outerConstructor naming name ordinals s).assigned (naming.instanceField n) =
      [s.creation naming n] := by
  have honce : ordinals.filter (fun k => decide (naming.instanceField k = naming.instanceField n)) =
      [n] := by
    simp only [Naming.instanceField_inj]
    rw [List.filter_eq, hnodup.count, if_pos hn]
    rfl
  rw [assigned_eq, initials, List.filter_append, List.filter_map]
  simp [Function.comp_def, honce, (hapart.active n).symm]

theorem assigned_activeField (hapart : naming.Apart) (name : String) :
    (outerConstructor naming name ordinals s).assigned naming.activeField =
      [.thisField (naming.instanceField s.owner)] := by
  have hnone : ordinals.filter (fun k => decide (naming.instanceField k = naming.activeField)) =
      [] := by
    rw [List.filter_eq_nil_iff]
    intro k _
    simpa using hapart.active k
  rw [assigned_eq, initials, List.filter_append, List.filter_map]
  simp [Function.comp_def, hnone]

end ConstructorSignature

namespace Merge

variable {name : String} {version target : TypeDecl}

theorem constructors_absorb (hempty : target.members = []) :
    (absorb name version target).constructors =
      (version.constructors.map fun c => { c with name }) ++
        (implied name version).filterMap Member.constructor? := by
  rw [absorb_of_empty name version hempty, TypeDecl.constructors, List.filterMap_append,
    constructors_rename]
  rfl

/-- An implementation type keeps every constructor of its version, under its own name. -/
theorem mem_constructors_absorb (hempty : target.members = []) {c : ConstructorDecl}
    (hc : c ∈ version.constructors) :
    { c with name } ∈ (absorb name version target).constructors := by
  rw [constructors_absorb hempty]
  exact List.mem_append_left _ (List.mem_map.mpr ⟨c, hc, rfl⟩)

/-- An implementation type can be created without arguments. -/
theorem exists_constructor_absorb (name : String) (version : TypeDecl)
    (hempty : target.members = []) :
    ∃ d ∈ (absorb name version target).constructors, d.name = name ∧ d.params = [] := by
  by_cases hany : (version.constructors.any fun c => c.params.isEmpty) = true
  · obtain ⟨c, hc, hparams⟩ := List.any_eq_true.mp hany
    exact ⟨_, mem_constructors_absorb hempty hc, rfl, List.isEmpty_iff.mp hparams⟩
  · refine ⟨emptyConstructor name, ?_, rfl, rfl⟩
    rw [constructors_absorb hempty, implied, if_neg hany]
    exact List.mem_append_right _ List.mem_cons_self

end Merge

namespace Group

/-- Each object that an outer constructor makes has a constructor for the arguments it is given. -/
theorem exists_constructor {marker : Marker} {naming : Naming} {vs : List VersionDecl}
    {outer : TypeDecl} (himpls : ∀ v ∈ vs, outer.nested? (naming.implType v.ordinal) .classType =
      some (Merge.absorb (naming.implType v.ordinal) v.decl
        (Skeleton.implementation naming v.ordinal)))
    {c : ConstructorDecl} {owner : VersionDecl} (howned : c.OwnedBy marker vs owner)
    {v : VersionDecl} (hv : v ∈ vs) :
    ∃ impl d, outer.nested? (naming.implType v.ordinal) .classType = some impl ∧
      d ∈ impl.constructors ∧ d.name = naming.implType v.ordinal ∧
      d.params.length = (if v.ordinal = owner.ordinal then c.params.length else 0) ∧
      (v.ordinal = owner.ordinal →
        signatureTypes marker d.params = signatureTypes marker c.params) := by
  obtain ⟨bare, hbare, hname, hnone⟩ := Merge.exists_constructor_absorb (naming.implType v.ordinal)
    v.decl (rfl : (Skeleton.implementation naming v.ordinal).members = [])
  by_cases hsame : v.ordinal = owner.ordinal
  · obtain ⟨howner, ⟨⟨d, hd, htypes⟩, -⟩ | ⟨-, hparams, -⟩⟩ := howned
    · have himpl := himpls owner howner
      rw [← hsame] at himpl
      refine ⟨_, { d with name := naming.implType v.ordinal }, himpl,
        Merge.mem_constructors_absorb rfl hd, rfl, ?_, fun _ => htypes⟩
      rw [if_pos hsame]
      simpa [signatureTypes] using congrArg List.length htypes
    · refine ⟨_, bare, himpls v hv, hbare, hname, ?_, fun _ => ?_⟩
      · rw [if_pos hsame, hnone, hparams]
      · rw [hnone, hparams]
  · refine ⟨_, bare, himpls v hv, hbare, hname, ?_, fun he => absurd he hsame⟩
    rw [if_neg hsame, hnone]
    rfl

/-- Nothing before the constructors are generated gives the unified type one. -/
theorem constructors_addConstructors (marker : Marker) {naming : Naming} {base : String}
    {vs : List VersionDecl} {start merged : TypeDecl} (hstart : start.members = [])
    (hmerge : (start.addSkeleton naming (vs.map VersionDecl.ordinal)).mergeVersions naming base vs =
      .ok merged) :
    (merged.addConstructors marker naming vs).constructors =
      (constructorSignatures marker vs).map
        (outerConstructor naming start.name (vs.map VersionDecl.ordinal)) := by
  obtain ⟨hname, hfront⟩ := Prod.mk.inj (TypeDecl.reworked_mergeVersions hmerge).front
  have hnone : merged.constructors = [] := by
    refine (congrArg (fun f => f.2.2) hfront).trans ?_
    rw [TypeDecl.addSkeleton, TypeDecl.constructors_append, Skeleton.constructors_members,
      TypeDecl.constructors, hstart]
    rfl
  replace hname : merged.name = start.name := hname
  simp [TypeDecl.addConstructors, hname, hnone, List.filterMap_map, Function.comp_def,
    Member.constructor?]

/--
The constructors of a unified type are the declared signatures, once each. Each makes one object
for every version, with all its parameters for the lowest version that declares its signature and
without any for the others, and finds a constructor for each of them.
-/
theorem constructors_linked (marker : Marker) (base : String) (start : TypeDecl)
    (vs : List VersionDecl) (hstart : start.members = []) (hne : vs ≠ [])
    (hsorted : vs.Pairwise fun a b => a.ordinal < b.ordinal) :
    ∃ merged, (start.addSkeleton {} (vs.map VersionDecl.ordinal)).mergeVersions {} base vs =
        .ok merged ∧
      let outer := merged.addConstructors marker {} vs
      outer.constructors.map (fun c => signatureTypes marker c.params) =
        distinct (if (constructorTypes marker vs).isEmpty then [[]]
          else constructorTypes marker vs) ∧
      ∀ c ∈ outer.constructors, c.name = start.name ∧
        (∀ stmt ∈ c.body, stmt.assignment?.isSome = true) ∧
        ∃ owner, c.OwnedBy marker vs owner ∧
          c.assigned (Naming.activeField {}) =
            [.thisField (Naming.instanceField {} owner.ordinal)] ∧
          ∀ v ∈ vs, ∃ args impl d,
            args = (if v.ordinal = owner.ordinal then c.params.map fun p => Expr.ident p.name
              else []) ∧
            c.assigned (Naming.instanceField {} v.ordinal) =
              [.create (.plain (Naming.implType {} v.ordinal)) args] ∧
            outer.nested? (Naming.implType {} v.ordinal) .classType = some impl ∧
            d ∈ impl.constructors ∧ d.name = Naming.implType {} v.ordinal ∧
            d.params.length = args.length ∧
            (v.ordinal = owner.ordinal →
              signatureTypes marker d.params = signatureTypes marker c.params) := by
  have hnodup : (vs.map VersionDecl.ordinal).Nodup :=
    List.pairwise_map.mpr (hsorted.imp UInt32.ne_of_lt)
  obtain ⟨merged, hmerge, hmerged⟩ :=
    (Skeleton.furnished {} vs hstart).mergeVersions hnodup base
  have hconstructors := constructors_addConstructors marker hstart hmerge
  refine ⟨merged, hmerge, ?_, fun c hc => ?_⟩
  · rw [hconstructors, List.map_map]
    exact map_constructorSignatures hne
  · rw [hconstructors] at hc
    obtain ⟨s, hs, rfl⟩ := List.mem_map.mp hc
    obtain ⟨owner, howner, howned⟩ := exists_ownedBy hsorted hs {} start.name
      (vs.map VersionDecl.ordinal)
    refine ⟨rfl, ConstructorSignature.isSome_assignment? _, owner, howned, ?_, fun v hv => ?_⟩
    · rw [howner]
      exact ConstructorSignature.assigned_activeField Naming.standard_apart _
    · obtain ⟨impl, d, himpl, hd, hdname, hlength, htypes⟩ :=
        exists_constructor (hmerged.append _).hasImpls howned hv
      refine ⟨_, impl, d, rfl, ?_, himpl, hd, hdname, ?_, htypes⟩
      · rw [howner]
        exact ConstructorSignature.assigned_instanceField Naming.standard_apart hnodup
          (List.mem_map.mpr ⟨v, hv, rfl⟩) _
      · rw [hlength]
        split
        next => rw [List.length_map]
        next => rfl

def parcelOne : VersionDecl where
  ordinal := 1
  decl :=
    { name := "Parcel__1__"
      members := [.constructor
        { modifiers := .pub, name := "Parcel__1__",
          params := [{ ty := .plain "Parcel__4__", name := "inner" }] }] }

def parcelThree : VersionDecl where
  ordinal := 3
  decl := { name := "Parcel__3__" }

/-- Repeats the constructor of the first version, whose parameter carries another mark. -/
def parcelFour : VersionDecl where
  ordinal := 4
  decl :=
    { name := "Parcel__4__"
      members := [
        .constructor { name := "Parcel__4__" },
        .constructor
          { name := "Parcel__4__",
            params := [{ ty := .plain "Parcel__1__", name := "content" }] }] }

theorem constructors_linked_parcel : ∃ merged c,
    (TypeDecl.addSkeleton {} [1, 3, 4] { name := "Parcel" }).mergeVersions {} "Parcel"
      [parcelOne, parcelThree, parcelFour] = .ok merged ∧
    (merged.addConstructors .standard {} [parcelOne, parcelThree, parcelFour]).constructors.map
      (fun c => signatureTypes .standard c.params) = [["Parcel"], []] ∧
    c ∈ (merged.addConstructors .standard {} [parcelOne, parcelThree, parcelFour]).constructors ∧
    signatureTypes .standard c.params = ["Parcel"] ∧
    c.OwnedBy .standard [parcelOne, parcelThree, parcelFour] parcelOne ∧
    (∃ p, c.assigned "v1_instance" = [.create (.plain "V1_Impl") [.ident p]]) ∧
    c.assigned "v3_instance" = [.create (.plain "V3_Impl") []] ∧
    c.assigned "v4_instance" = [.create (.plain "V4_Impl") []] := by
  obtain ⟨merged, hmerge, hsignatures, hall⟩ := constructors_linked .standard "Parcel"
    { name := "Parcel" } [parcelOne, parcelThree, parcelFour] rfl (by simp)
    (by simp [parcelOne, parcelThree, parcelFour])
  have hdistinct : distinct (if (constructorTypes .standard
      [parcelOne, parcelThree, parcelFour]).isEmpty then [[]]
        else constructorTypes .standard [parcelOne, parcelThree, parcelFour]) =
          [["Parcel"], []] := by
    decide
  rw [hdistinct] at hsignatures
  obtain ⟨c, hc, htypes⟩ := List.mem_map.mp (hsignatures ▸ List.mem_cons_self)
  obtain ⟨-, -, owner, howned, -, hvs⟩ := hall c hc
  obtain ⟨p, hp⟩ : ∃ p, c.params = [p] := by
    have hlength := congrArg List.length htypes
    simpa [signatureTypes, List.length_eq_one_iff] using hlength
  have howner : owner = parcelOne := by
    -- the fourth version declares these types too, but the first one comes before it
    obtain ⟨hmem, ⟨-, hleast⟩ | ⟨hnone, -⟩⟩ := howned
    · have hle := hleast parcelOne (by simp) _ List.mem_cons_self
        ((by decide : _ = ["Parcel"]).trans htypes.symm)
      rcases List.mem_cons.mp hmem with rfl | hmem
      · rfl
      · have hlater : ∀ v ∈ [parcelThree, parcelFour], ¬ v.ordinal ≤ parcelOne.ordinal := by
          decide
        exact absurd hle (hlater owner hmem)
    · exact absurd (hnone parcelOne (by simp)) (by decide)
  subst howner
  obtain ⟨_, -, -, rfl, hone, -⟩ := hvs parcelOne (by simp)
  obtain ⟨_, -, -, rfl, hthree, -⟩ := hvs parcelThree (by simp)
  obtain ⟨_, -, -, rfl, hfour, -⟩ := hvs parcelFour (by simp)
  rw [hp] at hone
  exact ⟨merged, c, hmerge, hsignatures, hc, htypes, howned, ⟨p.name, hone⟩, hthree, hfour⟩

end Group

end VersionWeave
