import VersionWeave.Proofs.Unified.Surface

namespace VersionWeave

/-- The signatures of the methods among some members. -/
def Member.signatures (marker : Marker) (ms : List Member) : List Signature :=
  (ms.filterMap Member.method?).map (MethodDecl.signature marker)

namespace Member

variable {marker : Marker}

@[simp] theorem signatures_method (m : MethodDecl) (rest : List Member) :
    signatures marker (.method m :: rest) = m.signature marker :: signatures marker rest := rfl

@[simp] theorem signatures_append (xs ys : List Member) :
    signatures marker (xs ++ ys) = signatures marker xs ++ signatures marker ys := by
  simp [signatures]

theorem method_or_other (m : Member) : (∃ d, m = .method d) ∨ m.method? = none := by
  cases m with
  | method d => exact .inl ⟨d, rfl⟩
  | _ => exact .inr rfl

/-- Members other than methods have no signature. -/
theorem signatures_of_method? {m : Member} (h : m.method? = none) (rest : List Member) :
    signatures marker (m :: rest) = signatures marker rest := by
  rw [signatures, List.filterMap_cons_none h, signatures]

end Member

namespace Merge

/-- The constructor without arguments that an implementation type gets when its version has none. -/
def implied (name : String) (version : TypeDecl) : List Member :=
  if version.constructors.any fun c => c.params.isEmpty then []
  else [.constructor (emptyConstructor name)]

/--
The members of a version in its implementation type: constructors take its name, and of the methods
of a shared signature the first is exposed.
-/
def place (marker : Marker) (name : String) (shared : List Signature) :
    List Signature → List Member → List Member
  | _, [] => []
  | seen, .method m :: rest =>
    .method (if m.signature marker ∈ shared ∧ m.signature marker ∉ seen then Stub.expose m else m)
      :: place marker name shared (m.signature marker :: seen) rest
  | seen, m :: rest => rename name m :: place marker name shared seen rest

end Merge

namespace Stub

/-- The members of an implementation type after some signatures were shared. -/
def merged (marker : Marker) (name : String) (n : UInt32) (version : TypeDecl)
    (entries : List (Signature × MethodDecl)) : List Member :=
  Merge.place marker name (entries.map Prod.fst) [] version.members
    ++ Merge.implied name version
    ++ (entries.filter fun e => e.1 ∉ Member.signatures marker version.members).map
      fun e => .method (unsupported e.2 n)

variable {marker : Marker} {name : String} {s : Signature} {ms : List Member}

theorem signature_exposed (marker : Marker) (p : Prop) [Decidable p] (m : MethodDecl) :
    (if p then expose m else m).signature marker = m.signature marker := by
  split
  next => rfl
  next => rfl

theorem exposeFirst?_method (m : MethodDecl) (rest : List Member) :
    exposeFirst? marker s (.method m :: rest) =
      if m.signature marker = s then some (.method (expose m) :: rest)
      else (exposeFirst? marker s rest).map (.method m :: ·) := rfl

theorem exposeFirst?_other {m : Member} (h : m.method? = none) (rest : List Member) :
    exposeFirst? marker s (m :: rest) = (exposeFirst? marker s rest).map (m :: ·) := by
  cases m with
  | method d => cases h
  | _ => rfl

theorem exposeFirst?_eq_none :
    exposeFirst? marker s ms = none ↔ s ∉ Member.signatures marker ms := by
  induction ms with
  | nil => exact iff_of_true rfl List.not_mem_nil
  | cons m rest ih =>
    rcases m.method_or_other with ⟨d, rfl⟩ | hm
    · rw [exposeFirst?_method, Member.signatures_method, List.mem_cons]
      by_cases hd : d.signature marker = s
      · simp [hd]
      · rw [if_neg hd, Option.map_eq_none_iff, ih]
        simp [Ne.symm hd]
    · rw [exposeFirst?_other hm, Option.map_eq_none_iff, ih, Member.signatures_of_method? hm]

theorem exposeFirst?_append (ys : List Member) : exposeFirst? marker s (ms ++ ys) =
    ((exposeFirst? marker s ms).map (· ++ ys)).or ((exposeFirst? marker s ys).map (ms ++ ·)) := by
  induction ms with
  | nil => exact Option.map_id'.symm
  | cons m rest ih =>
    have hlater : ((exposeFirst? marker s (rest ++ ys)).map (m :: ·)) =
        (((exposeFirst? marker s rest).map (m :: ·)).map (· ++ ys)).or
          ((exposeFirst? marker s ys).map (m :: rest ++ ·)) := by
      rw [ih]
      cases exposeFirst? marker s rest <;> cases exposeFirst? marker s ys <;> rfl
    rcases m.method_or_other with ⟨d, rfl⟩ | hm
    · rw [List.cons_append, exposeFirst?_method, exposeFirst?_method]
      by_cases hd : d.signature marker = s
      · simp [hd]
      · rw [if_neg hd, if_neg hd, hlater]
    · rw [List.cons_append, exposeFirst?_other hm, exposeFirst?_other hm, hlater]

end Stub

namespace Merge

variable {marker : Marker} {name : String} {shared seen : List Signature} {s : Signature}

theorem method?_rename {m : Member} (h : m.method? = none) : (rename name m).method? = none := by
  cases m with
  | method d => cases h
  | _ => rfl

theorem place_method (m : MethodDecl) (rest : List Member) :
    place marker name shared seen (.method m :: rest) =
      .method (if m.signature marker ∈ shared ∧ m.signature marker ∉ seen then Stub.expose m
        else m) :: place marker name shared (m.signature marker :: seen) rest := rfl

theorem place_other {m : Member} (h : m.method? = none) (rest : List Member) :
    place marker name shared seen (m :: rest) =
      rename name m :: place marker name shared seen rest := by
  cases m with
  | method d => cases h
  | _ => rfl

theorem place_nil (ms : List Member) : place marker name [] seen ms = ms.map (rename name) := by
  induction ms generalizing seen with
  | nil => rfl
  | cons m rest ih =>
    rcases m.method_or_other with ⟨d, rfl⟩ | hm
    · rw [place_method, ih, if_neg (by simp)]
      rfl
    · rw [place_other hm, ih]
      rfl

theorem signatures_place (ms : List Member) :
    Member.signatures marker (place marker name shared seen ms) = Member.signatures marker ms := by
  induction ms generalizing seen with
  | nil => rfl
  | cons m rest ih =>
    rcases m.method_or_other with ⟨d, rfl⟩ | hm
    · rw [place_method, Member.signatures_method, Member.signatures_method, ih, Stub.signature_exposed]
    · rw [place_other hm, Member.signatures_of_method? (method?_rename hm),
        Member.signatures_of_method? hm, ih]

/-- Placing changes of a method only what exposing changes. -/
theorem map_methods_place {α : Type} {p : MethodDecl → α} (hp : ∀ m, p (Stub.expose m) = p m)
    (ms : List Member) : ((place marker name shared seen ms).filterMap Member.method?).map p =
      (ms.filterMap Member.method?).map p := by
  induction ms generalizing seen with
  | nil => rfl
  | cons m rest ih =>
    rcases m.method_or_other with ⟨d, rfl⟩ | hm
    · have hd : p (if d.signature marker ∈ shared ∧ d.signature marker ∉ seen then Stub.expose d
          else d) = p d := by
        split
        next => exact hp d
        next => rfl
      rw [place_method]
      exact List.cons_eq_cons.mpr ⟨hd, ih⟩
    · rw [place_other hm, List.filterMap_cons_none (method?_rename hm), List.filterMap_cons_none hm,
        ih]

/-- A signature that was seen before exposes nothing more. -/
theorem place_of_seen (hseen : s ∈ seen) (ms : List Member) :
    place marker name (shared ++ [s]) seen ms = place marker name shared seen ms := by
  induction ms generalizing seen with
  | nil => rfl
  | cons m rest ih =>
    rcases m.method_or_other with ⟨d, rfl⟩ | hm
    · have hsame : d.signature marker ∈ shared ++ [s] ∧ d.signature marker ∉ seen ↔
          d.signature marker ∈ shared ∧ d.signature marker ∉ seen := by
        rw [List.mem_append, List.mem_singleton]
        refine and_congr_left fun hnew => or_iff_left fun he => hnew ?_
        rw [he]
        exact hseen
      rw [place_method, place_method, ih (List.mem_cons_of_mem _ hseen)]
      simp only [hsame]
    · rw [place_other hm, place_other hm, ih hseen]

/-- One more shared signature exposes the first method that has it, if there is one. -/
theorem place_share (hs : s ∉ shared) (hseen : s ∉ seen) (ms : List Member) :
    place marker name (shared ++ [s]) seen ms =
      (Stub.exposeFirst? marker s (place marker name shared seen ms)).getD
        (place marker name shared seen ms) := by
  induction ms generalizing seen with
  | nil => rfl
  | cons m rest ih =>
    rcases m.method_or_other with ⟨d, rfl⟩ | hm
    · by_cases hd : d.signature marker = s
      · have hold : ¬ (d.signature marker ∈ shared ∧ d.signature marker ∉ seen) := by simp [hd, hs]
        have hnew : d.signature marker ∈ shared ++ [s] ∧ d.signature marker ∉ seen := by
          simp [hd, hseen]
        rw [place_method, place_method, if_neg hold, if_pos hnew, Stub.exposeFirst?_method, if_pos hd,
          place_of_seen (hd ▸ List.mem_cons_self)]
        rfl
      · have hsame : d.signature marker ∈ shared ++ [s] ∧ d.signature marker ∉ seen ↔
            d.signature marker ∈ shared ∧ d.signature marker ∉ seen := by simp [hd]
        have hunseen : s ∉ d.signature marker :: seen := by simp [Ne.symm hd, hseen]
        rw [place_method, place_method, ih hunseen, Stub.exposeFirst?_method, Stub.signature_exposed, if_neg hd,
          Option.getD_map]
        simp only [hsame]
    · rw [place_other hm, place_other hm, ih hseen,
        Stub.exposeFirst?_other (method?_rename hm), Option.getD_map]

theorem signatures_implied (name : String) (version : TypeDecl) :
    Member.signatures marker (implied name version) = [] := by
  unfold implied
  split
  next => rfl
  next => rfl

theorem constructors_rename (name : String) (ms : List Member) :
    (ms.map (rename name)).filterMap Member.constructor? =
      (ms.filterMap Member.constructor?).map fun c => { c with name } := by
  rw [List.filterMap_map, List.map_filterMap]
  congr 1
  funext m
  cases m <;> rfl

/-- A type without members takes the supertypes and the members of a version, and what is implied. -/
theorem absorb_of_empty (name : String) (version : TypeDecl) {target : TypeDecl}
    (hempty : target.members = []) : absorb name version target =
      { target with
        superclass := version.superclass.or target.superclass
        interfaces := target.interfaces ++ version.interfaces
        members := version.members.map (rename name) ++ implied name version } := by
  have hconstructors : ((version.members.map (rename name)).filterMap Member.constructor?).any
      (fun c => c.params.isEmpty) = version.constructors.any fun c => c.params.isEmpty := by
    rw [constructors_rename, List.any_map]
    rfl
  unfold absorb implied
  dsimp only
  rw [TypeDecl.constructors, hempty, List.nil_append, hconstructors]
  split
  next => rw [List.append_nil]
  next => rfl

end Merge

namespace Stub

variable {marker : Marker} {name : String} {n : UInt32} {version impl : TypeDecl}
  {entries : List (Signature × MethodDecl)}

theorem supertypes_complete (marker : Marker) (s : Signature) (template : MethodDecl) (n : UInt32)
    (impl : TypeDecl) : (complete marker s template n impl).superclass = impl.superclass ∧
      (complete marker s template n impl).interfaces = impl.interfaces := by
  unfold complete
  split
  next => exact ⟨rfl, rfl⟩
  next => exact ⟨rfl, rfl⟩

theorem supertypes_completed (entries : List (Signature × MethodDecl)) :
    (completed marker n entries impl).superclass = impl.superclass ∧
      (completed marker n entries impl).interfaces = impl.interfaces := by
  induction entries generalizing impl with
  | nil => exact ⟨rfl, rfl⟩
  | cons e rest ih =>
    have hstep := supertypes_complete marker e.1 e.2 n impl
    exact ⟨ih.1.trans hstep.1, ih.2.trans hstep.2⟩

/--
The search for a signature passes over the methods that stand for other signatures, so it finds
the version's own method or nothing.
-/
theorem members_complete {e : Signature × MethodDecl} (hnew : e.1 ∉ entries.map Prod.fst)
    (hentries : ∀ d ∈ entries, d.2.signature marker = d.1)
    (himpl : impl.members = merged marker name n version entries) :
    (complete marker e.1 e.2 n impl).members =
      merged marker name n version (entries ++ [e]) := by
  have hrefusals : e.1 ∉ Member.signatures marker (Merge.implied name version ++
      (entries.filter fun d => d.1 ∉ Member.signatures marker version.members).map
        fun d => Member.method (unsupported d.2 n)) := by
    rw [Member.signatures_append, Merge.signatures_implied, List.nil_append]
    intro hmem
    apply hnew
    obtain ⟨m, hm, he⟩ := List.mem_map.mp hmem
    obtain ⟨x, hx, hmethod⟩ := List.mem_filterMap.mp hm
    obtain ⟨d, hd, rfl⟩ := List.mem_map.mp hx
    cases hmethod
    have hold := (List.mem_filter.mp hd).1
    rw [signature_unsupported, hentries d hold] at he
    exact List.mem_map.mpr ⟨d, hold, he⟩
  have hplace : Merge.place marker name (entries.map Prod.fst ++ [e.1]) [] version.members = _ :=
    Merge.place_share hnew List.not_mem_nil version.members
  have hfind : exposeFirst? marker e.1 impl.members =
      (exposeFirst? marker e.1 (Merge.place marker name (entries.map Prod.fst) []
        version.members)).map (· ++ (Merge.implied name version ++
          (entries.filter fun d => d.1 ∉ Member.signatures marker version.members).map
            fun d => Member.method (unsupported d.2 n))) := by
    rw [himpl, merged, List.append_assoc, exposeFirst?_append, exposeFirst?_eq_none.mpr hrefusals,
      Option.map_none, Option.or_none]
  unfold complete
  rw [hfind]
  cases hown : exposeFirst? marker e.1 (Merge.place marker name (entries.map Prod.fst) []
      version.members) with
  | some members =>
    have hdeclared : e.1 ∈ Member.signatures marker version.members := by
      refine Classical.byContradiction fun hnone => ?_
      rw [exposeFirst?_eq_none.mpr (by rwa [Merge.signatures_place])] at hown
      cases hown
    rw [hown, Option.getD_some] at hplace
    simp [merged, hplace, hdeclared]
  | none =>
    have hlacking : e.1 ∉ Member.signatures marker version.members := by
      rw [← Merge.signatures_place]
      exact exposeFirst?_eq_none.mp hown
    rw [hown, Option.getD_none] at hplace
    simp [merged, himpl, hplace, hlacking, TypeDecl.append]

/-- Signature by signature, an implementation type is completed. -/
theorem members_completed {rest : List (Signature × MethodDecl)} :
    ∀ (entries : List (Signature × MethodDecl)) {impl : TypeDecl},
      ((entries ++ rest).map Prod.fst).Nodup →
      (∀ d ∈ entries ++ rest, d.2.signature marker = d.1) →
      impl.members = merged marker name n version entries →
      (completed marker n rest impl).members = merged marker name n version (entries ++ rest) := by
  induction rest with
  | nil =>
    intro entries impl _ _ himpl
    rw [List.append_nil]
    exact himpl
  | cons e rest ih =>
    intro entries impl hnodup hentries himpl
    have hshift : entries ++ e :: rest = entries ++ [e] ++ rest := by simp
    have hnew : e.1 ∉ entries.map Prod.fst := by
      rw [List.map_append, List.nodup_append] at hnodup
      exact fun hmem => hnodup.2.2 _ hmem _ List.mem_cons_self rfl
    have hstep := members_complete hnew (fun d hd => hentries d (List.mem_append_left _ hd)) himpl
    rw [hshift] at hnodup hentries ⊢
    exact ih _ hnodup hentries hstep

theorem numberedParams_numberedParams (params : List Param) :
    numberedParams (numberedParams params) = numberedParams params := by
  unfold numberedParams
  rw [List.mapIdx_mapIdx]
  rfl

/-- The contract says all that a refusal takes from a declaration. -/
theorem unsupported_bare (m : MethodDecl) (n : UInt32) :
    unsupported (bare m) n = unsupported m n := by
  unfold unsupported bare
  rw [numberedParams_numberedParams]

end Stub

namespace Group

variable {marker : Marker} {table : SymbolTable} {options : Options} {vs : List VersionDecl}

theorem members_implementation (marker : Marker) (naming : Naming) (vs : List VersionDecl)
    (v : VersionDecl) : (implementation marker naming vs v).members =
      Stub.merged marker (naming.implType v.ordinal) v.ordinal v.decl
        (Stub.shared (signatureGroups marker vs)) := by
  refine Stub.members_completed [] (Stub.nodup_shared marker vs) (fun _ => Stub.signature_of_mem_shared) ?_
  rw [Merge.absorb_of_empty _ _ rfl]
  simp [Stub.merged, Merge.place_nil]

/-- The methods of an implementation type: those of its version, and refusals of what it lacks. -/
theorem map_methods_implementation {α : Type} {p : MethodDecl → α}
    (hp : ∀ m, p (Stub.expose m) = p m) (marker : Marker) (naming : Naming) (vs : List VersionDecl)
    (v : VersionDecl) : (implementation marker naming vs v).methods.map p =
      v.decl.methods.map p ++ ((Stub.shared (signatureGroups marker vs)).filter fun e =>
        e.1 ∉ v.decl.methods.map (·.signature marker)).map
          fun e => p (Stub.unsupported e.2 v.ordinal) := by
  have himplied : (Merge.implied (naming.implType v.ordinal) v.decl).filterMap Member.method? = [] := by
    unfold Merge.implied
    split
    next => rfl
    next => rfl
  have hrefusals : ∀ es : List (Signature × MethodDecl),
      ((es.map fun e => Member.method (Stub.unsupported e.2 v.ordinal)).filterMap
        Member.method?).map p = es.map fun e => p (Stub.unsupported e.2 v.ordinal) := fun es => by
    simp [Member.method?, List.filterMap_map, Function.comp_def]
  rw [TypeDecl.methods, members_implementation, Stub.merged, List.filterMap_append,
    List.filterMap_append, himplied, List.append_nil, List.map_append, Merge.map_methods_place hp,
    hrefusals]
  rfl

theorem supertypes_implementation (marker : Marker) (naming : Naming) (vs : List VersionDecl)
    (v : VersionDecl) :
    (implementation marker naming vs v).superclass = v.decl.superclass ∧
      (implementation marker naming vs v).interfaces =
        .plain naming.behaviorInterface :: v.decl.interfaces := by
  unfold implementation
  obtain ⟨hsuperclass, hinterfaces⟩ := Stub.supertypes_completed
    (Stub.shared (signatureGroups marker vs))
  rw [hsuperclass, hinterfaces, Merge.absorb_of_empty _ _ rfl]
  exact ⟨Option.or_none, rfl⟩

theorem signatures_members_contract (marker : Marker) (naming : Naming) (vs : List VersionDecl) :
    Member.signatures marker (contract marker naming vs).members =
      (Stub.shared (signatureGroups marker vs)).map Prod.fst :=
  (signatures_contract marker naming vs).trans (Stub.map_fst_shared marker vs).symm

/-- What a version lacks of the contract, read off the contract itself. -/
theorem refusals_contract (marker : Marker) (naming : Naming) (vs : List VersionDecl) (n : UInt32)
    (own : List Signature) :
    (((contract marker naming vs).methods.filter fun m => m.signature marker ∉ own).map
      fun m => Member.method (Stub.unsupported m n)) =
    ((Stub.shared (signatureGroups marker vs)).filter fun e => e.1 ∉ own).map
      fun e => Member.method (Stub.unsupported e.2 n) := by
  rw [methods_contract, List.filter_map, List.map_map]
  have hsame : ∀ e ∈ Stub.shared (signatureGroups marker vs),
      (Stub.bare e.2).signature marker = e.1 := fun e he =>
    (Stub.signature_bare marker e.2).trans (Stub.signature_of_mem_shared he)
  have hfilter : (Stub.shared (signatureGroups marker vs)).filter
      ((fun m => decide (m.signature marker ∉ own)) ∘ fun e => Stub.bare e.2) =
        (Stub.shared (signatureGroups marker vs)).filter fun e => e.1 ∉ own := by
    refine List.filter_congr fun e he => ?_
    simp only [Function.comp_apply, hsame e he]
  rw [hfilter]
  refine List.map_congr_left fun e _ => ?_
  exact congrArg Member.method (Stub.unsupported_bare e.2 n)

end Group

end VersionWeave
