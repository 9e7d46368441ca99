import VersionWeave.Proofs.Unified.Nested
import VersionWeave.Unified.Merge
import VersionWeave.Unified.Skeleton
import VersionWeave.Unified.Stub

namespace VersionWeave

namespace Skeleton

variable (naming : Naming) (ordinals : List UInt32)

theorem methods_members :
    (members naming ordinals).filterMap Member.method? = [switchMethod naming ordinals] := by
  have hnone : ordinals.filterMap (fun _ => (none : Option MethodDecl)) = [] := by simp
  simp [members, List.filterMap_map, Function.comp_def, Member.method?, List.filterMap_cons, hnone]

theorem fields_members : (members naming ordinals).filterMap Member.field? =
    ordinals.map (instanceField naming) ++ [activeField naming] := by
  simp [members, List.filterMap_map, Function.comp_def, Member.field?, List.filterMap_cons]

theorem constructors_members : (members naming ordinals).filterMap Member.constructor? = [] := by
  have hnone : ordinals.filterMap (fun _ => (none : Option ConstructorDecl)) = [] := by simp
  simp [members, List.filterMap_map, Function.comp_def, Member.constructor?, List.filterMap_cons,
    hnone]

theorem findSome?_members {n : UInt32} (h : n ∈ ordinals) :
    (members naming ordinals).findSome? (Member.type? (naming.implType n) .classType) =
      some (implementation naming n) := by
  have himpls : (ordinals.map fun k => Member.type (implementation naming k)).findSome?
      (Member.type? (naming.implType n) .classType) = some (implementation naming n) := by
    induction ordinals with
    | nil => simp at h
    | cons k rest ih =>
      by_cases hk : k = n
      · simp [hk, Member.type?, implementation]
      · have hne : naming.implType k ≠ naming.implType n := fun h => hk (Naming.implType_inj.mp h)
        simp [Member.type?, implementation, hne] at ih ⊢
        exact ih ((List.mem_cons.mp h).resolve_left (Ne.symm hk))
  simp [members, List.findSome?_append, himpls, Member.type?, contract]

theorem findSome?_members_eq_none {n : UInt32} (h : n ∉ ordinals) :
    (members naming ordinals).findSome? (Member.type? (naming.implType n) .classType) = none := by
  rw [List.findSome?_eq_none_iff]
  intro m hm
  simp only [members, List.mem_append, List.mem_cons, List.mem_map, List.not_mem_nil,
    or_false] at hm
  obtain ((rfl | ⟨k, hk, rfl⟩) | ⟨k, -, rfl⟩) | rfl | rfl := hm
  · simp [Member.type?, contract]
  · have hne : naming.implType k ≠ naming.implType n :=
      fun hsame => h (Naming.implType_inj.mp hsame ▸ hk)
    simp [Member.type?, implementation, hne]
  all_goals rfl

end Skeleton

namespace Merge

variable (name : String) (version target : TypeDecl)

theorem header_absorb : (absorb name version target).name = target.name ∧
    (absorb name version target).kind = target.kind := by
  unfold absorb
  dsimp only
  split <;> exact ⟨rfl, rfl⟩

/-- An implementation type has all members of its version; only constructors change their names. -/
theorem filterMap_absorb {β : Type} {proj : Member → Option β}
    (hproj : ∀ c, proj (.constructor c) = none) :
    (absorb name version target).members.filterMap proj =
      target.members.filterMap proj ++ version.members.filterMap proj := by
  have hrename : (version.members.map (rename name)).filterMap proj =
      version.members.filterMap proj := by
    rw [List.filterMap_map]
    congr 1
    funext m
    cases m with
    | constructor c => exact (hproj _).trans (hproj c).symm
    | _ => rfl
  unfold absorb
  dsimp only
  split
  next => simp [hrename]
  next => simp [TypeDecl.append, hrename, hproj]

theorem methods_absorb :
    (absorb name version target).methods = target.methods ++ version.methods :=
  filterMap_absorb name version target fun _ => rfl

theorem fields_absorb : (absorb name version target).fields = target.fields ++ version.fields :=
  filterMap_absorb name version target fun _ => rfl

end Merge

namespace TypeDecl

variable {naming : Naming} {base : String}

theorem mergeVersions_cons {v : VersionDecl} {rest : List VersionDecl} {outer result : TypeDecl}
    (h : mergeVersions naming base (v :: rest) outer = .ok result) :
    ∃ next, outer.updateNested? (naming.implType v.ordinal) .classType
        (Merge.absorb (naming.implType v.ordinal) v.decl) = some next ∧
      mergeVersions naming base rest next = .ok result := by
  unfold mergeVersions at h
  dsimp only at h
  split at h
  next => cases h
  next next hnext => exact ⟨next, hnext, h⟩

theorem reworked_mergeVersions {vs : List VersionDecl} : ∀ {outer result : TypeDecl},
    mergeVersions naming base vs outer = .ok result → outer.Reworked result := by
  induction vs with
  | nil => intro outer result h; cases h; exact .refl outer
  | cons v rest ih =>
    intro outer result h
    obtain ⟨next, hnext, h⟩ := mergeVersions_cons h
    exact .step hnext (fun t => (Merge.header_absorb _ v.decl t).1)
      (fun t => (Merge.header_absorb _ v.decl t).2) (ih h)

end TypeDecl

namespace Stub

variable {marker : Marker} {naming : Naming} {base : String} {signature : Signature}
  {template : MethodDecl}

/-- One method of the signature is exposed in its place. -/
theorem exposeFirst?_eq_some {ms : List Member} : ∀ {ms' : List Member},
    exposeFirst? marker signature ms = some ms' → ∃ before m after,
      ms = before ++ .method m :: after ∧ m.signature marker = signature ∧
        ms' = before ++ .method (expose m) :: after := by
  induction ms with
  | nil => intro ms' h; cases h
  | cons m rest ih =>
    intro ms' h
    have hlater : ∀ {rest'}, exposeFirst? marker signature rest = some rest' → ∃ before d after,
        m :: rest = before ++ .method d :: after ∧ d.signature marker = signature ∧
          m :: rest' = before ++ .method (expose d) :: after := by
      intro rest' hrest
      obtain ⟨before, d, after, rfl, hd, rfl⟩ := ih hrest
      exact ⟨m :: before, d, after, rfl, hd, rfl⟩
    cases m with
    | method d =>
      unfold exposeFirst? at h
      split at h
      next hd => cases Option.some.inj h; exact ⟨[], d, rest, rfl, hd, rfl⟩
      next =>
        obtain ⟨rest', hrest, rfl⟩ := Option.map_eq_some_iff.mp h
        exact hlater hrest
    | _ =>
      obtain ⟨rest', hrest, rfl⟩ := Option.map_eq_some_iff.mp h
      exact hlater hrest

theorem header_complete (ordinal : UInt32) (impl : TypeDecl) :
    (complete marker signature template ordinal impl).name = impl.name ∧
      (complete marker signature template ordinal impl).kind = impl.kind ∧
      (complete marker signature template ordinal impl).fields = impl.fields := by
  unfold complete
  split
  next members h =>
    obtain ⟨before, m, after, hmembers, -, rfl⟩ := exposeFirst?_eq_some h
    refine ⟨rfl, rfl, ?_⟩
    rw [TypeDecl.fields, TypeDecl.fields, hmembers]
    simp [List.filterMap_cons, Member.field?]
  next =>
    refine ⟨rfl, rfl, ?_⟩
    simp [Member.field?, List.filterMap_cons]

theorem reworked_completeAll {vs : List VersionDecl} : ∀ {outer result : TypeDecl},
    completeAll marker naming base signature template vs outer = .ok result →
      outer.Reworked result := by
  induction vs with
  | nil => intro outer result h; cases h; exact .refl outer
  | cons v rest ih =>
    intro outer result h
    unfold completeAll at h
    dsimp only at h
    split at h
    next => cases h
    next next hnext =>
      exact .step hnext (fun t => (header_complete v.ordinal t).1)
        (fun t => (header_complete v.ordinal t).2.1) (ih h)

theorem reworked_share {vs : List VersionDecl} {outer result : TypeDecl}
    (h : share marker naming base vs signature template outer = .ok result) :
    outer.Reworked result := by
  unfold share at h
  cases hx : extendContract naming base template outer with
  | error e => rw [hx] at h; cases h
  | ok next =>
    rw [hx] at h
    unfold extendContract at hx
    split at hx
    next => cases hx
    next next' hnext =>
      cases hx
      exact .step hnext (fun _ => rfl) (fun _ => rfl) (reworked_completeAll h)

/-- The stub that stands for the declarations of one signature, unless all are private. -/
def ofGroup? (naming : Naming) : List (UInt32 × MethodDecl) → Option MethodDecl
  | [] => none
  | (ordinal, first) :: others =>
    if surfaced ((ordinal, first) :: others) then
      some (forwarding first (receiver naming ((ordinal, first) :: others)))
    else none

/-- One signature: what its group shares goes into the nested types, its stub to the others. -/
theorem addAll_cons (vs : List VersionDecl) (signature : Signature)
    (group : List (UInt32 × MethodDecl)) (rest : List (Signature × List (UInt32 × MethodDecl)))
    (stubs : List Member) (outer : TypeDecl) :
    (∃ next : TypeDecl,
      (next = outer ∨ ∃ d ∈ group, share marker naming base vs signature d.2 outer = .ok next) ∧
      addAll marker naming base vs ((signature, group) :: rest) stubs outer =
        addAll marker naming base vs rest (stubs ++ (ofGroup? naming group).toList.map .method) next) ∨
    ∃ e : StageFailure,
      addAll marker naming base vs ((signature, group) :: rest) stubs outer = .error e := by
  cases group with
  | nil =>
    refine .inl ⟨outer, .inl rfl, ?_⟩
    rw [ofGroup?, Option.toList_none, List.map_nil, List.append_nil]
    rfl
  | cons d others =>
    obtain ⟨ordinal, first⟩ := d
    rw [addAll.eq_def, ofGroup?]
    dsimp only
    cases hs : surfaced ((ordinal, first) :: others) with
    | false => exact .inl ⟨outer, .inl rfl, by simp⟩
    | true =>
      dsimp only
      by_cases hone : others.isEmpty
      · exact .inl ⟨outer, .inl rfl, by rw [if_pos hone]; rfl⟩
      · rw [if_neg hone]
        cases hshare : share marker naming base vs signature first outer with
        | ok next => exact .inl ⟨next, .inr ⟨_, List.mem_cons_self, hshare⟩, rfl⟩
        | error e => exact .inr ⟨e, rfl⟩

theorem addAll_eq_ok {vs : List VersionDecl} {groups : List (Signature × List (UInt32 × MethodDecl))} :
    ∀ {stubs : List Member} {outer result : TypeDecl},
      addAll marker naming base vs groups stubs outer = .ok result →
        ∃ next : TypeDecl, outer.Reworked next ∧
          result = next.append (stubs ++ (groups.filterMap fun g => ofGroup? naming g.2).map .method) := by
  induction groups with
  | nil =>
    intro stubs outer result h
    cases h
    exact ⟨outer, .refl outer, by simp⟩
  | cons g rest ih =>
    intro stubs outer result h
    rcases addAll_cons vs g.1 g.2 rest stubs outer with ⟨next, hnext, hstep⟩ | ⟨e, hstep⟩
    · obtain ⟨last, hlast, rfl⟩ := ih (hstep.symm.trans h)
      have hreworked : outer.Reworked next := by
        rcases hnext with rfl | ⟨d, -, hshare⟩
        · exact .refl next
        · exact reworked_share hshare
      refine ⟨last, hreworked.trans hlast, ?_⟩
      rw [List.append_assoc, List.filterMap_cons]
      cases ofGroup? naming g.2 <;> rfl
    · cases hstep.symm.trans h

end Stub

end VersionWeave
