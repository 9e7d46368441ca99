import VersionWeave.Proofs.Version
import VersionWeave.Unified.Group

namespace VersionWeave

namespace Group

variable {marker : Marker} {base : String}

/-- A declaration as a version of a base name, if it is one. -/
def version? (marker : Marker) (base : String) (t : TypeDecl) : Option VersionDecl :=
  if (marker.parse t.name).base = base then
    (marker.parse t.name).version.ordinal?.map fun n => { ordinal := n, decl := t }
  else none

theorem version?_eq_some {t : TypeDecl} {v : VersionDecl} :
    version? marker base t = some v ↔
      marker.parse t.name = ⟨base, .numbered v.ordinal⟩ ∧ v.decl = t := by
  obtain ⟨n, decl⟩ := v
  unfold version?
  generalize marker.parse t.name = parsed
  obtain ⟨b, version⟩ := parsed
  by_cases hb : b = base
  · cases version <;> simp [hb, Version.ordinal?, and_comm, eq_comm]
  · simp [hb]

/-- One declaration is passed over, added as a version, or refused. -/
theorem addVersion_eq_ok {found all : List VersionDecl} {t : TypeDecl}
    (h : addVersion marker base found t = .ok all) :
    all = found ++ (version? marker base t).toList ∧
      ((found.map VersionDecl.ordinal).Nodup → (all.map VersionDecl.ordinal).Nodup) := by
  unfold addVersion at h
  unfold version?
  by_cases hb : (marker.parse t.name).base = base
  · simp only [hb, ne_eq, not_true_eq_false, if_false, if_true] at h ⊢
    split at h
    next => simp at h
    next n hv =>
      split at h
      next => simp at h
      next hnew =>
        cases h
        refine ⟨by simp [hv, Version.ordinal?], fun hnodup => ?_⟩
        rw [List.map_append, List.nodup_append]
        refine ⟨hnodup, by simp, ?_⟩
        rintro a ha b hb rfl
        obtain ⟨v, hv, rfl⟩ := List.mem_map.mp ha
        simp only [List.map_cons, List.map_nil, List.mem_singleton] at hb
        exact hnew (List.any_eq_true.mpr ⟨v, hv, by simp [hb]⟩)
  · simp only [hb, ne_eq, not_false_eq_true, if_true] at h
    cases h
    simp [hb]

theorem addVersions_eq_ok {ts : List TypeDecl} :
    ∀ {found all : List VersionDecl}, ts.foldlM (addVersion marker base) found = .ok all →
      all = found ++ ts.filterMap (version? marker base) ∧
        ((found.map VersionDecl.ordinal).Nodup → (all.map VersionDecl.ordinal).Nodup) := by
  induction ts with
  | nil =>
    intro found all h
    cases h
    simp
  | cons t rest ih =>
    intro found all h
    rw [List.foldlM_cons] at h
    cases ht : addVersion marker base found t with
    | error e => rw [ht] at h; cases h
    | ok next =>
      rw [ht] at h
      obtain ⟨hnext, hnodup⟩ := addVersion_eq_ok ht
      obtain ⟨hall, hnodup'⟩ := ih h
      refine ⟨?_, hnodup' ∘ hnodup⟩
      rw [hall, hnext, List.append_assoc, List.filterMap_cons]
      cases version? marker base t <;> rfl

theorem insertVersion_perm (v : VersionDecl) (vs : List VersionDecl) :
    (insertVersion v vs).Perm (v :: vs) := by
  induction vs with
  | nil => exact List.Perm.refl _
  | cons w rest ih =>
    unfold insertVersion
    split
    next => exact List.Perm.refl _
    next => exact (ih.cons w).trans (List.Perm.swap v w rest)

theorem sortVersions_perm (vs : List VersionDecl) : (sortVersions vs).Perm vs := by
  have hall : ∀ vs sorted : List VersionDecl,
      (vs.foldl (fun sorted v => insertVersion v sorted) sorted).Perm (vs ++ sorted) := by
    intro vs
    induction vs with
    | nil => exact fun _ => List.Perm.refl _
    | cons v rest ih =>
      intro sorted
      exact (ih _).trans (((insertVersion_perm v sorted).append_left rest).trans
        List.perm_middle)
  simpa [sortVersions] using hall vs []

theorem insertVersion_sorted {v : VersionDecl} {vs : List VersionDecl}
    (hvs : vs.Pairwise fun a b => a.ordinal < b.ordinal) (hv : v.ordinal ∉ vs.map VersionDecl.ordinal) :
    (insertVersion v vs).Pairwise fun a b => a.ordinal < b.ordinal := by
  induction vs with
  | nil => exact List.pairwise_singleton _ v
  | cons w rest ih =>
    obtain ⟨hw, hrest⟩ := List.pairwise_cons.mp hvs
    rw [List.map_cons, List.mem_cons, not_or] at hv
    unfold insertVersion
    split
    next hlt =>
      refine List.pairwise_cons.mpr ⟨List.forall_mem_cons.mpr ⟨hlt, fun x hx => ?_⟩, hvs⟩
      exact UInt32.lt_trans hlt (hw x hx)
    next hlt =>
      have hwv : w.ordinal < v.ordinal :=
        UInt32.lt_of_le_of_ne (UInt32.not_lt.mp hlt) (Ne.symm hv.1)
      refine List.pairwise_cons.mpr ⟨fun x hx => ?_, ih hrest hv.2⟩
      rcases List.mem_cons.mp ((insertVersion_perm v rest).mem_iff.mp hx) with rfl | hx
      · exact hwv
      · exact hw x hx

/-- With each ordinal once the versions come out by ascending ordinal. -/
theorem sortVersions_sorted {vs : List VersionDecl} (h : (vs.map VersionDecl.ordinal).Nodup) :
    (sortVersions vs).Pairwise fun a b => a.ordinal < b.ordinal := by
  have hall : ∀ vs sorted : List VersionDecl, sorted.Pairwise (fun a b => a.ordinal < b.ordinal) →
      ((vs ++ sorted).map VersionDecl.ordinal).Nodup →
        (vs.foldl (fun sorted v => insertVersion v sorted) sorted).Pairwise
          fun a b => a.ordinal < b.ordinal := by
    intro vs
    induction vs with
    | nil => exact fun _ hsorted _ => hsorted
    | cons v rest ih =>
      intro sorted hsorted hnodup
      obtain ⟨hv, hrest⟩ := List.nodup_cons.mp hnodup
      have hperm := ((insertVersion_perm v sorted).append_left rest).trans List.perm_middle
      refine ih _ (insertVersion_sorted hsorted fun hmem => hv ?_)
        ((hperm.map VersionDecl.ordinal).nodup_iff.mpr hnodup)
      exact (List.map_subset _ (List.subset_append_right rest sorted)) hmem
  exact hall vs [] List.Pairwise.nil (by simpa using h)

/-- The order in which versions are found does not matter to their order by ordinal. -/
theorem sortVersions_eq_of_perm {vs vs' : List VersionDecl} (hperm : vs.Perm vs')
    (h : (vs.map VersionDecl.ordinal).Nodup) : sortVersions vs = sortVersions vs' := by
  have h' := (hperm.map VersionDecl.ordinal).nodup_iff.mp h
  refine List.Perm.eq_of_pairwise (fun a b _ _ hab hba => ?_) (sortVersions_sorted h)
    (sortVersions_sorted h') ((sortVersions_perm vs).trans (hperm.trans (sortVersions_perm vs').symm))
  exact absurd (UInt32.lt_trans hab hba) (UInt32.lt_irrefl _)

/-- Versions are taken in the order of the types, and sorted once no ordinal has come twice. -/
theorem versions_eq_sorted {g : Group} {vs : List VersionDecl} (h : g.versions marker = .ok vs) :
    vs = sortVersions (g.types.filterMap (version? marker g.baseName)) ∧
      ((g.types.filterMap (version? marker g.baseName)).map VersionDecl.ordinal).Nodup := by
  unfold versions at h
  cases hf : g.types.foldlM (addVersion marker g.baseName) [] with
  | error e => rw [hf] at h; cases h
  | ok found =>
    rw [hf] at h
    obtain ⟨hfound, hnodup⟩ := addVersions_eq_ok hf
    rw [List.nil_append] at hfound
    change (if found.isEmpty then _ else _) = _ at h
    split at h
    next => cases h
    next =>
      cases h
      exact hfound ▸ ⟨rfl, hnodup List.nodup_nil⟩

/-- The versions of a group are the declarations of its base name, each ordinal once. -/
theorem versions_eq_ok {g : Group} {vs : List VersionDecl} (h : g.versions marker = .ok vs) :
    vs.Perm (g.types.filterMap (version? marker g.baseName)) ∧
      (vs.map VersionDecl.ordinal).Nodup := by
  obtain ⟨rfl, hnodup⟩ := versions_eq_sorted h
  have hperm := sortVersions_perm (g.types.filterMap (version? marker g.baseName))
  exact ⟨hperm, (hperm.map VersionDecl.ordinal).nodup_iff.mpr hnodup⟩

theorem mem_versions {g : Group} {vs : List VersionDecl} (h : g.versions marker = .ok vs)
    {v : VersionDecl} : v ∈ vs ↔
      v.decl ∈ g.types ∧ marker.parse v.decl.name = ⟨g.baseName, .numbered v.ordinal⟩ := by
  rw [(versions_eq_ok h).1.mem_iff, List.mem_filterMap]
  constructor
  · rintro ⟨t, ht, hv⟩
    obtain ⟨hparse, rfl⟩ := version?_eq_some.mp hv
    exact ⟨ht, hparse⟩
  · exact fun ⟨ht, hparse⟩ => ⟨v.decl, ht, version?_eq_some.mpr ⟨hparse, rfl⟩⟩

theorem versions_sorted {g : Group} {vs : List VersionDecl} (h : g.versions marker = .ok vs) :
    vs.Pairwise fun a b => a.ordinal < b.ordinal := by
  obtain ⟨rfl, hnodup⟩ := versions_eq_sorted h
  exact sortVersions_sorted hnodup

/-- What some types declare of a base name: a version for each, ordinal or not. -/
def versionsUnder (marker : Marker) (base : String) (ts : List TypeDecl) : List Version :=
  (ts.filter fun t => marker.baseName t.name = base).map fun t => (marker.parse t.name).version

theorem versionsUnder_cons (t : TypeDecl) (rest : List TypeDecl) :
    versionsUnder marker base (t :: rest) =
      if (marker.parse t.name).base = base then
        (marker.parse t.name).version :: versionsUnder marker base rest
      else versionsUnder marker base rest := by
  by_cases hb : (marker.parse t.name).base = base <;>
    simp [versionsUnder, Marker.baseName, hb]

theorem versionsUnder_of_numbered {ts : List TypeDecl}
    (h : .normal ∉ versionsUnder marker base ts) : versionsUnder marker base ts =
      (ts.filterMap (version? marker base)).map fun v => .numbered v.ordinal := by
  induction ts with
  | nil => rfl
  | cons t rest ih =>
    rw [versionsUnder_cons] at h ⊢
    by_cases hb : (marker.parse t.name).base = base
    · rw [if_pos hb, List.mem_cons, not_or] at h
      rw [if_pos hb, ih h.2, List.filterMap_cons, version?, if_pos hb]
      cases hv : (marker.parse t.name).version with
      | normal => exact absurd hv.symm h.1
      | numbered n => rfl
    · rw [if_neg hb] at h
      rw [if_neg hb, ih h, List.filterMap_cons, version?, if_neg hb]

/-- Types are refused for one without ordinal or for an ordinal that comes twice, nothing else. -/
theorem addVersions_isOk_iff {ts : List TypeDecl} : ∀ {found : List VersionDecl},
    (found.map fun v => Version.numbered v.ordinal).Nodup →
      ((∃ all, ts.foldlM (addVersion marker base) found = .ok all) ↔
        .normal ∉ versionsUnder marker base ts ∧
          (found.map (fun v => Version.numbered v.ordinal) ++
            versionsUnder marker base ts).Nodup) := by
  induction ts with
  | nil =>
    intro found h
    exact iff_of_true ⟨found, rfl⟩ ⟨by simp [versionsUnder], by simpa [versionsUnder] using h⟩
  | cons t rest ih =>
    intro found h
    rw [List.foldlM_cons, versionsUnder_cons, addVersion]
    by_cases hb : (marker.parse t.name).base = base
    · rw [if_neg (not_not_intro hb), if_pos hb]
      cases hv : (marker.parse t.name).version with
      | normal => exact iff_of_false (fun ⟨_, h⟩ => by cases h) fun h => h.1 List.mem_cons_self
      | numbered n =>
        dsimp only
        have htaken : (found.any fun v => v.ordinal == n) = true ↔
            Version.numbered n ∈ found.map fun v => Version.numbered v.ordinal := by
          simp only [List.any_eq_true, List.mem_map, beq_iff_eq, Version.numbered.injEq]
        by_cases hn : Version.numbered n ∈ found.map fun v => Version.numbered v.ordinal
        · rw [if_pos (htaken.mpr hn)]
          refine iff_of_false (fun ⟨_, h⟩ => by cases h) fun h => ?_
          exact (List.nodup_append.mp h.2).2.2 _ hn _ List.mem_cons_self rfl
        · rw [if_neg (mt htaken.mp hn)]
          refine (ih ?_).trans (by simp)
          rw [List.map_append, List.nodup_append]
          refine ⟨h, by simp, fun a ha b hb he => hn ?_⟩
          have ha' : a = .numbered n := he.trans (List.mem_singleton.mp hb)
          exact ha' ▸ ha
    · rw [if_pos hb, if_neg hb]
      exact ih h

theorem addVersions_eq_error {ts : List TypeDecl} {e : SynthesisError} :
    ∀ {found : List VersionDecl}, ts.foldlM (addVersion marker base) found = .error e →
      (∃ name, e = .unnumbered base name) ∨ ∃ n, e = .duplicate base n := by
  induction ts with
  | nil => intro found h; cases h
  | cons t rest ih =>
    intro found h
    rw [List.foldlM_cons] at h
    cases ht : addVersion marker base found t with
    | ok next => rw [ht] at h; exact ih h
    | error e' =>
      rw [ht] at h
      cases h
      unfold addVersion at ht
      dsimp only at ht
      split at ht
      next => cases ht
      next =>
        split at ht
        next => cases ht; exact .inl ⟨_, rfl⟩
        next =>
          split at ht
          next => cases ht; exact .inr ⟨_, rfl⟩
          next => cases ht

theorem versions_eq_error {g : Group} {e : SynthesisError} (h : g.versions marker = .error e) :
    (∃ name, e = .unnumbered g.baseName name) ∨ ∃ n, e = .duplicate g.baseName n := by
  unfold versions at h
  cases hf : g.types.foldlM (addVersion marker g.baseName) [] with
  | error e' => rw [hf] at h; cases h; exact addVersions_eq_error hf
  | ok found =>
    rw [hf] at h
    change (if found.isEmpty then _ else _) = _ at h
    split at h
    next => cases h; exact .inl ⟨_, rfl⟩
    next => cases h

theorem versions_baseName {g : Group} {e : SynthesisError} (h : g.versions marker = .error e) :
    e.baseName = g.baseName := by
  obtain ⟨name, rfl⟩ | ⟨n, rfl⟩ := versions_eq_error h <;> rfl

/-- A group has its versions when it declares some, all numbered, no number twice. -/
theorem versions_isOk_iff {g : Group} : (∃ vs, g.versions marker = .ok vs) ↔
    versionsUnder marker g.baseName g.types ≠ [] ∧
      .normal ∉ versionsUnder marker g.baseName g.types ∧
      (versionsUnder marker g.baseName g.types).Nodup := by
  have hfold : (∃ found, g.types.foldlM (addVersion marker g.baseName) [] = .ok found) ↔ _ :=
    addVersions_isOk_iff List.nodup_nil
  rw [List.map_nil, List.nil_append] at hfold
  rw [← hfold, versions]
  cases hf : g.types.foldlM (addVersion marker g.baseName) [] with
  | error e => exact iff_of_false (fun ⟨_, h⟩ => by cases h) fun ⟨_, _, h⟩ => by cases h
  | ok found =>
    have hnames := versionsUnder_of_numbered (hfold.mp ⟨found, hf⟩).1
    rw [← List.nil_append (List.filterMap _ _), ← (addVersions_eq_ok hf).1] at hnames
    rw [hnames]
    dsimp only [bind, Except.bind]
    cases found with
    | nil => exact iff_of_false (fun ⟨_, h⟩ => by cases h) fun h => h.1 rfl
    | cons v rest => exact iff_of_true ⟨_, rfl⟩ ⟨by simp, _, rfl⟩

/-- Where no name comes twice, the only thing to refuse is a declaration without ordinal. -/
theorem addVersions_of_nodup {ts : List TypeDecl}
    (hnodup : (ts.map fun t => marker.parse t.name).Nodup) : ∀ {found : List VersionDecl},
    (∀ t ∈ ts, ∀ v ∈ found, marker.parse t.name ≠ ⟨base, .numbered v.ordinal⟩) →
      ts.foldlM (addVersion marker base) found =
        if ts.any fun t => marker.parse t.name = ⟨base, .normal⟩ then .error (.unnumbered base base)
        else .ok (found ++ ts.filterMap (version? marker base)) := by
  induction ts with
  | nil => intro found _; simp; rfl
  | cons t rest ih =>
    intro found hfound
    obtain ⟨ht, hrest⟩ := List.nodup_cons.mp hnodup
    obtain ⟨hfresh, hfound⟩ := List.forall_mem_cons.mp hfound
    rw [List.foldlM_cons, List.any_cons, List.filterMap_cons]
    by_cases hb : (marker.parse t.name).base = base
    · cases hv : (marker.parse t.name).version with
      | normal =>
        have hparse : marker.parse t.name = ⟨base, .normal⟩ := by rw [← hb, ← hv]
        have hname : t.name = base := (Marker.base_of_normal hv).symm.trans hb
        have hstep : addVersion marker base found t = .error (.unnumbered base base) := by
          simp only [addVersion, hparse, ne_eq, not_true_eq_false, if_false]
          rw [hname]
        rw [hstep, hparse, decide_eq_true rfl, Bool.true_or, if_pos rfl]
        rfl
      | numbered n =>
        have hparse : marker.parse t.name = ⟨base, .numbered n⟩ := by rw [← hb, ← hv]
        have hnew : (found.any fun v => v.ordinal == n) = false := by
          rw [List.any_eq_false]
          intro v hvf hn
          exact hfresh v hvf (by rw [hparse, beq_iff_eq.mp hn])
        have hstep : addVersion marker base found t =
            .ok (found ++ [{ ordinal := n, decl := t }]) := by
          simp only [addVersion, hparse, ne_eq, not_true_eq_false, if_false, hnew, Bool.false_eq_true]
        have hversion : version? marker base t = some { ordinal := n, decl := t } :=
          version?_eq_some.mpr ⟨hparse, rfl⟩
        have hfound' : ∀ s ∈ rest, ∀ v ∈ found ++ [{ ordinal := n, decl := t }],
            marker.parse s.name ≠ ⟨base, .numbered v.ordinal⟩ := by
          refine fun s hs => List.forall_mem_append.mpr ⟨hfound s hs, ?_⟩
          rw [List.forall_mem_singleton]
          exact fun hsame => ht (List.mem_map.mpr ⟨s, hs, hsame.trans hparse.symm⟩)
        rw [hstep, hversion, hparse]
        refine (ih hrest hfound').trans ?_
        simp
    · have hother : marker.parse t.name ≠ ⟨base, .normal⟩ := fun h => hb (by rw [h])
      have hstep : addVersion marker base found t = .ok found := by
        simp only [addVersion, hb, ne_eq, not_false_eq_true, if_true]
      have hversion : version? marker base t = none := by simp [version?, hb]
      rw [hstep, hversion, decide_eq_false hother, Bool.false_or]
      exact ih hrest hfound

theorem nodup_ordinals {ts : List TypeDecl} (hnodup : (ts.map fun t => marker.parse t.name).Nodup) :
    ((ts.filterMap (version? marker base)).map VersionDecl.ordinal).Nodup := by
  refine List.pairwise_map.mpr (List.Pairwise.filterMap _ (fun s t hne v hv w hw hsame => ?_)
    (List.pairwise_map.mp hnodup))
  exact hne ((version?_eq_some.mp hv).1.trans (hsame ▸ (version?_eq_some.mp hw).1.symm))

/-- Groups of one base name with the same declarations have the same versions, or fail alike. -/
theorem versions_eq_of_perm {g g' : Group} (hbase : g.baseName = g'.baseName)
    (hperm : g.types.Perm g'.types) (hnodup : (g.types.map fun t => marker.parse t.name).Nodup) :
    g.versions marker = g'.versions marker := by
  have hnodup' := (hperm.map fun t => marker.parse t.name).nodup_iff.mp hnodup
  have hfound := hperm.filterMap (version? marker g.baseName)
  have hsorted := sortVersions_eq_of_perm hfound (nodup_ordinals hnodup)
  have hany : (g.types.any fun t => marker.parse t.name = ⟨g.baseName, .normal⟩) =
      g'.types.any fun t => marker.parse t.name = ⟨g.baseName, .normal⟩ := hperm.any_eq
  have hempty : (g.types.filterMap (version? marker g.baseName)).isEmpty =
      (g'.types.filterMap (version? marker g.baseName)).isEmpty := by
    rw [Bool.eq_iff_iff, List.isEmpty_iff_length_eq_zero, List.isEmpty_iff_length_eq_zero,
      hfound.length_eq]
  unfold versions
  rw [← hbase, addVersions_of_nodup hnodup (by simp), addVersions_of_nodup hnodup' (by simp), hany]
  split
  next => rfl
  next =>
    simp only [List.nil_append, bind, Except.bind, hempty, hsorted]

/-- Where the versions of a group are known, they are what it has once they stand in order. -/
theorem versions_of_perm {g : Group} {vs : List VersionDecl} (hne : vs ≠ [])
    (hsorted : vs.Pairwise fun a b => a.ordinal < b.ordinal)
    (hparse : ∀ v ∈ vs, marker.parse v.decl.name = ⟨g.baseName, .numbered v.ordinal⟩)
    (hperm : (vs.map VersionDecl.decl).Perm g.types) : g.versions marker = .ok vs := by
  have hnames : (g.types.map fun t => marker.parse t.name).Nodup := by
    rw [← (hperm.map fun t => marker.parse t.name).nodup_iff, List.map_map]
    refine List.pairwise_map.mpr (hsorted.imp_of_mem fun {v w} hv hw hlt hsame => ?_)
    rw [Function.comp_apply, hparse v hv, Function.comp_apply, hparse w hw] at hsame
    exact UInt32.ne_of_lt hlt (Version.numbered.inj (VersionedName.mk.inj hsame).2)
  have hnormal : (g.types.any fun t => marker.parse t.name = ⟨g.baseName, .normal⟩) = false := by
    rw [← hperm.any_eq, List.any_map, List.any_eq_false]
    intro v hv
    simp [hparse v hv]
  have hfound : vs.Perm (g.types.filterMap (version? marker g.baseName)) := by
    have hown : ∀ ws ⊆ vs, (ws.map VersionDecl.decl).filterMap (version? marker g.baseName) = ws := by
      intro ws hws
      induction ws with
      | nil => rfl
      | cons v rest ih =>
        obtain ⟨hv, hrest⟩ := List.cons_subset.mp hws
        rw [List.map_cons, List.filterMap_cons_some (version?_eq_some.mpr ⟨hparse v hv, rfl⟩), ih hrest]
    have hall := hperm.filterMap (version? marker g.baseName)
    rwa [hown vs fun _ => id] at hall
  have hsort : sortVersions (g.types.filterMap (version? marker g.baseName)) = vs := by
    have hnodup : ((g.types.filterMap (version? marker g.baseName)).map VersionDecl.ordinal).Nodup :=
      nodup_ordinals hnames
    refine List.Perm.eq_of_pairwise (fun a b _ _ hab hba => ?_) (sortVersions_sorted hnodup) hsorted
      ((sortVersions_perm _).trans hfound.symm)
    exact absurd (UInt32.lt_trans hab hba) (UInt32.lt_irrefl _)
  have hsome : (g.types.filterMap (version? marker g.baseName)).isEmpty = false :=
    Bool.eq_false_iff.mpr fun h => hne (List.isEmpty_iff.mp h ▸ hfound).eq_nil
  rw [versions, addVersions_of_nodup hnames (by simp), hnormal]
  simp [bind, Except.bind, hsome, hsort]

end Group

end VersionWeave
