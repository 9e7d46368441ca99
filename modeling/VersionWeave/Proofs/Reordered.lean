import Mathlib.Data.List.Basic
import VersionWeave.Proofs.Symbols

namespace VersionWeave

/-- Two lists with the same items in the same order under each key. -/
def Reordered {α κ : Type} [DecidableEq κ] (key : α → κ) (l l' : List α) : Prop :=
  ∀ k, l.filter (fun a => key a = k) = l'.filter fun a => key a = k

namespace Reordered

variable {α β κ κ' : Type} [DecidableEq κ] [DecidableEq κ'] {key : α → κ} {l l' : List α}

/-- When no key comes twice every permutation is a reordering. -/
theorem of_perm (hperm : l.Perm l') (hnodup : (l.map key).Nodup) : Reordered key l l' := by
  intro k
  have hfilter := hperm.filter fun a => key a = k
  have hnodup' := hnodup.sublist ((List.filter_sublist (p := fun a => key a = k)).map key)
  cases hl : l.filter fun a => key a = k with
  | nil => rw [hl] at hfilter; exact hfilter.nil_eq
  | cons a rest =>
    rw [hl, List.map_cons] at hnodup'
    have hkeys : ∀ b ∈ a :: rest, key b = k := by
      intro b hb
      rw [← hl, List.mem_filter] at hb
      exact of_decide_eq_true hb.2
    have hrest : rest = [] := by
      refine List.eq_nil_iff_forall_not_mem.mpr fun b hb => (List.nodup_cons.mp hnodup').1 ?_
      rw [hkeys a List.mem_cons_self, ← hkeys b (List.mem_cons_of_mem _ hb)]
      exact List.mem_map.mpr ⟨b, hb, rfl⟩
    rw [hl, hrest] at hfilter
    rw [hrest, List.perm_singleton.mp hfilter.symm]

variable (h : Reordered key l l')
include h

theorem mem_iff {a : α} : a ∈ l ↔ a ∈ l' := by
  have hmem : a ∈ l.filter (fun b => key b = key a) ↔ a ∈ l'.filter fun b => key b = key a := by
    rw [h (key a)]
  simpa using hmem

theorem perm [DecidableEq α] : l.Perm l' := by
  refine List.perm_iff_count.mpr fun a => ?_
  rw [← List.count_filter (p := fun b => key b = key a) (by simp), h (key a),
    List.count_filter (by simp)]

theorem filter (p : α → Bool) : Reordered key (l.filter p) (l'.filter p) := by
  intro k
  rw [List.filter_comm, h k, List.filter_comm]

/-- Items of one key are found alike. -/
theorem find?_eq {p : α → Bool} {k : κ} (hp : ∀ a, p a = true → key a = k) :
    l.find? p = l'.find? p := by
  have hsame : ∀ l : List α, l.filter p = (l.filter fun a => key a = k).filter p := by
    intro l
    rw [List.filter_filter]
    refine List.filter_congr fun a _ => ?_
    cases hpa : p a with
    | false => rfl
    | true => simp [hp a hpa]
  rw [← List.head?_filter, ← List.head?_filter, hsame l, hsame l', h k]

/-- What is made of each item under its own key comes out reordered in the same way. -/
theorem flatMap {f : α → List β} {key' : β → κ'} (image : κ' → κ)
    (hf : ∀ a, ∀ b ∈ f a, ∀ k, key' b = k ↔ key a = image k) :
    Reordered key' (l.flatMap f) (l'.flatMap f) := by
  have hpart : ∀ (k : κ') (l : List α), (l.flatMap f).filter (fun b => key' b = k) =
      (l.filter fun a => key a = image k).flatMap f := by
    intro k l
    induction l with
    | nil => rfl
    | cons a rest ih =>
      rw [List.flatMap_cons, List.filter_append, ih, List.filter_cons]
      by_cases hk : key a = image k
      · have hall : (f a).filter (fun b => key' b = k) = f a :=
          List.filter_eq_self.mpr fun b hb => by simp [(hf a b hb k).mpr hk]
        simp [hk, hall]
      · have hnone : (f a).filter (fun b => key' b = k) = [] :=
          List.filter_eq_nil_iff.mpr fun b hb => by simp [hf a b hb k, hk]
        simp [hk, hnone]
  intro k
  rw [hpart, hpart, h (image k)]

end Reordered

/-- Two records of a class that list its declarations in another order. -/
structure ClassInfo.Alike (c c' : ClassInfo) : Prop where
  baseName : c.baseName = c'.baseName
  isVersioned : c.isVersioned = c'.isVersioned
  methods : ∀ name, Reordered MethodInfo.version (c.methodsNamed name) (c'.methodsNamed name)
  fields : ∀ name, Reordered FieldInfo.version (c.fieldsNamed name) (c'.fieldsNamed name)
  fieldNames : c.fields.keys.Perm c'.fields.keys

namespace ClassInfo

theorem leastOrdinal?_eq_none {l : List (UInt32 × FieldInfo)} (h : leastOrdinal? l = none) :
    l = [] := by
  cases l with
  | nil => rfl
  | cons e rest =>
    unfold leastOrdinal? at h
    split at h
    next => cases h
    next => split at h <;> cases h

/-- The entry that is taken has the least ordinal, and of those that share it it is the first. -/
theorem leastOrdinal?_eq_some {l : List (UInt32 × FieldInfo)} : ∀ {e : UInt32 × FieldInfo},
    leastOrdinal? l = some e →
      (l.filter fun x => x.1 = e.1).head? = some e ∧ ∀ x ∈ l, e.1 ≤ x.1 := by
  induction l with
  | nil => intro e h; cases h
  | cons a rest ih =>
    intro e h
    unfold leastOrdinal? at h
    cases hbest : leastOrdinal? rest with
    | none =>
      rw [hbest] at h
      cases Option.some.inj h
      simp [leastOrdinal?_eq_none hbest]
    | some best =>
      obtain ⟨hfirst, hleast⟩ := ih hbest
      rw [hbest] at h
      dsimp only at h
      by_cases hlt : best.1 < a.1
      · rw [if_pos hlt] at h
        rw [← Option.some.inj h]
        have hne : a.1 ≠ best.1 := fun he => UInt32.lt_irrefl _ (he ▸ hlt)
        refine ⟨by simp [hne, hfirst], List.forall_mem_cons.mpr ⟨UInt32.le_of_lt hlt, hleast⟩⟩
      · rw [if_neg hlt] at h
        cases Option.some.inj h
        refine ⟨by simp, List.forall_mem_cons.mpr ⟨UInt32.le_refl _, fun x hx => ?_⟩⟩
        exact UInt32.le_trans (UInt32.not_lt.mp hlt) (hleast x hx)

theorem leastOrdinal?_reordered {l l' : List (UInt32 × FieldInfo)}
    (h : Reordered Prod.fst l l') : leastOrdinal? l = leastOrdinal? l' := by
  cases hl : leastOrdinal? l with
  | none =>
    obtain rfl := leastOrdinal?_eq_none hl
    have hnil : l' = [] := List.eq_nil_iff_forall_not_mem.mpr fun x hx => by
      simpa using h.mem_iff.mpr hx
    rw [hnil]
    rfl
  | some e =>
    obtain ⟨hfirst, hleast⟩ := leastOrdinal?_eq_some hl
    cases hl' : leastOrdinal? l' with
    | none =>
      obtain rfl := leastOrdinal?_eq_none hl'
      have hmem := (List.mem_filter.mp (List.mem_of_head? hfirst)).1
      simpa using h.mem_iff.mp hmem
    | some e' =>
      obtain ⟨hfirst', hleast'⟩ := leastOrdinal?_eq_some hl'
      have hmem := h.mem_iff.mp (List.mem_filter.mp (List.mem_of_head? hfirst)).1
      have hmem' := h.mem_iff.mpr (List.mem_filter.mp (List.mem_of_head? hfirst')).1
      have hordinal : e.1 = e'.1 := UInt32.le_antisymm (hleast e' hmem') (hleast' e hmem)
      rw [hordinal, h e'.1, hfirst'] at hfirst
      exact hfirst.symm

namespace Alike

variable {c c' : ClassInfo} (h : c.Alike c')
include h

theorem findMethod?_eq (name : String) (types : List String) (version : Version) :
    c.findMethod? name types version = c'.findMethod? name types version := by
  refine (h.methods name).find?_eq (k := version) fun m hm => ?_
  exact (of_decide_eq_true hm).1

theorem accessorOwner?_eq (field : String) : c.accessorOwner? field = c'.accessorOwner? field := by
  refine leastOrdinal?_reordered ?_
  unfold accessible
  rw [List.filterMap_eq_flatMap_toList, List.filterMap_eq_flatMap_toList]
  refine (h.fields field).flatMap .numbered fun f e he k => ?_
  obtain ⟨-, hordinal⟩ := Option.ite_none_right_eq_some.mp (Option.mem_toList.mp he)
  obtain ⟨n, hn, rfl⟩ := Option.map_eq_some_iff.mp hordinal
  cases hv : f.version with
  | normal => simp [hv, Version.ordinal?] at hn
  | numbered v =>
    simp only [hv, Version.ordinal?, Option.some.injEq] at hn
    simp [hn]

end Alike

/-- Declarations of one base name in another order, each version once, give an alike record. -/
theorem ofDeclarations_alike {marker : Marker} (base : String) {ts ts' : List TypeDecl}
    (hperm : ts.Perm ts') (hnodup : (ts.map fun t => (marker.parse t.name).version).Nodup) :
    (ofDeclarations marker base ts).Alike (ofDeclarations marker base ts') := by
  have hts := Reordered.of_perm hperm hnodup
  refine ⟨by simp, ?_, fun name => ?_, fun name => ?_, ?_⟩
  · rw [isVersioned_ofDeclarations, isVersioned_ofDeclarations]
    exact hperm.any_eq
  · rw [methodsNamed_ofDeclarations, methodsNamed_ofDeclarations]
    refine (hts.flatMap id fun t m hm k => ?_).filter _
    obtain ⟨d, -, rfl⟩ := List.mem_map.mp hm
    rfl
  · rw [fieldsNamed_ofDeclarations, fieldsNamed_ofDeclarations]
    refine (hts.flatMap id fun t f hf k => ?_).filter _
    obtain ⟨d, -, hf⟩ := List.mem_flatMap.mp hf
    obtain ⟨v, -, rfl⟩ := List.mem_map.mp hf
    rfl
  · rw [fields_ofDeclarations, fields_ofDeclarations]
    refine (List.perm_ext_iff_of_nodup (Entries.nodup_keys_collect _)
      (Entries.nodup_keys_collect _)).mpr fun k => ?_
    rw [Entries.mem_keys_collect, Entries.mem_keys_collect]
    exact ((hperm.flatMap_right _).map _ |>.map _).mem_iff

end ClassInfo

/-- Two tables that hold alike records under each base name. -/
def SymbolTable.Alike (table table' : SymbolTable) : Prop :=
  ∀ base, Option.Rel ClassInfo.Alike (table.get? base) (table'.get? base)

/-- No two top-level declarations of the batch have base name and version in common. -/
def DistinctNames (marker : Marker) (units : List CompilationUnit) : Prop :=
  ((units.flatMap CompilationUnit.types).map fun t => marker.parse t.name).Nodup

instance (marker : Marker) (units : List CompilationUnit) : Decidable (DistinctNames marker units) :=
  inferInstanceAs (Decidable (List.Nodup _))

theorem DistinctNames.declarations {marker : Marker} {units : List CompilationUnit}
    (h : DistinctNames marker units) (base : String) :
    ((declarations marker units base).map fun t => marker.parse t.name).Nodup :=
  List.pairwise_map.mpr ((List.pairwise_map.mp h).sublist List.filter_sublist)

theorem DistinctNames.versions {marker : Marker} {units : List CompilationUnit}
    (h : DistinctNames marker units) (base : String) :
    ((VersionWeave.declarations marker units base).map
      fun t => (marker.parse t.name).version).Nodup := by
  have hparse : ∀ t ∈ VersionWeave.declarations marker units base,
      marker.parse t.name = ⟨base, (marker.parse t.name).version⟩ := by
    intro t ht
    rw [← of_decide_eq_true (List.mem_filter.mp ht).2]
    rfl
  refine List.pairwise_map.mpr ((List.pairwise_map.mp (h.declarations base)).imp_of_mem
    fun {s t} hs ht hne hversion => hne ?_)
  rw [hparse s hs, hparse t ht, hversion]

namespace SymbolTable

variable {marker : Marker} {units units' : List CompilationUnit}

theorem build_alike (hperm : units.Perm units') (hnames : DistinctNames marker units) :
    (build marker units).Alike (build marker units') := by
  intro base
  have hdecls : (declarations marker units base).Perm (declarations marker units' base) :=
    (hperm.flatMap_right _).filter _
  have hempty : (declarations marker units base).isEmpty =
      (declarations marker units' base).isEmpty := by
    rw [Bool.eq_iff_iff, List.isEmpty_iff_length_eq_zero, List.isEmpty_iff_length_eq_zero,
      hdecls.length_eq]
  rw [get?_build, get?_build, ← hempty]
  cases (declarations marker units base).isEmpty with
  | true => exact .none
  | false => exact .some (ClassInfo.ofDeclarations_alike base hdecls (hnames.versions base))

namespace Alike

variable {table table' : SymbolTable} (h : table.Alike table')
include h

theorem versioned? (base : String) :
    Option.Rel ClassInfo.Alike (table.versioned? base) (table'.versioned? base) := by
  have hbase := h base
  unfold SymbolTable.versioned?
  generalize table.get? base = c at hbase ⊢
  generalize table'.get? base = c' at hbase ⊢
  cases hbase with
  | none => exact .none
  | some hc =>
    rw [Option.filter_some, Option.filter_some, hc.isVersioned]
    split
    next => exact .some hc
    next => exact .none

theorem isVersioned (base : String) : table.isVersioned base = table'.isVersioned base := by
  have hbase := h.versioned? base
  unfold SymbolTable.isVersioned
  generalize table.versioned? base = c at hbase ⊢
  generalize table'.versioned? base = c' at hbase ⊢
  cases hbase <;> rfl

end Alike

end SymbolTable

end VersionWeave
