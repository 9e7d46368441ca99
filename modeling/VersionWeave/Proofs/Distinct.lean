import VersionWeave.Proofs.Entries
import VersionWeave.Unified.Build

namespace VersionWeave

section

variable {α : Type} [BEq α] [LawfulBEq α]

theorem foldl_distinct {items : List α} : ∀ {kept : List α}, kept.Nodup →
    let all := items.foldl (fun kept a => if kept.contains a then kept else kept ++ [a]) kept
    all.Nodup ∧ ∀ a, a ∈ all ↔ a ∈ kept ∨ a ∈ items := by
  induction items with
  | nil => exact fun h => ⟨h, by simp⟩
  | cons b rest ih =>
    intro kept h
    rw [List.foldl_cons]
    by_cases hb : b ∈ kept
    · rw [if_pos (List.contains_iff_mem.mpr hb)]
      obtain ⟨hnodup, hmem⟩ := ih h
      refine ⟨hnodup, fun a => (hmem a).trans ?_⟩
      rw [List.mem_cons]
      exact ⟨Or.imp_right .inr, fun ha => ha.elim .inl (Or.imp_left fun he => he ▸ hb)⟩
    · rw [if_neg (mt List.contains_iff_mem.mp hb)]
      have hnew : (kept ++ [b]).Nodup := by
        refine List.nodup_append.mpr ⟨h, by simp, fun a ha c hc he => hb ?_⟩
        rwa [← List.mem_singleton.mp hc, ← he]
      obtain ⟨hnodup, hmem⟩ := ih hnew
      refine ⟨hnodup, fun a => (hmem a).trans ?_⟩
      simp only [List.mem_append, List.mem_cons, List.not_mem_nil, or_false, or_assoc]

theorem nodup_distinct (items : List α) : (distinct items).Nodup :=
  (foldl_distinct List.nodup_nil).1

theorem mem_distinct {items : List α} {a : α} : a ∈ distinct items ↔ a ∈ items :=
  ((foldl_distinct List.nodup_nil).2 a).trans (by simp)

end

/-- A run of alterations lists the keys by their first appearance. -/
theorem Entries.keys_foldl_alter {κ α β : Type} [DecidableEq κ] [BEq κ] [LawfulBEq κ] (key : β → κ)
    (change : β → Option α → α) (items : List β) (es : Entries κ α) :
    keys (items.foldl (fun es b => es.alter (key b) (change b)) es) =
      (items.map key).foldl (fun kept a => if kept.contains a then kept else kept ++ [a])
        es.keys := by
  have hstep : ∀ (es : Entries κ α) (b : β), (es.alter (key b) (change b)).keys =
      if es.keys.contains (key b) then es.keys else es.keys ++ [key b] := by
    intro es b
    induction es with
    | nil => rfl
    | cons e rest ih =>
      by_cases he : e.1 = key b
      · simp [alter, keys, he]
      · simp only [alter, keys, if_neg he, List.map_cons, List.contains_cons] at ih ⊢
        rw [ih]
        have hne : (key b == e.1) = false := beq_false_of_ne (Ne.symm he)
        rw [hne, Bool.false_or]
        exact apply_ite (e.1 :: ·) _ _ _
  induction items generalizing es with
  | nil => rfl
  | cons b rest ih => rw [List.foldl_cons, ih, hstep, List.map_cons, List.foldl_cons]

/-- The keys of what is collected stand in the order of their first appearance. -/
theorem Entries.keys_collect {κ α : Type} [DecidableEq κ] [BEq κ] [LawfulBEq κ] (items : List (κ × α)) :
    (collect items).keys = distinct (items.map Prod.fst) :=
  keys_foldl_alter Prod.fst (fun b old => old.getD [] ++ [b.2]) items []

/-- A run of first values keeps one item of each key, in the order of their first appearance. -/
theorem Entries.map_values_foldl_putNew {κ α : Type} [DecidableEq κ] [BEq κ] [LawfulBEq κ]
    (key : α → κ) (items : List α) :
    (values (items.foldl (fun es b => putNew es (key b) b) [])).map key =
      distinct (items.map key) := by
  have hkeys : keys (items.foldl (fun es b => putNew es (key b) b) []) =
      distinct (items.map key) :=
    keys_foldl_alter key (fun b old => old.getD b) items []
  rw [← hkeys, values, keys, List.map_map]
  exact List.map_congr_left fun e he => key_of_mem_foldl_putNew he

/-- What is collected: every key once, with all that came under it. -/
theorem Entries.collect_eq {κ α : Type} [DecidableEq κ] [BEq κ] [LawfulBEq κ] (items : List (κ × α)) :
    collect items = (distinct (items.map Prod.fst)).map fun k =>
      (k, (items.filter fun b => b.1 = k).map Prod.snd) := by
  rw [← keys_collect, keys, List.map_map]
  refine (List.map_id _).symm.trans (List.map_congr_left fun e he => ?_)
  exact Prod.ext rfl (mem_collect.mp he).1

theorem filterMap_eq_map_filter {α β : Type} {f : α → Option β} {g : α → β} {p : α → Bool}
    {l : List α} (h : ∀ a ∈ l, f a = if p a then some (g a) else none) :
    l.filterMap f = (l.filter p).map g := by
  induction l with
  | nil => rfl
  | cons a rest ih =>
    obtain ⟨ha, hrest⟩ := List.forall_mem_cons.mp h
    rw [List.filterMap_cons, List.filter_cons, ha, ih hrest]
    cases p a <;> rfl

/-- Items by their keys, and then those without one: every item is there once. -/
theorem perm_keyed {α κ : Type} [DecidableEq κ] (key : α → Option κ) {keys : List κ}
    (hnodup : keys.Nodup) {items : List α} (hkeys : ∀ a ∈ items, ∀ k, key a = some k → k ∈ keys) :
    (keys.flatMap (fun k => items.filter fun a => key a = some k)
      ++ items.filter fun a => (key a).isNone).Perm items := by
  induction items with
  | nil => simp
  | cons a rest ih =>
    obtain ⟨ha, hrest⟩ := List.forall_mem_cons.mp hkeys
    cases hk : key a with
    | none =>
      simp only [List.filter_cons, hk, reduceCtorEq, decide_false, Option.isNone_none, if_true,
        Bool.false_eq_true, if_false]
      exact List.perm_middle.trans ((ih hrest).cons a)
    | some k =>
      obtain ⟨before, after, rfl⟩ := List.append_of_mem (ha k hk)
      have hbefore : ∀ j ∈ before, j ≠ k := fun j hj he =>
        (List.nodup_append.mp hnodup).2.2 j hj k List.mem_cons_self he
      have hafter : ∀ j ∈ after, j ≠ k := fun j hj he =>
        (List.nodup_cons.mp (List.nodup_append.mp hnodup).2.1).1 (he ▸ hj)
      have hsame : ∀ js : List κ, (∀ j ∈ js, j ≠ k) →
          js.flatMap (fun j => (a :: rest).filter fun b => key b = some j) =
            js.flatMap fun j => rest.filter fun b => key b = some j := by
        intro js hjs
        rw [List.flatMap_def, List.flatMap_def]
        refine congrArg List.flatten (List.map_congr_left fun j hj => List.filter_cons_of_neg ?_)
        simpa [hk] using (hjs j hj).symm
      have ih' := ih hrest
      rw [List.flatMap_append, List.flatMap_cons] at ih' ⊢
      rw [hsame before hbefore, hsame after hafter,
        List.filter_cons_of_pos (by simp [hk]), List.filter_cons_of_neg (by simp [hk])]
      simp only [List.cons_append, List.append_assoc] at ih' ⊢
      exact List.perm_middle.trans (ih'.cons a)

end VersionWeave
