import VersionWeave.Entries

namespace VersionWeave

namespace Entries

variable {κ α β : Type} [DecidableEq κ]

@[simp] theorem get?_nil (key : κ) : get? ([] : Entries κ α) key = none := rfl

theorem get?_cons (key k : κ) (a : α) (rest : Entries κ α) :
    get? ((k, a) :: rest) key = if k = key then some a else rest.get? key := by
  by_cases hk : k = key <;> simp [get?, hk]

/-- An alteration shows under its own key only. -/
theorem get?_alter (key k : κ) (change : Option α → α) (es : Entries κ α) :
    (es.alter key change).get? k = if key = k then some (change (es.get? key)) else es.get? k := by
  induction es with
  | nil => simp [alter, get?_cons]
  | cons e rest ih =>
    obtain ⟨k', a⟩ := e
    by_cases hkey : k' = key
    · subst hkey
      by_cases hk : k' = k <;> simp [alter, get?_cons, hk]
    · simp only [alter, if_neg hkey, get?_cons, ih]
      by_cases hk : k' = k
      · have hne : key ≠ k := fun he => hkey (hk.trans he.symm)
        simp [hk, hne]
      · simp [hk]

/-- Two alterations under one key are one. -/
theorem alter_alter (key : κ) (f g : Option α → α) (es : Entries κ α) :
    alter key g (alter key f es) = alter key (fun old => g (some (f old))) es := by
  induction es with
  | nil => simp [alter]
  | cons e rest ih =>
    obtain ⟨k, a⟩ := e
    by_cases hk : k = key <;> simp [alter, hk, ih]

/-- A run of alterations shows under a key what those with this key made of its value. -/
theorem get?_foldl_alter (key : β → κ) (change : β → Option α → α) (k : κ) (items : List β) :
    ∀ es : Entries κ α, get? (items.foldl (fun es b => es.alter (key b) (change b)) es) k =
      (items.filter fun b => key b = k).foldl (fun old b => some (change b old)) (es.get? k) := by
  induction items with
  | nil => exact fun _ => rfl
  | cons b rest ih =>
    intro es
    by_cases hk : key b = k
    · simp [ih, get?_alter, hk]
    · simp [ih, get?_alter, hk]

/-- Of all that was put under a key, the last counts. -/
theorem get?_foldl_put (k : κ) (items : List (κ × α)) :
    get? (items.foldl (fun es b => es.put b.1 b.2) []) k =
      (items.filter fun b => b.1 = k).getLast?.map Prod.snd := by
  have hlast : ∀ (found : List (κ × α)) (old : Option α),
      found.foldl (fun _ b => some b.2) old = (found.getLast?.map Prod.snd).or old := by
    intro found
    induction found with
    | nil => exact fun _ => rfl
    | cons b rest ih =>
      intro old
      rw [List.foldl_cons, ih, List.getLast?_cons]
      cases rest.getLast? <;> rfl
  refine (get?_foldl_alter Prod.fst (fun (b : κ × α) _ => b.2) k items []).trans ?_
  rw [hlast, get?_nil, Option.or_none]

theorem mem_keys_alter {key k : κ} {change : Option α → α} {es : Entries κ α} :
    k ∈ (es.alter key change).keys ↔ k = key ∨ k ∈ es.keys := by
  induction es with
  | nil => simp [alter, keys]
  | cons e rest ih =>
    obtain ⟨k', a⟩ := e
    by_cases hkey : k' = key
    · simp [alter, keys, hkey]
    · simp only [keys, alter, if_neg hkey, List.map_cons, List.mem_cons] at ih ⊢
      rw [ih]
      exact or_left_comm

theorem nodup_keys_alter (key : κ) (change : Option α → α) {es : Entries κ α}
    (h : es.keys.Nodup) : (es.alter key change).keys.Nodup := by
  induction es with
  | nil => simp [alter, keys]
  | cons e rest ih =>
    obtain ⟨k', a⟩ := e
    obtain ⟨hk', hrest⟩ := List.nodup_cons.mp h
    by_cases hkey : k' = key
    · simpa [alter, keys, hkey] using h
    · simp only [alter, if_neg hkey, keys, List.map_cons, List.nodup_cons]
      refine ⟨fun hmem => ?_, ih hrest⟩
      rcases mem_keys_alter.mp hmem with he | hmem
      · exact hkey he
      · exact hk' hmem

theorem nodup_keys_foldl_alter (key : β → κ) (change : β → Option α → α) (items : List β) :
    ∀ {es : Entries κ α}, es.keys.Nodup →
      (keys (items.foldl (fun es b => es.alter (key b) (change b)) es)).Nodup := by
  induction items with
  | nil => exact fun h => h
  | cons b rest ih => exact fun h => ih (nodup_keys_alter _ _ h)

/-- With every key once, an entry is what is found under its key. -/
theorem mem_iff_get? {es : Entries κ α} (h : es.keys.Nodup) {k : κ} {a : α} :
    (k, a) ∈ es ↔ es.get? k = some a := by
  induction es with
  | nil => simp
  | cons e rest ih =>
    obtain ⟨k', b⟩ := e
    obtain ⟨hk', hrest⟩ := List.nodup_cons.mp h
    rw [List.mem_cons, get?_cons, ih hrest]
    by_cases hk : k' = k
    · subst hk
      have hnone : get? rest k' ≠ some a := fun hs =>
        hk' (List.mem_map.mpr ⟨(k', a), (ih hrest).mpr hs, rfl⟩)
      simp [hnone, eq_comm]
    · simp [hk, Ne.symm hk]

theorem mem_keys_of_get? {es : Entries κ α} {k : κ} {a : α} (h : es.get? k = some a) :
    k ∈ es.keys := by
  obtain ⟨e, he, rfl⟩ := Option.map_eq_some_iff.mp h
  have hk := List.find?_some he
  exact List.mem_map.mpr ⟨e, List.mem_of_find?_eq_some he, of_decide_eq_true hk⟩

/-- Of all that was put under a key as its first value, the first counts. -/
theorem get?_foldl_putNew (key : α → κ) (k : κ) (items : List α) :
    get? (items.foldl (fun es b => putNew es (key b) b) []) k =
      items.find? fun b => key b = k := by
  have hfirst : ∀ (found : List α) (old : Option α),
      found.foldl (fun old b => some (old.getD b)) old = old.or found.head? := by
    intro found
    induction found with
    | nil => simp
    | cons b rest ih => intro old; cases old <;> simp [ih]
  refine (get?_foldl_alter key (fun b old => old.getD b) k items []).trans ?_
  rw [hfirst, get?_nil, Option.none_or, List.head?_filter]

theorem nodup_keys_foldl_putNew (key : α → κ) (items : List α) :
    (keys (items.foldl (fun es b => putNew es (key b) b) [])).Nodup :=
  nodup_keys_foldl_alter key (fun b old => old.getD b) items List.nodup_nil

theorem key_of_mem_foldl_putNew {key : α → κ} {items : List α} {e : κ × α}
    (h : e ∈ items.foldl (fun es b => putNew es (key b) b) []) : key e.2 = e.1 := by
  have hget := (mem_iff_get? (nodup_keys_foldl_putNew key items)).mp h
  rw [get?_foldl_putNew] at hget
  exact of_decide_eq_true (List.find?_some hget :)

/-- A run of first values leaves every item that is the first of its key, and no other. -/
theorem mem_values_foldl_putNew {key : α → κ} {items : List α} {a : α} :
    a ∈ values (items.foldl (fun es b => putNew es (key b) b) []) ↔
      items.find? (fun b => key b = key a) = some a := by
  have hnodup := nodup_keys_foldl_putNew key items
  rw [values, List.mem_map]
  constructor
  · rintro ⟨⟨k, a'⟩, he, rfl⟩
    have hk : key a' = k := key_of_mem_foldl_putNew he
    rw [← get?_foldl_putNew, hk]
    exact (mem_iff_get? hnodup).mp he
  · intro h
    exact ⟨(key a, a), (mem_iff_get? hnodup).mpr ((get?_foldl_putNew key _ items).trans h), rfl⟩

/-- Every item in the list of its key, the keys by first appearance. -/
def collect (items : List (κ × α)) : Entries κ (List α) :=
  items.foldl (fun es b => es.push b.1 b.2) []

/-- A run of additions leaves under a key what was there and then, in order, what came. -/
theorem get?_foldl_push (k : κ) (items : List (κ × α)) (es : Entries κ (List α)) :
    get? (items.foldl (fun es b => es.push b.1 b.2) es) k =
      match items.filter fun b => b.1 = k with
      | [] => es.get? k
      | found => some ((es.get? k).getD [] ++ found.map Prod.snd) := by
  have hpush := get?_foldl_alter Prod.fst (fun (b : κ × α) old => old.getD [] ++ [b.2]) k items es
  have hall : ∀ (found : List (κ × α)) (old : List α),
      found.foldl (fun old b => some (old.getD [] ++ [b.2])) (some old) =
        some (old ++ found.map Prod.snd) := by
    intro found
    induction found with
    | nil => simp
    | cons b rest ih => intro old; simp [ih]
  refine hpush.trans ?_
  cases items.filter fun b => b.1 = k with
  | nil => rfl
  | cons b rest => simp [hall]

theorem getD_get?_foldl_push (k : κ) (items : List (κ × α)) (es : Entries κ (List α)) :
    (get? (items.foldl (fun es b => es.push b.1 b.2) es) k).getD [] =
      (es.get? k).getD [] ++ (items.filter fun b => b.1 = k).map Prod.snd := by
  rw [get?_foldl_push]
  cases items.filter fun b => b.1 = k <;> simp

theorem nodup_keys_collect (items : List (κ × α)) : (collect items).keys.Nodup :=
  nodup_keys_foldl_alter Prod.fst (fun (b : κ × α) old => old.getD [] ++ [b.2]) items List.nodup_nil

theorem mem_keys_collect {items : List (κ × α)} {k : κ} :
    k ∈ (collect items).keys ↔ k ∈ items.map Prod.fst := by
  have hall : ∀ (items : List (κ × α)) (es : Entries κ (List α)),
      k ∈ keys (items.foldl (fun es b => es.push b.1 b.2) es) ↔
        k ∈ items.map Prod.fst ∨ k ∈ es.keys := by
    intro items
    induction items with
    | nil => simp
    | cons b rest ih =>
      intro es
      rw [List.foldl_cons, ih, push, mem_keys_alter, List.map_cons, List.mem_cons]
      exact or_left_comm.trans (or_assoc.symm)
  exact (hall items []).trans (or_iff_left List.not_mem_nil)

theorem mem_collect {items : List (κ × α)} {k : κ} {group : List α} :
    (k, group) ∈ collect items ↔
      group = (items.filter fun b => b.1 = k).map Prod.snd ∧ group ≠ [] := by
  rw [mem_iff_get? (nodup_keys_collect items), collect, get?_foldl_push]
  cases items.filter fun b => b.1 = k with
  | nil => simp
  | cons b rest =>
    simp only [get?_nil, Option.getD_none, List.nil_append, Option.some.injEq]
    exact ⟨fun h => ⟨h.symm, h ▸ by simp⟩, fun h => h.1.symm⟩

end Entries

/-- Of the items that some keys give, one key gives one. -/
theorem filter_filterMap_eq_singleton {α β κ : Type} {key : α → κ} {f : α → Option β}
    {p : β → Bool} {l : List α} {a : α} {b : β} (hnodup : (l.map key).Nodup) (ha : a ∈ l)
    (hb : f a = some b) (hp : ∀ x ∈ l, ∀ y, f x = some y → (p y = true ↔ key x = key a)) :
    (l.filterMap f).filter p = [b] := by
  induction l with
  | nil => simp at ha
  | cons x rest ih =>
    obtain ⟨hx, hrest⟩ := List.nodup_cons.mp hnodup
    obtain ⟨hpx, hprest⟩ := List.forall_mem_cons.mp hp
    rw [List.filterMap_cons]
    rcases List.mem_cons.mp ha with rfl | ha
    · have hnone : (rest.filterMap f).filter p = [] := by
        rw [List.filter_eq_nil_iff]
        intro y hy hpy
        obtain ⟨z, hz, hy⟩ := List.mem_filterMap.mp hy
        exact hx (List.mem_map.mpr ⟨z, hz, (hprest z hz y hy).mp hpy⟩)
      rw [hb]
      exact (List.filter_cons_of_pos ((hpx b hb).mpr rfl)).trans (by rw [hnone])
    · have hne : key x ≠ key a := fun h => hx (List.mem_map.mpr ⟨a, ha, h.symm⟩)
      cases hy : f x with
      | none => exact ih hrest ha hprest
      | some y =>
        refine (List.filter_cons_of_neg ?_).trans (ih hrest ha hprest)
        exact fun h => hne ((hpx y hy).mp h)

end VersionWeave
