import VersionWeave.Proofs.Json.Nesting
import VersionWeave.Tree.ToJson

namespace VersionWeave

theorem mapM_eq_some_self {α : Type} {f : α → Option α} {l : List α} (h : ∀ a ∈ l, f a = some a) :
    l.mapM f = some l := by
  induction l with
  | nil => rfl
  | cons a rest ih =>
    obtain ⟨ha, hrest⟩ := List.forall_mem_cons.mp h
    rw [List.mapM_cons, ha, ih hrest]
    rfl

namespace Json

@[simp] theorem plain_bool (b : Bool) : (Json.bool b).Plain := trivial

@[simp] theorem plain_int (i : Int) : (Json.int i).Plain := trivial

@[simp] theorem plain_str (s : String) : (Json.str s).Plain := trivial

theorem plain_arr {items : List Json} : (Json.arr items).Plain ↔ ∀ j ∈ items, j.Plain := by
  rw [Plain]
  induction items with
  | nil => simp [PlainItems]
  | cons j rest ih => rw [PlainItems, ih, List.forall_mem_cons]

theorem plain_record {members : List (String × Json)} :
    (Json.record members).Plain ↔ ∀ m ∈ members, m.2.Plain := by
  rw [record, Plain]
  induction members with
  | nil => simp [PlainMembers]
  | cons m rest ih => simp [PlainMembers, ih]

theorem depth_arr_le {items : List Json} {d : Nat} :
    (Json.arr items).depth ≤ d + 1 ↔ ∀ j ∈ items, j.depth ≤ d := by
  rw [depth, Nat.add_le_add_iff_right]
  induction items with
  | nil => simp [depthItems]
  | cons j rest ih => rw [depthItems, Nat.max_le, ih, List.forall_mem_cons]

theorem depth_record_le {members : List (String × Json)} {d : Nat} :
    (Json.record members).depth ≤ d + 1 ↔ ∀ m ∈ members, m.2.depth ≤ d := by
  rw [record, depth, Nat.add_le_add_iff_right]
  induction members with
  | nil => simp [depthMembers]
  | cons m rest ih => rw [List.map_cons, depthMembers, Nat.max_le, ih, List.forall_mem_cons]

/-- A record with no field twice opens under any names. -/
theorem fields?_record {members : List (String × Json)} (names : List String)
    (h : (members.map Prod.fst).Nodup) : (Json.record members).fields? names = some members := by
  have hnamed : ((members.map fun m => (some m.1, m.2)).mapM fun m : Option String × Json =>
      m.1.map fun key => (key, m.2)) = some members := by
    rw [List.mapM_map]
    exact mapM_eq_some_self fun _ _ => rfl
  have hone : ∀ name ∈ names, (members.filter fun m => m.1 == name).length ≤ 1 := by
    intro name _
    have hcount := List.nodup_iff_count.mp h name
    rwa [List.count, List.countP_map, List.countP_eq_length_filter] at hcount
  rw [record, fields?, hnamed]
  simp only [bind, Option.bind]
  rw [if_pos (by simpa using hone)]

/-- With enough depth to spare, a reader gets back what a plain value was written for. -/
structure Recovers {α : Type} (read : Nat → Json → Option α) (j : Json) (a : α) : Prop where
  plain : j.Plain
  read_eq : ∀ {d}, j.depth ≤ d → read d j = some a

namespace Recovers

variable {α : Type} {read : Nat → Json → Option α} {a : α}

theorem record {members : List (String × Json)} (hplain : ∀ m ∈ members, m.2.Plain)
    (hread : ∀ d, (∀ m ∈ members, m.2.depth ≤ d) → read (d + 1) (.record members) = some a) :
    Recovers read (.record members) a where
  plain := plain_record.mpr hplain
  read_eq {d} h := by
    cases d with
    | zero => exact absurd h (Nat.not_succ_le_zero _)
    | succ d => exact hread d (depth_record_le.mp h)

/-- A variant is read by reading its content. -/
theorem variant {β : Type} {r : Nat → Json → Option β} {f : β → α} {tag : String} {content : Json}
    {b : β} (h : Recovers r content b)
    (htag : ∀ d, read (d + 1) (.tagged tag content) = (r d content).map f) :
    Recovers read (.tagged tag content) (f b) := by
  refine .record (by simpa using h.plain) fun d hd => ?_
  exact (htag d).trans (congrArg (Option.map f) (h.read_eq (by simpa using hd)))

theorem list {toJson : α → Json} {as : List α} (h : ∀ a ∈ as, Recovers read (toJson a) a) :
    Recovers (list? read) (.arr (as.map toJson)) as where
  plain := plain_arr.mpr (List.forall_mem_map.mpr fun a ha => (h a ha).plain)
  read_eq {d} hd := by
    cases d with
    | zero => exact absurd hd (Nat.not_succ_le_zero _)
    | succ d =>
      rw [list?, List.mapM_map]
      refine mapM_eq_some_self fun a ha => (h a ha).read_eq ?_
      exact depth_arr_le.mp hd _ (List.mem_map.mpr ⟨a, ha, rfl⟩)

/-- Items that are written and read along with what holds them are a list like any other. -/
theorem items {toJson : α → Json} {f : List α → List Json} {r : Nat → Json → Option (List α)}
    (hnil : f [] = []) (hcons : ∀ a as, f (a :: as) = toJson a :: f as)
    (hread : ∀ d js, r (d + 1) (.arr js) = js.mapM (read d)) {as : List α}
    (h : ∀ a ∈ as, Recovers read (toJson a) a) : Recovers r (.arr (f as)) as := by
  have hmap : f as = as.map toJson := by
    clear h
    induction as with
    | nil => exact hnil
    | cons a rest ih => rw [hcons, ih, List.map_cons]
  rw [hmap]
  refine ⟨(Recovers.list h).plain, fun {d} hd => ?_⟩
  cases d with
  | zero => exact absurd hd (Nat.not_succ_le_zero _)
  | succ d => exact (hread d _).trans ((Recovers.list h).read_eq hd)

/-- An option is read back from `null` or from what it holds, which is never `null` itself. -/
theorem option {toJson : α → Json} {o : Option α}
    (h : ∀ a ∈ o, Recovers read (toJson a) a ∧ toJson a ≠ .null) :
    Recovers (fun d => nullable (read d)) (ofOption toJson o) o where
  plain := by
    cases o with
    | none => trivial
    | some a => exact (h a rfl).1.plain
  read_eq {d} hd := by
    cases o with
    | none => rfl
    | some a =>
      obtain ⟨hrecovers, hne⟩ := h a rfl
      rw [ofOption] at hd ⊢
      rw [nullable, hrecovers.read_eq hd]
      · rfl
      · exact hne

end Recovers

end Json

end VersionWeave
