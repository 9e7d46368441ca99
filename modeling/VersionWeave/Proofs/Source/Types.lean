import VersionWeave.Proofs.Version

namespace VersionWeave

theorem takeWhile_run {α : Type} {p : α → Bool} {xs k : List α} (hxs : ∀ c ∈ xs, p c = true)
    (hk : ∀ c ∈ k.head?, p c = false) : (xs ++ k).takeWhile p = xs := by
  rw [List.takeWhile_append_of_pos hxs]
  cases k with
  | nil => simp
  | cons c k => simp [hk c rfl]

/-- Two runs of characters of a class, each with something else behind it, end at the same place. -/
theorem run_append_inj {α : Type} {p : α → Bool} {xs ys k l : List α} (hxs : ∀ c ∈ xs, p c = true)
    (hys : ∀ c ∈ ys, p c = true) (hk : ∀ c ∈ k.head?, p c = false)
    (hl : ∀ c ∈ l.head?, p c = false) (h : xs ++ k = ys ++ l) : xs = ys ∧ k = l := by
  have hsame : xs = ys := by rw [← takeWhile_run hxs hk, h, takeWhile_run hys hl]
  subst hsame
  exact ⟨rfl, List.append_cancel_left h⟩

/-- The text of array dimensions. -/
def brackets (n : Nat) : List Char :=
  (List.replicate n ['[', ']']).flatten

theorem brackets_append_inj {m : Nat} : ∀ {n : Nat} {k l : List Char}, k.head? ≠ some '[' →
    l.head? ≠ some '[' → brackets m ++ k = brackets n ++ l → m = n ∧ k = l := by
  induction m with
  | zero =>
    intro n k l hk _ h
    cases n with
    | zero => exact ⟨rfl, h⟩
    | succ n => exact absurd (congrArg List.head? h) hk
  | succ m ih =>
    intro n k l hk hl h
    cases n with
    | zero => exact absurd (congrArg List.head? h).symm hl
    | succ n =>
      obtain ⟨rfl, hkl⟩ := ih hk hl (List.cons.inj (List.cons.inj h).2).2
      exact ⟨rfl, hkl⟩

namespace TypeRef

/-- The characters that put the written form of a type together around its names. -/
def isDelimiter (c : Char) : Bool :=
  c = '<' || c = '>' || c = ',' || c = '[' || c = ']'

/-- The names in a type consist of characters of a class. -/
def SpelledIn (p : Char → Bool) (t : TypeRef) : Prop :=
  ∀ name ∈ t.names, ∀ c ∈ name.toList, p c = true

/-- A text that does not go on with what belongs to a type. -/
def Stops (p : Char → Bool) (k : List Char) : Prop :=
  ∀ c ∈ k.head?, p c = false ∧ c ≠ '<' ∧ c ≠ '['

/-- The text of a list of type arguments. -/
def argsText (args : List TypeRef) : List Char :=
  if args.isEmpty then [] else '<' :: (commas (sources args)).toList ++ ['>']

theorem toList_source (name : String) (args : List TypeRef) (dims : UInt32) :
    (TypeRef.mk name args dims).source.toList =
      name.toList ++ (argsText args ++ brackets dims.toNat) := by
  have hdims : (String.join (List.replicate dims.toNat "[]")).toList = brackets dims.toNat := by
    rw [String.toList_join, brackets, List.flatMap, List.map_replicate]
    rfl
  rw [source, String.toList_append, String.toList_append, hdims, List.append_assoc, argsText]
  split
  next => rfl
  next =>
    rw [String.toList_append, String.toList_append]
    rfl

theorem toList_commas_cons (t u : TypeRef) (rest : List TypeRef) :
    (commas (sources (t :: u :: rest))).toList =
      t.source.toList ++ (',' :: ' ' :: (commas (sources (u :: rest))).toList) := by
  rw [sources, sources, commas, String.intercalate_cons_cons, ← sources, String.toList_append,
    String.toList_append, List.append_assoc]
  rfl

theorem toList_commas_singleton (t : TypeRef) :
    (commas (sources [t])).toList = t.source.toList := by
  rw [sources, sources, commas, String.intercalate_singleton]

section

variable {p : Char → Bool}

theorem argsText_cons (t : TypeRef) (rest : List TypeRef) :
    argsText (t :: rest) = '<' :: ((commas (sources (t :: rest))).toList ++ ['>']) := rfl

theorem Stops.brackets_append {k : List Char} (hk : Stops p k) (hp : p '[' = false) (n : Nat) :
    ∀ c ∈ (brackets n ++ k).head?, p c = false ∧ c ≠ '<' := by
  intro c hc
  cases n with
  | zero => exact ⟨(hk c hc).1, (hk c hc).2.1⟩
  | succ n =>
    cases Option.some.inj hc
    exact ⟨hp, by decide⟩

theorem head_argsText_append (hp : ∀ c, isDelimiter c = true → p c = false)
    {k : List Char} (hk : Stops p k) (args : List TypeRef) (n : Nat) :
    ∀ c ∈ (argsText args ++ (brackets n ++ k)).head?, p c = false := by
  cases args with
  | nil => exact fun c hc => (hk.brackets_append (hp _ rfl) n c hc).1
  | cons t rest =>
    intro c hc
    cases Option.some.inj hc
    exact hp _ rfl

theorem stops_delimited (hp : ∀ c, isDelimiter c = true → p c = false) {c : Char}
    (hc : c = '>' ∨ c = ',') (k : List Char) : Stops p (c :: k) := by
  intro d hd
  cases Option.some.inj hd
  rcases hc with rfl | rfl
  · exact ⟨hp _ rfl, by decide, by decide⟩
  · exact ⟨hp _ rfl, by decide, by decide⟩

theorem args_append_inj {ts us : List TypeRef} {k l : List Char} (hk : ∀ c ∈ k.head?, c ≠ '<')
    (hl : ∀ c ∈ l.head?, c ≠ '<')
    (hcommas : ts ≠ [] → us ≠ [] → ∀ k l : List Char,
      (commas (sources ts)).toList ++ '>' :: k = (commas (sources us)).toList ++ '>' :: l →
        ts = us ∧ k = l)
    (h : argsText ts ++ k = argsText us ++ l) : ts = us ∧ k = l := by
  cases ts with
  | nil =>
    cases us with
    | nil => exact ⟨rfl, h⟩
    | cons u us => exact absurd rfl (hk '<' (congrArg List.head? h))
  | cons t ts =>
    cases us with
    | nil => exact absurd rfl (hl '<' (congrArg List.head? h).symm)
    | cons u us =>
      rw [argsText_cons, argsText_cons, List.cons_append, List.cons_append, List.append_assoc,
        List.append_assoc] at h
      exact hcommas (List.cons_ne_nil _ _) (List.cons_ne_nil _ _) k l (List.cons.inj h).2

mutual

/-- From the written form of a type and what follows, both can be told. -/
theorem source_append_inj (hp : ∀ c, isDelimiter c = true → p c = false) :
    ∀ t u : TypeRef, t.SpelledIn p → u.SpelledIn p → ∀ k l : List Char, Stops p k → Stops p l →
      t.source.toList ++ k = u.source.toList ++ l → t = u ∧ k = l
  | ⟨name, args, dims⟩ => by
    rintro ⟨name', args', dims'⟩ ht hu k l hk hl h
    rw [toList_source, toList_source, List.append_assoc, List.append_assoc, List.append_assoc,
      List.append_assoc] at h
    obtain ⟨hname, h⟩ := run_append_inj (ht name List.mem_cons_self) (hu name' List.mem_cons_self)
      (head_argsText_append hp hk args _) (head_argsText_append hp hl args' _) h
    have hcommas := commas_append_inj hp args args'
      (fun n hn => ht n (List.mem_cons_of_mem _ hn)) (fun n hn => hu n (List.mem_cons_of_mem _ hn))
    obtain ⟨rfl, hdims⟩ := args_append_inj (fun c hc => (hk.brackets_append (hp _ rfl) _ c hc).2)
      (fun c hc => (hl.brackets_append (hp _ rfl) _ c hc).2) hcommas h
    obtain ⟨hdims, hkl⟩ := brackets_append_inj (fun hc => (hk _ hc).2.2 rfl)
      (fun hc => (hl _ hc).2.2 rfl) hdims
    cases String.toList_inj.mp hname
    cases UInt32.toNat_inj.mp hdims
    exact ⟨rfl, hkl⟩

theorem commas_append_inj (hp : ∀ c, isDelimiter c = true → p c = false) :
    ∀ ts us : List TypeRef, (∀ name ∈ allNames ts, ∀ c ∈ name.toList, p c = true) →
      (∀ name ∈ allNames us, ∀ c ∈ name.toList, p c = true) → ts ≠ [] → us ≠ [] →
      ∀ k l : List Char,
        (commas (sources ts)).toList ++ '>' :: k = (commas (sources us)).toList ++ '>' :: l →
          ts = us ∧ k = l
  | [] => fun _ _ _ hts => absurd rfl hts
  | t :: ts => by
    intro us ht hu _ hus k l h
    obtain ⟨u, us, rfl⟩ := List.exists_cons_of_ne_nil hus
    have hhead := source_append_inj hp t u (fun n hn => ht n (List.mem_append_left _ hn))
      (fun n hn => hu n (List.mem_append_left _ hn))
    have hrest := commas_append_inj hp ts us (fun n hn => ht n (List.mem_append_right _ hn))
      (fun n hn => hu n (List.mem_append_right _ hn))
    have hend : ∀ k, Stops p ('>' :: k) := stops_delimited hp (.inl rfl)
    have hcomma : ∀ k, Stops p (',' :: k) := stops_delimited hp (.inr rfl)
    cases ts with
    | nil =>
      rw [toList_commas_singleton] at h
      cases us with
      | nil =>
        rw [toList_commas_singleton] at h
        obtain ⟨rfl, hkl⟩ := hhead _ _ (hend _) (hend _) h
        exact ⟨rfl, (List.cons.inj hkl).2⟩
      | cons u' us =>
        rw [toList_commas_cons, List.append_assoc] at h
        exact absurd (List.cons.inj (hhead _ _ (hend _) (hcomma _) h).2).1 (by decide)
    | cons t' ts =>
      rw [toList_commas_cons, List.append_assoc] at h
      cases us with
      | nil =>
        rw [toList_commas_singleton] at h
        exact absurd (List.cons.inj (hhead _ _ (hcomma _) (hend _) h).2).1 (by decide)
      | cons u' us =>
        rw [toList_commas_cons, List.append_assoc] at h
        obtain ⟨rfl, hmore⟩ := hhead _ _ (hcomma _) (hcomma _) h
        obtain ⟨hsame, hkl⟩ := hrest (List.cons_ne_nil _ _) (List.cons_ne_nil _ _) k l
          (List.cons.inj (List.cons.inj hmore).2).2
        exact ⟨congrArg (t :: ·) hsame, hkl⟩

end

end

/-- Types whose names hold none of the delimiters differ when their written forms do. -/
theorem source_inj {t u : TypeRef} (ht : t.SpelledIn fun c => !isDelimiter c)
    (hu : u.SpelledIn fun c => !isDelimiter c) : t.source = u.source ↔ t = u := by
  refine ⟨fun h => ?_, congrArg source⟩
  refine (source_append_inj (fun c hc => ?_) t u ht hu [] [] (by simp [Stops]) (by simp [Stops])
    (by rw [h])).1
  rw [hc]
  rfl

/-- Every name in the type, at any depth, is a word without the characters between names. -/
def IsWorded (t : TypeRef) : Prop :=
  ∀ name ∈ t.names, name ≠ "" ∧ ∀ c ∈ ['<', '>', ',', '[', ']', ' '], c ∉ name.toList

theorem IsWorded.spelledIn {t : TypeRef} (h : t.IsWorded) :
    t.SpelledIn fun c => !isDelimiter c := by
  intro name hname c hc
  have hfree : ∀ d ∈ ['<', '>', ',', '[', ']', ' '], c ≠ d := by
    rintro d hd rfl
    exact (h name hname).2 c hd hc
  simp [isDelimiter, hfree]

/-- Comparing the written forms of two types is comparing the types. -/
theorem source_eq_iff_of_worded {t u : TypeRef} (ht : t.IsWorded) (hu : u.IsWorded) :
    t.source = u.source ↔ t = u :=
  source_inj ht.spelledIn hu.spelledIn

/-- An array of lists is not a list of arrays, also inside a map. -/
theorem source_eq_iff_of_worded_nested :
    let lists : TypeRef := ⟨"Map", [⟨"K", [], 0⟩, ⟨"List", [⟨"Test", [], 0⟩], 1⟩], 2⟩
    let arrays : TypeRef := ⟨"Map", [⟨"K", [], 0⟩, ⟨"List", [⟨"Test", [], 1⟩], 0⟩], 2⟩
    lists.IsWorded ∧ arrays.IsWorded ∧ (lists.source = arrays.source ↔ lists = arrays) ∧
      lists.source ≠ arrays.source := by
  intro lists arrays
  have hlists : lists.IsWorded := by simp [lists, IsWorded, names, allNames]
  have harrays : arrays.IsWorded := by simp [arrays, IsWorded, names, allNames]
  have hiff := source_eq_iff_of_worded hlists harrays
  exact ⟨hlists, harrays, hiff, fun h => absurd (hiff.mp h) (by simp [lists, arrays])⟩

end TypeRef

end VersionWeave
