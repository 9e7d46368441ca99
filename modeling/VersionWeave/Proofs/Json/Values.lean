import VersionWeave.Proofs.Json.Scalars

namespace VersionWeave

namespace Json

mutual

/-- Nothing but what a tree is written as: no fraction, and every string and key is a text. -/
def Plain : Json → Prop
  | .null | .bool _ | .int _ | .str _ => True
  | .real _ | .noText => False
  | .arr items => PlainItems items
  | .obj members => PlainMembers members

def PlainItems : List Json → Prop
  | [] => True
  | j :: rest => j.Plain ∧ PlainItems rest

def PlainMembers : List (Option String × Json) → Prop
  | [] => True
  | m :: rest => m.1.isSome = true ∧ m.2.Plain ∧ PlainMembers rest

end

/-- Between items and after keys a style adds nothing but blanks. -/
structure Style.Blank (style : Style) : Prop where
  lineBreak : ∀ depth, ∀ c ∈ (style.lineBreak depth).toList, isBlank c = true
  colon : ∃ gap, style.colon.toList = ':' :: gap ∧ ∀ c ∈ gap, isBlank c = true

theorem Style.blank_compact : Style.compact.Blank where
  lineBreak _ := by simp [Style.compact]
  colon := ⟨[], rfl, by simp⟩

theorem Style.blank_pretty : Style.pretty.Blank where
  lineBreak depth := by simp [Style.pretty, isBlank]
  colon := ⟨[' '], rfl, by simp [isBlank]⟩

section

variable {gap cs : List Char} (hgap : ∀ c ∈ gap, isBlank c = true)
include hgap

theorem skipBlank_append : skipBlank (gap ++ cs) = skipBlank cs :=
  List.dropWhile_append_of_pos hgap

theorem scanValue_append (n : Nat) : scanValue n (gap ++ cs) = scanValue n cs := by
  cases n with
  | zero => rfl
  | succ n => rw [scanValue, scanValue, skipBlank_append hgap]

theorem scanItems_append (n : Nat) : scanItems n (gap ++ cs) = scanItems n cs := by
  cases n with
  | zero => rfl
  | succ n => rw [scanItems, scanItems, scanValue_append hgap]

theorem scanMembers_append (n : Nat) : scanMembers n (gap ++ cs) = scanMembers n cs := by
  cases n with
  | zero => rfl
  | succ n => rw [scanMembers, scanMembers, skipBlank_append hgap]

end

theorem exists_gap (cs : List Char) :
    ∃ gap, (∀ c ∈ gap, isBlank c = true) ∧ gap ++ skipBlank cs = cs :=
  ⟨cs.takeWhile isBlank, List.all_eq_true.mp List.all_takeWhile, List.takeWhile_append_dropWhile⟩

theorem scanItems_skipBlank (n : Nat) (cs : List Char) :
    scanItems n (skipBlank cs) = scanItems n cs := by
  obtain ⟨gap, hgap, hcs⟩ := exists_gap cs
  rw [← scanItems_append hgap, hcs]

theorem scanMembers_skipBlank (n : Nat) (cs : List Char) :
    scanMembers n (skipBlank cs) = scanMembers n cs := by
  obtain ⟨gap, hgap, hcs⟩ := exists_gap cs
  rw [← scanMembers_append hgap, hcs]

/-- A number is what is left when a value starts as nothing else. -/
theorem scanValue_int (i : Int) (n : Nat) {rest : List Char} (hrest : Delimited rest) :
    scanValue (n + 1) (i.repr.toList ++ rest) = some (.int i, rest) := by
  obtain ⟨c, cs, hc, hstart⟩ := exists_repr i
  have hfirst : ∀ {d tail}, i.repr.toList ++ rest = d :: tail → d = '-' ∨ d.isDigit = true := by
    intro d tail h
    rw [hc] at h
    rwa [← (List.cons.inj h).1]
  have hskip : skipBlank (i.repr.toList ++ rest) = i.repr.toList ++ rest := by
    rw [hc]
    refine List.dropWhile_cons_of_neg fun hblank => ?_
    rcases eq_of_isBlank hblank with rfl | rfl | rfl | rfl <;> exact absurd hstart (by decide)
  rw [scanValue, hskip]
  split
  iterate 6 (next h => exact absurd (hfirst h) (by decide))
  exact scanNumber_repr i hrest

theorem skipBlank_quote (s : String) (rest : List Char) :
    skipBlank ((quote s).toList ++ rest) =
      '"' :: (s.toList.flatMap escapeChar ++ '"' :: rest) := by
  rw [toList_quote]
  simp [skipBlank, isBlank]

theorem scanValue_str (s : String) (n : Nat) (rest : List Char) :
    scanValue (n + 1) ((quote s).toList ++ rest) = some (.str s, rest) := by
  simp only [scanValue, skipBlank_quote, scanString_escaped]
  rfl

section

variable {n : Nat} {cs rest after : List Char}

theorem scanValue_bracket (n : Nat) (rest : List Char) : scanValue n (']' :: rest) = none := by
  cases n with
  | zero => rfl
  | succ n =>
    have hskip : skipBlank (']' :: rest) = ']' :: rest := rfl
    simp only [scanValue, hskip]
    rfl

theorem scanValue_arr {items : List Json} (h : scanItems n cs = some (items, after)) :
    scanValue (n + 1) ('[' :: cs) = some (.arr items, after) := by
  have hopen : skipBlank ('[' :: cs) = '[' :: cs := rfl
  rw [← scanItems_skipBlank] at h
  simp only [scanValue, hopen]
  split
  -- No item starts with a closing bracket, so this is not the empty array.
  next heq =>
    rw [heq] at h
    cases n with
    | zero => cases h
    | succ n => rw [scanItems, scanValue_bracket] at h; cases h
  next => rw [h]; rfl

theorem scanValue_obj {members : List (Option String × Json)}
    (h : scanMembers n cs = some (members, after)) :
    scanValue (n + 1) ('\x7b' :: cs) = some (.obj members, after) := by
  have hopen : skipBlank ('\x7b' :: cs) = '\x7b' :: cs := rfl
  rw [← scanMembers_skipBlank] at h
  simp only [scanValue, hopen]
  split
  next heq =>
    rw [heq] at h
    cases n with
    | zero => cases h
    | succ n => cases h
  next => rw [h]; rfl

theorem scanItems_last {item : Json} (h : scanValue n cs = some (item, rest))
    (hskip : skipBlank rest = ']' :: after) : scanItems (n + 1) cs = some ([item], after) := by
  rw [scanItems, h]
  simp only [bind, Option.bind, hskip]
  rfl

theorem scanItems_more {item : Json} {items : List Json}
    (h : scanValue n cs = some (item, ',' :: rest)) (hmore : scanItems n rest = some (items, after)) :
    scanItems (n + 1) cs = some (item :: items, after) := by
  have hskip : skipBlank (',' :: rest) = ',' :: rest := rfl
  rw [scanItems, h]
  simp only [bind, Option.bind, hskip, hmore]
  rfl

theorem scanMembers_last {value : Json} (key : String) (h : scanValue n cs = some (value, rest))
    (hskip : skipBlank rest = '\x7d' :: after) :
    scanMembers (n + 1) ((quote key).toList ++ ':' :: cs) = some ([(some key, value)], after) := by
  have hcolon : skipBlank (':' :: cs) = ':' :: cs := rfl
  simp only [scanMembers, skipBlank_quote, scanString_escaped, bind, Option.bind, hcolon, h, hskip]
  rfl

theorem scanMembers_more {value : Json} {members : List (Option String × Json)} (key : String)
    (h : scanValue n cs = some (value, ',' :: rest))
    (hmore : scanMembers n rest = some (members, after)) :
    scanMembers (n + 1) ((quote key).toList ++ ':' :: cs) =
      some ((some key, value) :: members, after) := by
  have hcolon : skipBlank (':' :: cs) = ':' :: cs := rfl
  have hskip : skipBlank (',' :: rest) = ',' :: rest := rfl
  simp only [scanMembers, skipBlank_quote, scanString_escaped, bind, Option.bind, hcolon, h, hskip,
    hmore]
  rfl

end

/-- What stands between two brackets: texts with a comma and a gap from one to the next. -/
def listed (gap : List Char) (texts : List String) : List Char :=
  (',' :: gap).intercalate (texts.map String.toList)

theorem listed_singleton (gap : List Char) (text : String) : listed gap [text] = text.toList :=
  List.intercalate_singleton

theorem listed_cons (gap : List Char) (text : String) {texts : List String} (h : texts ≠ []) :
    listed gap (text :: texts) = text.toList ++ ',' :: (gap ++ listed gap texts) := by
  rw [listed, List.map_cons, List.intercalate_cons_of_ne_nil (by simpa using h), List.append_assoc]
  rfl

section

variable {style : Style}

theorem toList_enclose (style : Style) (depth : Nat) (opening closing : String)
    {texts : List String} (h : texts ≠ []) :
    (enclose style depth opening closing texts).toList =
      opening.toList ++ ((style.lineBreak (depth + 1)).toList ++
        (listed (style.lineBreak (depth + 1)).toList texts ++
          ((style.lineBreak depth).toList ++ closing.toList))) := by
  rw [enclose]
  · simp [listed, String.toList_append, String.toList_intercalate]
  · exact h

theorem Delimited.of_gap {gap rest : List Char} (hgap : ∀ c ∈ gap, isBlank c = true)
    (hrest : Delimited rest) : Delimited (gap ++ rest) := by
  cases gap with
  | nil => exact hrest
  | cons c gap =>
    intro d hd
    exact .inl (Option.some.inj hd ▸ hgap c List.mem_cons_self)

theorem delimited_cons {c : Char} (h : c = ',' ∨ c = ']' ∨ c = '\x7d') (rest : List Char) :
    Delimited (c :: rest) := by
  intro d hd
  cases hd
  exact .inr h

mutual

/--
A value is read from its text and the rest is left. Twice the length of the text is steps enough:
a bracket or a comma pays for the step into what it opens.
-/
theorem scanValue_write (hstyle : style.Blank) : ∀ j : Json, j.Plain → ∀ (depth n : Nat)
    (rest : List Char), Delimited rest → 2 * (write style depth j).toList.length ≤ n →
      scanValue (n + 1) ((write style depth j).toList ++ rest) = some (j, rest)
  | .null => by simp [write, scanValue, skipBlank, isBlank]
  | .bool true => by simp [write, scanValue, skipBlank, isBlank]
  | .bool false => by simp [write, scanValue, skipBlank, isBlank]
  | .int i => by
    intro _ depth n rest hrest _
    rw [write]
    exact scanValue_int i n hrest
  | .real _ => False.elim
  | .str s => by
    intro _ depth n rest _ _
    rw [write]
    exact scanValue_str s n rest
  | .noText => False.elim
  | .arr items => by
    intro h depth n rest hrest hn
    have hread := scanItems_write hstyle items
    cases items with
    | nil => simp [write, writeItems, enclose, scanValue, skipBlank, isBlank]
    | cons j items =>
      rw [write, toList_enclose _ _ _ _ (by simp [writeItems])] at hn ⊢
      simp only [List.length_append, String.reduceToList, List.length_cons] at hn
      obtain ⟨m, rfl⟩ : ∃ m, n = m + 2 := ⟨n - 2, by omega⟩
      have hitems := hread (by simp) h (depth + 1) m (style.lineBreak depth).toList rest
        (hstyle.lineBreak depth) (by omega)
      rw [← scanItems_append (hstyle.lineBreak (depth + 1))] at hitems
      simpa using scanValue_arr hitems
  | .obj members => by
    intro h depth n rest hrest hn
    have hread := scanMembers_write hstyle members
    cases members with
    | nil => simp [write, writeMembers, enclose, scanValue, skipBlank, isBlank]
    | cons m members =>
      rw [write, toList_enclose _ _ _ _ (by simp [writeMembers])] at hn ⊢
      simp only [List.length_append, String.reduceToList, List.length_cons] at hn
      obtain ⟨k, rfl⟩ : ∃ k, n = k + 2 := ⟨n - 2, by omega⟩
      have hmembers := hread (by simp) h (depth + 1) k (style.lineBreak depth).toList rest
        (hstyle.lineBreak depth) (by omega)
      rw [← scanMembers_append (hstyle.lineBreak (depth + 1))] at hmembers
      simpa using scanValue_obj hmembers

theorem scanItems_write (hstyle : style.Blank) : ∀ items : List Json, items ≠ [] →
    PlainItems items → ∀ (depth n : Nat) (gap rest : List Char), (∀ c ∈ gap, isBlank c = true) →
      2 * (listed (style.lineBreak depth).toList (writeItems style depth items)).length ≤ n →
      scanItems (n + 2) (listed (style.lineBreak depth).toList (writeItems style depth items) ++
        (gap ++ ']' :: rest)) = some (items, rest)
  | [] => absurd rfl
  | j :: more => by
    intro _ h depth n gap rest hgap hn
    have hvalue := scanValue_write hstyle j h.1 depth
    have hitems := scanItems_write hstyle more
    cases more with
    | nil =>
      rw [writeItems, writeItems, listed_singleton] at hn ⊢
      have hj := hvalue n (gap ++ ']' :: rest) ((delimited_cons (by simp) rest).of_gap hgap) hn
      refine scanItems_last hj ?_
      rw [skipBlank_append hgap]
      rfl
    | cons k more =>
      rw [writeItems, listed_cons _ _ (by simp [writeItems])] at hn ⊢
      simp only [List.length_append, List.length_cons] at hn
      obtain ⟨m, rfl⟩ : ∃ m, n = m + 1 := ⟨n - 1, by omega⟩
      have hmore := hitems (by simp) h.2 depth m gap rest hgap (by omega)
      rw [← scanItems_append (hstyle.lineBreak depth)] at hmore
      have hj := hvalue (m + 1) (',' :: ((style.lineBreak depth).toList ++
        (listed (style.lineBreak depth).toList (writeItems style depth (k :: more)) ++
          (gap ++ ']' :: rest)))) (delimited_cons (by simp) _) (by omega)
      simpa using scanItems_more hj hmore

theorem scanMembers_write (hstyle : style.Blank) : ∀ members : List (Option String × Json),
    members ≠ [] → PlainMembers members → ∀ (depth n : Nat) (gap rest : List Char),
      (∀ c ∈ gap, isBlank c = true) →
      2 * (listed (style.lineBreak depth).toList (writeMembers style depth members)).length ≤ n →
      scanMembers (n + 2) (listed (style.lineBreak depth).toList (writeMembers style depth members) ++
        (gap ++ '\x7d' :: rest)) = some (members, rest)
  | [] => absurd rfl
  | (key, j) :: more => by
    intro _ h depth n gap rest hgap hn
    have hvalue := scanValue_write hstyle j h.2.1 depth
    have hmembers := scanMembers_write hstyle more
    obtain ⟨key, rfl⟩ := Option.isSome_iff_exists.mp h.1
    obtain ⟨space, hcolon, hspace⟩ := hstyle.colon
    cases more with
    | nil =>
      rw [writeMembers, writeMembers, listed_singleton, String.toList_append, String.toList_append,
        hcolon, Option.getD_some] at hn ⊢
      simp only [List.length_append, List.length_cons] at hn
      have hj := hvalue n (gap ++ '\x7d' :: rest) ((delimited_cons (by simp) rest).of_gap hgap) (by omega)
      rw [← scanValue_append hspace] at hj
      have hlast := scanMembers_last key hj (by rw [skipBlank_append hgap]; rfl)
      simpa using hlast
    | cons k more =>
      rw [writeMembers, listed_cons _ _ (by simp [writeMembers]), String.toList_append,
        String.toList_append, hcolon, Option.getD_some] at hn ⊢
      simp only [List.length_append, List.length_cons] at hn
      obtain ⟨m, rfl⟩ : ∃ m, n = m + 1 := ⟨n - 1, by omega⟩
      have hmore := hmembers (by simp) h.2.2 depth m gap rest hgap (by omega)
      rw [← scanMembers_append (hstyle.lineBreak depth)] at hmore
      have hj := hvalue (m + 1) (',' :: ((style.lineBreak depth).toList ++
        (listed (style.lineBreak depth).toList (writeMembers style depth (k :: more)) ++
          (gap ++ '\x7d' :: rest)))) (delimited_cons (by simp) _) (by omega)
      rw [← scanValue_append hspace] at hj
      simpa using scanMembers_more key hj hmore

end

/-- A value is read from its text, whatever blanks the style adds. -/
theorem parse?_write (hstyle : style.Blank) {j : Json} (h : j.Plain) (depth : Nat) :
    parse? (write style depth j) = some j := by
  have hscan := scanValue_write hstyle j h depth (2 * (write style depth j).toList.length + 1) []
    (by simp [Delimited]) (Nat.le_succ _)
  rw [List.append_nil] at hscan
  rw [parse?]
  dsimp only
  rw [hscan]
  rfl

end

end Json

end VersionWeave
