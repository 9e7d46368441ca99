import VersionWeave.Tree.Source

namespace VersionWeave

namespace Escape

/-- The escape pairs: the character after the backslash, and what the pair stands for. -/
def pairs (quote : Char) : List (Char × Char) :=
  [('\\', '\\'), ('n', '\n'), ('r', '\r'), ('t', '\t'), (quote, quote)]

/-- The character stands for itself between two quotes. -/
def IsPlain (quote c : Char) : Prop :=
  c ≠ '\\' ∧ c ≠ quote ∧ c ≠ '\n' ∧ c ≠ '\r' ∧ c ≠ '\t'

instance (quote c : Char) : Decidable (IsPlain quote c) :=
  inferInstanceAs (Decidable (_ ∧ _))

/-- A text taken apart from left to right: a backslash goes with the character after it. -/
def units : List Char → List (List Char)
  | [] => []
  | [c] => [[c]]
  | c :: d :: rest => if c = '\\' then [c, d] :: units rest else [c] :: units (d :: rest)

/-- What a unit stands for, if it is an escape pair or a plain character. -/
def meaning? (quote : Char) : List Char → Option Char
  | [c] => if IsPlain quote c then some c else none
  | [b, d] => if b = '\\' then (pairs quote).lookup d else none
  | _ => none

def unescape? (quote : Char) (text : List Char) : Option (List Char) :=
  (units text).mapM (meaning? quote)

/--
Reads a quoted text that the input begins with, up to the first quote after the opening one that
belongs to no pair: what it says, and what of the input is left.
-/
def readQuoted? (quote : Char) : List Char → Option (List Char × List Char)
  | [] => none
  | c :: rest =>
    if c = quote then
      match (units rest).dropWhile (· ≠ [quote]) with
      | [] => none
      | _ :: after =>
        (((units rest).takeWhile (· ≠ [quote])).mapM (meaning? quote)).map (·, after.flatten)
    else none

/-- Nothing of a text is lost when it is taken apart. -/
theorem flatten_units (text : List Char) : (units text).flatten = text := by
  induction text using units.induct with
  | case1 => rfl
  | case2 c => rfl
  | case3 d rest ih => rw [units, if_pos rfl, List.flatten_cons, ih]; rfl
  | case4 c d rest hc ih => rw [units, if_neg hc, List.flatten_cons, ih]; rfl

theorem escapeQuoted_spec (quote c : Char) : (escapeQuoted quote c = [c] ∧ IsPlain quote c) ∨
    ∃ d, (d, c) ∈ pairs quote ∧ escapeQuoted quote c = ['\\', d] := by
  unfold escapeQuoted
  split
  next h => exact .inr ⟨'\\', by simp [pairs, h], rfl⟩
  next hback =>
    split
    next h => exact .inr ⟨'n', by simp [pairs, h], rfl⟩
    next hbreak =>
      split
      next h => exact .inr ⟨'r', by simp [pairs, h], rfl⟩
      next hreturn =>
        split
        next h => exact .inr ⟨'t', by simp [pairs, h], rfl⟩
        next htab =>
          split
          next h => exact .inr ⟨c, by simp [pairs, h], rfl⟩
          next hquote => exact .inl ⟨rfl, hback, hquote, hbreak, hreturn, htab⟩

/-- An escaped character is one unit, whatever comes after it. -/
theorem units_escapeQuoted_append (quote c : Char) (k : List Char) :
    units (escapeQuoted quote c ++ k) = escapeQuoted quote c :: units k := by
  rcases escapeQuoted_spec quote c with ⟨hc, hback, -⟩ | ⟨d, -, hc⟩
  · rw [hc]
    cases k with
    | nil => rfl
    | cons d rest => exact if_neg hback
  · rw [hc]
    exact if_pos rfl

theorem units_escaped_append (quote : Char) (s k : List Char) :
    units (s.flatMap (escapeQuoted quote) ++ k) = s.map (escapeQuoted quote) ++ units k := by
  induction s with
  | nil => rfl
  | cons c rest ih =>
    rw [List.flatMap_cons, List.append_assoc, units_escapeQuoted_append, ih]
    rfl

theorem units_escaped (quote : Char) (s : List Char) :
    units (s.flatMap (escapeQuoted quote)) = s.map (escapeQuoted quote) := by
  have h := units_escaped_append quote s []
  rwa [List.append_nil, units, List.append_nil] at h

section

variable {quote : Char} (hquote : quote = '"' ∨ quote = '\'')
include hquote

theorem meaning?_escapeQuoted (c : Char) : meaning? quote (escapeQuoted quote c) = some c := by
  rcases escapeQuoted_spec quote c with ⟨hc, hplain⟩ | ⟨d, hd, hc⟩
  · rw [hc]
    exact if_pos hplain
  · rw [hc, meaning?, if_pos rfl]
    simp only [pairs, List.mem_cons, Prod.mk.injEq, List.not_mem_nil, or_false] at hd
    rcases hquote with rfl | rfl <;>
      rcases hd with ⟨rfl, rfl⟩ | ⟨rfl, rfl⟩ | ⟨rfl, rfl⟩ | ⟨rfl, rfl⟩ | ⟨rfl, rfl⟩ <;> rfl

/-- No raw line break, return or tab is part of an escape pair. -/
theorem notRaw_of_mem_pairs {p : Char × Char} (hp : p ∈ pairs quote) :
    p.1 ≠ '\n' ∧ p.1 ≠ '\r' ∧ p.1 ≠ '\t' := by
  simp only [pairs, List.mem_cons, List.not_mem_nil, or_false] at hp
  rcases hquote with rfl | rfl <;> rcases hp with rfl | rfl | rfl | rfl | rfl <;> decide

theorem mapM_meaning?_escaped (s : List Char) :
    (s.map (escapeQuoted quote)).mapM (meaning? quote) = some s := by
  induction s with
  | nil => rfl
  | cons c rest ih =>
    rw [List.map_cons, List.mapM_cons, meaning?_escapeQuoted hquote, ih]
    rfl

omit hquote in
theorem escapeQuoted_ne_quote (c : Char) : escapeQuoted quote c ≠ [quote] := by
  intro h
  rcases escapeQuoted_spec quote c with ⟨hc, -, hne, -⟩ | ⟨d, -, hc⟩
  · exact hne (List.singleton_inj.mp (hc.symm.trans h))
  · cases hc.symm.trans h

/-- A quoted text is read to its closing quote, and what it says is what was written. -/
theorem readQuoted?_quoted_append (s rest : List Char) :
    readQuoted? quote ((quoted quote s).toList ++ rest) = some (s, rest) := by
  have htext : (quoted quote s).toList ++ rest =
      quote :: (s.flatMap (escapeQuoted quote) ++ quote :: rest) := by
    rw [quoted, String.toList_ofList, List.append_assoc]
    rfl
  have hunits : units (quote :: rest) = [quote] :: units rest := by
    cases rest with
    | nil => rfl
    | cons d rest => exact if_neg (by rcases hquote with rfl | rfl <;> decide)
  have hinside : ∀ unit ∈ s.map (escapeQuoted quote), decide (unit ≠ [quote]) = true := by
    intro unit hunit
    obtain ⟨c, -, rfl⟩ := List.mem_map.mp hunit
    exact decide_eq_true (escapeQuoted_ne_quote c)
  rw [htext, readQuoted?, if_pos rfl, units_escaped_append, hunits,
    List.dropWhile_append_of_pos hinside, List.takeWhile_append_of_pos hinside,
    List.dropWhile_cons_of_neg (by simp), List.takeWhile_cons_of_neg (by simp), List.append_nil,
    mapM_meaning?_escaped hquote]
  exact congrArg (fun left => some (s, left)) (flatten_units rest)

end

/--
What is written between two quotes holds no raw line break, return or tab, and neither the quote nor
a backslash outside an escape pair. Read back from left to right it is the text itself, and a string
or character literal ends at its closing quote, whatever comes after it.
-/
theorem escaped_safe_and_reversible {quote : Char} (hquote : quote = '"' ∨ quote = '\'')
    (s : String) :
    let text := s.toList.flatMap (escapeQuoted quote)
    (∀ c ∈ text, c ≠ '\n' ∧ c ≠ '\r' ∧ c ≠ '\t') ∧
    (∀ unit ∈ units text, (∃ c, unit = [c] ∧ c ≠ '\\' ∧ c ≠ quote) ∨
      ∃ p ∈ pairs quote, unit = ['\\', p.1]) ∧
    unescape? quote text = some s.toList ∧
    (∀ rest, readQuoted? quote ((quoted quote s.toList).toList ++ rest) = some (s.toList, rest)) ∧
    (∀ rest, readQuoted? '"' ((Literal.str s).source.toList ++ rest) = some (s.toList, rest)) ∧
    ∀ c rest, readQuoted? '\'' ((Literal.char c).source.toList ++ rest) = some ([c], rest) := by
  dsimp only
  refine ⟨fun c hc => ?_, fun unit hunit => ?_, ?_, readQuoted?_quoted_append hquote s.toList,
    readQuoted?_quoted_append (.inl rfl) s.toList, fun c => readQuoted?_quoted_append (.inr rfl) [c]⟩
  · obtain ⟨d, -, hc⟩ := List.mem_flatMap.mp hc
    rcases escapeQuoted_spec quote d with ⟨hd, hplain⟩ | ⟨e, he, hd⟩
    · rw [hd, List.mem_singleton] at hc
      exact hc ▸ hplain.2.2
    · rw [hd, List.mem_cons, List.mem_singleton] at hc
      rcases hc with rfl | rfl
      · decide
      · exact notRaw_of_mem_pairs hquote he
  · rw [units_escaped] at hunit
    obtain ⟨c, -, rfl⟩ := List.mem_map.mp hunit
    rcases escapeQuoted_spec quote c with ⟨hc, hback, hne, -⟩ | ⟨d, hd, hc⟩
    · exact .inl ⟨c, hc, hback, hne⟩
    · exact .inr ⟨(d, c), hd, hc⟩
  · rw [unescape?, units_escaped, mapM_meaning?_escaped hquote]

/-- A backslash and a quote, then a backslash at the end, before what looks like another string. -/
theorem escaped_safe_and_reversible_backslashes :
    units ("\\\"\\".toList.flatMap (escapeQuoted '"')) = [['\\', '\\'], ['\\', '"'], ['\\', '\\']] ∧
    unescape? '"' ("\\\"\\".toList.flatMap (escapeQuoted '"')) = some "\\\"\\".toList ∧
    readQuoted? '"' ((Literal.str "\\\"\\").source.toList ++ "+ \"b\"".toList) =
      some ("\\\"\\".toList, "+ \"b\"".toList) := by
  obtain ⟨-, -, hread, -, hends, -⟩ := escaped_safe_and_reversible (.inl rfl) "\\\"\\"
  exact ⟨by decide, hread, hends _⟩

end Escape

end VersionWeave
