import VersionWeave.Proofs.Json.Values

namespace VersionWeave

namespace Json

/-- Where in a text we are: between values, in a string, or after a backslash in one. -/
inductive Place where
  | outside
  | inside
  | escaped

/-- The most brackets open at once in a text before which some are open; strings have none. -/
def nestingFrom : Place → Nat → List Char → Nat
  | _, opened, [] => opened
  | .inside, opened, c :: cs =>
    if c = '"' then nestingFrom .outside opened cs
    else if c = '\\' then nestingFrom .escaped opened cs
    else nestingFrom .inside opened cs
  | .escaped, opened, _ :: cs => nestingFrom .inside opened cs
  | .outside, opened, c :: cs =>
    if c = '"' then nestingFrom .inside opened cs
    else if c = '[' ∨ c = '\x7b' then nestingFrom .outside (opened + 1) cs
    else if c = ']' ∨ c = '\x7d' then max opened (nestingFrom .outside (opened - 1) cs)
    else nestingFrom .outside opened cs

def nesting (text : String) : Nat :=
  nestingFrom .outside 0 text.toList

mutual

/-- How deep the arrays and objects of a value stand in each other. -/
def depth : Json → Nat
  | .arr items => depthItems items + 1
  | .obj members => depthMembers members + 1
  | .null | .bool _ | .int _ | .real _ | .str _ | .noText => 0

def depthItems : List Json → Nat
  | [] => 0
  | j :: rest => max j.depth (depthItems rest)

def depthMembers : List (Option String × Json) → Nat
  | [] => 0
  | m :: rest => max m.2.depth (depthMembers rest)

end

theorem le_nestingFrom (place : Place) (opened : Nat) (cs : List Char) :
    opened ≤ nestingFrom place opened cs := by
  induction cs generalizing place opened with
  | nil => cases place <;> exact Nat.le_refl _
  | cons c cs ih =>
    cases place with
    | escaped => exact ih .inside opened
    | inside =>
      rw [nestingFrom]
      split
      next => exact ih .outside opened
      next => split <;> exact ih _ opened
    | outside =>
      have hopen := ih .outside (opened + 1)
      rw [nestingFrom]
      split
      next => exact ih .inside opened
      next =>
        split
        next => omega
        next =>
          split
          next => exact Nat.le_max_left _ _
          next => exact ih .outside opened

theorem eq_max_nestingFrom (place : Place) (opened : Nat) (cs : List Char) :
    nestingFrom place opened cs = max (opened + 0) (nestingFrom place opened cs) :=
  (Nat.max_eq_right (le_nestingFrom place opened cs)).symm

/-- A character that neither opens nor closes anything. -/
def isIdle (c : Char) : Bool :=
  c ∉ ['"', '[', ']', '\x7b', '\x7d']

theorem nestingFrom_idle {cs : List Char} (h : ∀ c ∈ cs, isIdle c = true) (opened : Nat)
    (rest : List Char) : nestingFrom .outside opened (cs ++ rest) = nestingFrom .outside opened rest := by
  induction cs with
  | nil => rfl
  | cons c cs ih =>
    obtain ⟨hc, hcs⟩ := List.forall_mem_cons.mp h
    simp [isIdle] at hc
    rw [List.cons_append, nestingFrom]
    simp [hc, ih hcs]

theorem isIdle_of_isBlank {c : Char} (h : isBlank c = true) : isIdle c = true := by
  rcases eq_of_isBlank h with rfl | rfl | rfl | rfl <;> decide

theorem digitChar_ne : ∀ n < 16, n.digitChar ≠ '"' ∧ n.digitChar ≠ '\\' := by
  decide

theorem nestingFrom_escapeChar (c : Char) (opened : Nat) (rest : List Char) :
    nestingFrom .inside opened (escapeChar c ++ rest) = nestingFrom .inside opened rest := by
  rcases escapeChar_cases c with ⟨e, -, hc⟩ | ⟨hlow, hc⟩ | ⟨hquote, hslash, -, hc⟩
  · rw [hc]
    rfl
  · have hhigh := digitChar_ne (c.toNat / 16) (by omega)
    have hrest := digitChar_ne (c.toNat % 16) (by omega)
    rw [hc]
    simp [nestingFrom, hhigh, hrest]
  · rw [hc]
    simp [nestingFrom, hquote, hslash]

theorem nestingFrom_quote (s : String) (opened : Nat) (rest : List Char) :
    nestingFrom .outside opened ((quote s).toList ++ rest) = nestingFrom .outside opened rest := by
  have hinside : ∀ cs : List Char, nestingFrom .inside opened (cs.flatMap escapeChar ++ '"' :: rest) =
      nestingFrom .outside opened rest := by
    intro cs
    induction cs with
    | nil => rfl
    | cons c cs ih => rw [List.flatMap_cons, List.append_assoc, nestingFrom_escapeChar, ih]
  rw [toList_quote, ← hinside s.toList]
  simp [nestingFrom]

theorem nestingFrom_comma (opened : Nat) (rest : List Char) :
    nestingFrom .outside opened (',' :: rest) = nestingFrom .outside opened rest := by
  simp [nestingFrom]

theorem isIdle_of_isDigit {c : Char} (h : c.isDigit = true) : isIdle c = true := by
  refine decide_eq_true fun hmem => ?_
  have hcases : c = '"' ∨ c = '[' ∨ c = ']' ∨ c = '\x7b' ∨ c = '\x7d' := by simpa using hmem
  rcases hcases with rfl | rfl | rfl | rfl | rfl <;> cases h

theorem isIdle_repr (i : Int) : ∀ c ∈ i.repr.toList, isIdle c = true := by
  have hdigits : ∀ n : Nat, ∀ c ∈ n.repr.toList, isIdle c = true := by
    intro n c hc
    rw [Nat.toList_repr] at hc
    exact isIdle_of_isDigit (isDigit_of_mem_toDigits hc)
  cases i with
  | ofNat n => exact hdigits n
  | negSucc n =>
    rw [Int.repr, String.toList_append]
    exact List.forall_mem_append.mpr ⟨by simp [isIdle], hdigits (n + 1)⟩

section

variable {style : Style} (hstyle : style.Blank)
include hstyle

theorem nestingFrom_lineBreak (depth opened : Nat) (rest : List Char) :
    nestingFrom .outside opened ((style.lineBreak depth).toList ++ rest) =
      nestingFrom .outside opened rest :=
  nestingFrom_idle (fun c hc => isIdle_of_isBlank (hstyle.lineBreak depth c hc)) opened rest

/-- A pair of brackets adds one to what is open around its items. -/
theorem nestingFrom_enclose {opening closing : String} {texts : List String} {d opened inner : Nat}
    (hopen : opening = "[" ∧ closing = "]" ∨ opening = "\x7b" ∧ closing = "\x7d")
    (htexts : texts ≠ []) (hinner : ∀ rest, nestingFrom .outside (opened + 1)
      (listed (style.lineBreak (d + 1)).toList texts ++ rest) =
        max (opened + 1 + inner) (nestingFrom .outside (opened + 1) rest)) (rest : List Char) :
    nestingFrom .outside opened ((enclose style d opening closing texts).toList ++ rest) =
      max (opened + (inner + 1)) (nestingFrom .outside opened rest) := by
  have hbrackets : ∀ cs, nestingFrom .outside opened (opening.toList ++ cs) =
        nestingFrom .outside (opened + 1) cs ∧
      nestingFrom .outside (opened + 1) (closing.toList ++ cs) =
        max (opened + 1) (nestingFrom .outside opened cs) := by
    intro cs
    rcases hopen with ⟨rfl, rfl⟩ | ⟨rfl, rfl⟩ <;> simp [nestingFrom]
  rw [toList_enclose _ _ _ _ htexts]
  simp only [List.append_assoc]
  -- The closing bracket counts what is open around it even where the items count nothing.
  rw [(hbrackets _).1, nestingFrom_lineBreak hstyle, hinner, nestingFrom_lineBreak hstyle,
    (hbrackets _).2]
  omega

mutual

theorem nestingFrom_write : ∀ j : Json, j.Plain → ∀ (d opened : Nat) (rest : List Char),
    nestingFrom .outside opened ((write style d j).toList ++ rest) =
      max (opened + j.depth) (nestingFrom .outside opened rest)
  | .null => by
    intro _ d opened rest
    rw [write, nestingFrom_idle (by simp [isIdle]), depth]
    exact eq_max_nestingFrom _ _ _
  | .bool true => by
    intro _ d opened rest
    rw [write, nestingFrom_idle (by simp [isIdle]), depth]
    exact eq_max_nestingFrom _ _ _
  | .bool false => by
    intro _ d opened rest
    rw [write, nestingFrom_idle (by simp [isIdle]), depth]
    exact eq_max_nestingFrom _ _ _
  | .int i => by
    intro _ d opened rest
    rw [write, nestingFrom_idle (isIdle_repr i), depth]
    exact eq_max_nestingFrom _ _ _
  | .real _ => False.elim
  | .str s => by
    intro _ d opened rest
    rw [write, nestingFrom_quote, depth]
    exact eq_max_nestingFrom _ _ _
  | .noText => False.elim
  | .arr items => by
    intro h d opened rest
    have hitems := nestingFrom_items items h (d + 1) (opened + 1)
    rw [write, depth]
    cases items with
    | nil => simp [writeItems, enclose, nestingFrom, depthItems]
    | cons j items =>
      exact nestingFrom_enclose hstyle (.inl ⟨rfl, rfl⟩) (by simp [writeItems]) hitems rest
  | .obj members => by
    intro h d opened rest
    have hmembers := nestingFrom_members members h (d + 1) (opened + 1)
    rw [write, depth]
    cases members with
    | nil => simp [writeMembers, enclose, nestingFrom, depthMembers]
    | cons m members =>
      exact nestingFrom_enclose hstyle (.inr ⟨rfl, rfl⟩) (by simp [writeMembers]) hmembers rest

theorem nestingFrom_items : ∀ items : List Json, PlainItems items →
    ∀ (d opened : Nat) (rest : List Char), nestingFrom .outside opened
      (listed (style.lineBreak d).toList (writeItems style d items) ++ rest) =
        max (opened + depthItems items) (nestingFrom .outside opened rest)
  | [] => fun _ _ _ _ => eq_max_nestingFrom _ _ _
  | j :: more => by
    intro h d opened rest
    have hvalue := nestingFrom_write j h.1 d opened
    have hitems := nestingFrom_items more h.2 d opened
    rw [writeItems, depthItems]
    cases more with
    | nil => rw [writeItems, listed_singleton, hvalue, depthItems, Nat.max_zero]
    | cons k more =>
      rw [listed_cons _ _ (by simp [writeItems]), List.append_assoc, hvalue, List.cons_append,
        nestingFrom_comma, List.append_assoc, nestingFrom_lineBreak hstyle, hitems]
      omega

theorem nestingFrom_members : ∀ members : List (Option String × Json), PlainMembers members →
    ∀ (d opened : Nat) (rest : List Char), nestingFrom .outside opened
      (listed (style.lineBreak d).toList (writeMembers style d members) ++ rest) =
        max (opened + depthMembers members) (nestingFrom .outside opened rest)
  | [] => fun _ _ _ _ => eq_max_nestingFrom _ _ _
  | (key, j) :: more => by
    intro h d opened rest
    have hvalue : ∀ text rest, nestingFrom .outside opened
        ((quote text ++ style.colon ++ write style d j).toList ++ rest) =
          max (opened + j.depth) (nestingFrom .outside opened rest) := by
      intro text rest
      obtain ⟨space, hcolon, hspace⟩ := hstyle.colon
      have hidle : ∀ c ∈ style.colon.toList, isIdle c = true := by
        rw [hcolon]
        exact List.forall_mem_cons.mpr ⟨by decide, fun c hc => isIdle_of_isBlank (hspace c hc)⟩
      rw [String.toList_append, String.toList_append, List.append_assoc, List.append_assoc,
        nestingFrom_quote, nestingFrom_idle hidle, nestingFrom_write j h.2.1 d opened]
    have hmembers := nestingFrom_members more h.2.2 d opened
    rw [writeMembers, depthMembers]
    dsimp only
    cases more with
    | nil => rw [writeMembers, listed_singleton, hvalue, depthMembers, Nat.max_zero]
    | cons k more =>
      rw [listed_cons _ _ (by simp [writeMembers]), List.append_assoc, hvalue, List.cons_append,
        nestingFrom_comma, List.append_assoc, nestingFrom_lineBreak hstyle, hmembers]
      omega

end

/-- The brackets of a text nest as deep as the value it holds. -/
theorem nesting_write {j : Json} (h : j.Plain) (d : Nat) : nesting (write style d j) = j.depth := by
  have hall := nestingFrom_write hstyle j h d 0 []
  rw [List.append_nil, Nat.zero_add] at hall
  exact hall.trans (Nat.max_eq_left (Nat.zero_le _))

end

end Json

end VersionWeave
