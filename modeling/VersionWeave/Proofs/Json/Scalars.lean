import VersionWeave.Json.Reader
import VersionWeave.Json.Writer

namespace VersionWeave

namespace Json

theorem hexValue?_digitChar : ∀ n < 16, hexValue? n.digitChar = some n := by
  decide

theorem hexUnit?_low {n : Nat} (h : n < 0x20) :
    hexUnit? '0' '0' (n / 16).digitChar (n % 16).digitChar = some n := by
  have hzero : hexValue? '0' = some 0 := rfl
  rw [hexUnit?, hzero, hexValue?_digitChar _ (by omega), hexValue?_digitChar _ (by omega)]
  exact congrArg some (by omega : ((0 * 16 + 0) * 16 + n / 16) * 16 + n % 16 = n)

/-- A character is escaped by a letter, by its number, or not at all. -/
theorem escapeChar_cases (c : Char) :
    (∃ e, simpleEscape? e = some c ∧ escapeChar c = ['\\', e]) ∨
      (c.toNat < 0x20 ∧ escapeChar c =
        ['\\', 'u', '0', '0', (c.toNat / 16).digitChar, (c.toNat % 16).digitChar]) ∨
      (c ≠ '"' ∧ c ≠ '\\' ∧ ¬ c.toNat < 0x20 ∧ escapeChar c = [c]) := by
  unfold escapeChar
  iterate 7 (split; next h => exact .inl ⟨_, by subst h; rfl, rfl⟩)
  split
  next hlow => exact .inr (.inl ⟨hlow, rfl⟩)
  next hlow => exact .inr (.inr ⟨‹_›, ‹_›, hlow, rfl⟩)

/-- What a piece stands for; a code unit that is written never belongs to a pair. -/
def Piece.Spells (c : Char) : Piece → Prop
  | .char d => d = c
  | .unit code => code = c.toNat ∧ code < 0x20

theorem exists_piece (c : Char) : ∃ p : Piece, p.Spells c ∧ ∀ cs,
    scanPieces (escapeChar c ++ cs) = (scanPieces cs).map fun found => (p :: found.1, found.2) := by
  rcases escapeChar_cases c with ⟨e, he, hc⟩ | ⟨hlow, hc⟩ | ⟨hquote, hslash, hlow, hc⟩
  · refine ⟨.char c, rfl, fun cs => ?_⟩
    have hu : e ≠ 'u' := fun h => by rw [h] at he; cases he
    rw [hc, List.cons_append, List.cons_append, List.nil_append, scanPieces, he]
    · cases scanPieces cs <;> rfl
    · exact fun _ _ _ _ _ h _ => hu h
  · refine ⟨.unit c.toNat, ⟨rfl, hlow⟩, fun cs => ?_⟩
    rw [hc]
    simp only [List.cons_append, List.nil_append, scanPieces]
    rw [hexUnit?_low hlow]
    cases scanPieces cs <;> rfl
  · refine ⟨.char c, rfl, fun cs => ?_⟩
    rw [hc, List.cons_append, List.nil_append, scanPieces, if_neg hlow]
    · cases scanPieces cs <;> rfl
    · exact hquote
    · exact fun _ _ _ _ _ h _ => hslash h
    · exact fun _ _ h _ => hslash h

theorem joinPieces?_cons {p : Piece} {c : Char} (h : p.Spells c) (pieces : List Piece) :
    joinPieces? (p :: pieces) = (joinPieces? pieces).map (c :: ·) := by
  cases p with
  | char d => rw [joinPieces?, show d = c from h]
  | unit code =>
    obtain ⟨rfl, hlow⟩ := h
    have hhigh : isHighSurrogate c.toNat = false := by simp [isHighSurrogate]; omega
    have hlow' : isLowSurrogate c.toNat = false := by simp [isLowSurrogate]; omega
    cases pieces with
    | nil => simp [joinPieces?, hhigh, hlow', Char.ofNat_toNat]
    | cons q rest =>
      cases q <;> simp [joinPieces?, hhigh, hlow', Char.ofNat_toNat]

/-- A string is read as it was before it was written. -/
theorem scanString_escaped (s : String) (rest : List Char) :
    scanString (s.toList.flatMap escapeChar ++ '"' :: rest) = some (some s, rest) := by
  have hpieces : ∀ cs : List Char, ∃ pieces,
      scanPieces (cs.flatMap escapeChar ++ '"' :: rest) = some (pieces, rest) ∧
        joinPieces? pieces = some cs := by
    intro cs
    induction cs with
    | nil => exact ⟨[], rfl, rfl⟩
    | cons c cs ih =>
      obtain ⟨pieces, hscan, hjoin⟩ := ih
      obtain ⟨p, hp, hc⟩ := exists_piece c
      refine ⟨p :: pieces, ?_, ?_⟩
      · rw [List.flatMap_cons, List.append_assoc, hc, hscan]
        rfl
      · rw [joinPieces?_cons hp, hjoin]
        rfl
  obtain ⟨pieces, hscan, hjoin⟩ := hpieces s.toList
  rw [scanString, hscan]
  dsimp only [bind, Option.bind, pure]
  rw [hjoin, Option.map_some, String.ofList_toList]

theorem toList_quote (s : String) :
    (quote s).toList = '"' :: (s.toList.flatMap escapeChar ++ ['"']) := by
  rw [quote, String.toList_ofList]
  rfl

theorem eq_of_isBlank {c : Char} (h : isBlank c = true) :
    c = ' ' ∨ c = '\n' ∨ c = '\t' ∨ c = '\r' := by
  simpa [isBlank, or_assoc] using h

/-- What may follow a value: nothing, a blank, a comma or a closing bracket. -/
def Delimited (rest : List Char) : Prop :=
  ∀ c, rest.head? = some c → isBlank c = true ∨ c = ',' ∨ c = ']' ∨ c = '\x7d'

theorem Delimited.not_isDigit {rest : List Char} (h : Delimited rest) {c : Char}
    (hc : rest.head? = some c) : c.isDigit = false ∧ c ≠ '.' ∧ c ≠ 'e' ∧ c ≠ 'E' := by
  rcases h c hc with hblank | rfl | rfl | rfl
  · rcases eq_of_isBlank hblank with rfl | rfl | rfl | rfl <;> decide
  all_goals decide

theorem scanDigits_append {digits rest : List Char} (hne : digits ≠ [])
    (hdigits : ∀ c ∈ digits, c.isDigit = true) (hrest : Delimited rest) :
    scanDigits (digits ++ rest) = some (digits, rest) := by
  have hstop : rest.takeWhile Char.isDigit = [] ∧ rest.dropWhile Char.isDigit = rest := by
    cases rest with
    | nil => exact ⟨rfl, rfl⟩
    | cons c rest =>
      have hc := (hrest.not_isDigit rfl).1
      simp [hc]
  rw [scanDigits, List.takeWhile_append_of_pos hdigits, List.dropWhile_append_of_pos hdigits,
    hstop.1, hstop.2, List.append_nil]
  simp [hne]

theorem isDigit_of_mem_toDigits {n : Nat} {c : Char} (h : c ∈ Nat.toDigits 10 n) :
    c.isDigit = true :=
  Nat.isDigit_of_mem_toDigits (by decide) (by decide) h

theorem exists_toDigits (n : Nat) : ∃ c digits, Nat.toDigits 10 n = c :: digits ∧
    c.isDigit = true := by
  obtain ⟨c, digits, hd⟩ := List.exists_cons_of_ne_nil (Nat.toDigits_ne_nil (n := n) (b := 10))
  exact ⟨c, digits, hd, isDigit_of_mem_toDigits (hd ▸ List.mem_cons_self)⟩

/-- The digits of a number start with a zero only when they are nothing else. -/
theorem head?_toDigits {n : Nat} (h : 0 < n) : (Nat.toDigits 10 n).head? ≠ some '0' := by
  induction n using Nat.strongRecOn with
  | ind n ih =>
    rw [Nat.toDigits_eq_if (by decide)]
    split
    next hlt =>
      intro hzero
      have := Nat.digitChar_eq_zero.mp (Option.some.inj hzero)
      omega
    next hge =>
      have hdiv : 0 < n / 10 := by omega
      rw [List.head?_append, Option.or_of_isSome (by simp [Nat.toDigits_ne_nil])]
      exact ih (n / 10) (by omega) hdiv

theorem scanInteger_toDigits (n : Nat) {rest : List Char} (hrest : Delimited rest) :
    scanInteger (Nat.toDigits 10 n ++ rest) = some (Nat.toDigits 10 n, rest) := by
  by_cases hn : n = 0
  · subst hn
    rw [Nat.toDigits_zero]
    cases rest with
    | nil => rfl
    | cons c rest => simp [scanInteger, (hrest.not_isDigit rfl).1]
  · obtain ⟨c, digits, hd, -⟩ := exists_toDigits n
    have hhead := head?_toDigits (Nat.pos_of_ne_zero hn)
    rw [scanInteger]
    · exact scanDigits_append Nat.toDigits_ne_nil (fun c hc => isDigit_of_mem_toDigits hc) hrest
    · intro rest' h
      rw [hd] at h hhead
      exact hhead (congrArg some (List.cons.inj h).1)

theorem scanUnsigned_toDigits {negative : Bool} {n : Nat} (h : negative = true → n ≠ 0)
    {rest : List Char} (hrest : Delimited rest) :
    scanUnsigned negative (Nat.toDigits 10 n ++ rest) =
      some (.int (if negative then -(n : Int) else n), rest) := by
  have hfraction : scanFraction rest = some ([], rest) := by
    cases rest with
    | nil => rfl
    | cons c rest =>
      rw [scanFraction]
      exact fun _ hc => (hrest.not_isDigit rfl).2.1 (List.cons.inj hc).1
  have hexponent : scanExponent rest = some ([], rest) := by
    cases rest with
    | nil => rfl
    | cons c rest => simp [scanExponent, (hrest.not_isDigit rfl).2.2]
  rw [scanUnsigned, scanInteger_toDigits n hrest]
  dsimp only [bind, Option.bind]
  rw [hfraction]
  dsimp only
  rw [hexponent]
  dsimp only
  rw [Nat.ofDigitChars_ten_toDigits, if_pos]
  · rfl
  · cases negative with
    | false => rfl
    | true => simp [h rfl]

theorem scanNumber_repr (i : Int) {rest : List Char} (hrest : Delimited rest) :
    scanNumber (i.repr.toList ++ rest) = some (.int i, rest) := by
  cases i with
  | ofNat n =>
    obtain ⟨c, digits, hd, hc⟩ := exists_toDigits n
    rw [Int.repr, Nat.toList_repr, scanNumber]
    · exact scanUnsigned_toDigits (by simp) hrest
    · intro rest' h
      rw [hd] at h
      rw [(List.cons.inj h).1] at hc
      cases hc
  | negSucc n =>
    rw [Int.repr, String.toList_append, Nat.toList_repr]
    exact scanUnsigned_toDigits (fun _ => Nat.succ_ne_zero n) hrest

/-- A written number starts as no other value does. -/
theorem exists_repr (i : Int) : ∃ c cs, i.repr.toList = c :: cs ∧ (c = '-' ∨ c.isDigit = true) := by
  cases i with
  | ofNat n =>
    obtain ⟨c, digits, hd, hc⟩ := exists_toDigits n
    rw [Int.repr, Nat.toList_repr]
    exact ⟨c, digits, hd, .inr hc⟩
  | negSucc n => exact ⟨'-', _, by rw [Int.repr, String.toList_append]; rfl, .inl rfl⟩

end Json

end VersionWeave
