import VersionWeave.Proofs.Version

namespace VersionWeave

namespace Version

theorem ordinalOfDigits?_eq_some {digits : List Char} {n : UInt32} :
    ordinalOfDigits? digits = some n ↔ digits ≠ [] ∧ (∀ c ∈ digits, c.isDigit = true) ∧
      Nat.ofDigitChars 10 digits 0 = n.toNat := by
  have hrefused : (digits.isEmpty || !digits.all Char.isDigit) = true ↔
      ¬ (digits ≠ [] ∧ ∀ c ∈ digits, c.isDigit = true) := by
    simp [Classical.or_iff_not_imp_left]
  unfold ordinalOfDigits?
  by_cases hdigits : digits ≠ [] ∧ ∀ c ∈ digits, c.isDigit = true
  · rw [if_neg fun h => hrefused.mp h hdigits]
    dsimp only
    rw [Option.ite_none_right_eq_some, Option.some.injEq]
    constructor
    · rintro ⟨hlt, rfl⟩
      exact ⟨hdigits.1, hdigits.2, (UInt32.toNat_ofNat_of_lt hlt).symm⟩
    · rintro ⟨-, -, hvalue⟩
      rw [hvalue]
      exact ⟨n.toNat_lt, UInt32.ofNat_toNat⟩
  · rw [if_pos (hrefused.mpr hdigits)]
    constructor
    · intro h
      cases h
    · rintro ⟨hne, hall, -⟩
      exact absurd ⟨hne, hall⟩ hdigits

end Version

namespace Marker

/-- A name is taken apart into a base in one line and digits between two separators. -/
structure Splits (separator name base digits : List Char) : Prop where
  base_ne : base ≠ []
  oneLine : '\n' ∉ base
  digits_ne : digits ≠ []
  areDigits : ∀ c ∈ digits, c.isDigit = true
  name_eq : name = base ++ separator ++ digits ++ separator

section

variable {separator name base base' digits digits' : List Char}

theorem splits_iff : Splits separator name base digits ↔ base ≠ [] ∧ '\n' ∉ base ∧ digits ≠ [] ∧
    digits.all Char.isDigit = true ∧ name = base ++ separator ++ digits ++ separator := by
  rw [List.all_eq_true]
  constructor
  · rintro ⟨hbase, hline, hdigits, hall, hname⟩
    exact ⟨hbase, hline, hdigits, hall, hname⟩
  · rintro ⟨hbase, hline, hdigits, hall, hname⟩
    exact ⟨hbase, hline, hdigits, hall, hname⟩

instance : Decidable (Splits separator name base digits) :=
  decidable_of_iff _ splits_iff.symm

theorem digitsBetween?_eq_some_iff {rest : List Char} :
    digitsBetween? separator rest = some digits ↔
      digits ≠ [] ∧ (∀ c ∈ digits, c.isDigit = true) ∧ rest = separator ++ digits ++ separator := by
  constructor
  · intro h
    have hrest := digitsBetween?_eq_some h
    unfold digitsBetween? at h
    obtain ⟨-, h⟩ := Option.ite_none_right_eq_some.mp h
    obtain ⟨-, h⟩ := Option.ite_none_right_eq_some.mp h
    obtain ⟨hdigits, h⟩ := Option.ite_none_right_eq_some.mp h
    rw [Option.some.inj h, Bool.and_eq_true, List.all_eq_true] at hdigits
    exact ⟨by simpa using hdigits.1, hdigits.2, hrest⟩
  · rintro ⟨hne, hall, rfl⟩
    have hinner : (separator ++ digits ++ separator).drop separator.length = digits ++ separator := by
      rw [List.append_assoc, List.drop_left]
    have hfront : separator.isPrefixOf (separator ++ digits ++ separator) = true := by
      rw [List.append_assoc]
      exact List.isPrefixOf_iff_prefix.mpr (List.prefix_append _ _)
    have hback : separator.isSuffixOf (digits ++ separator) = true :=
      List.isSuffixOf_iff_suffix.mpr (List.suffix_append _ _)
    have htaken : (digits ++ separator).take ((digits ++ separator).length - separator.length) =
        digits := by
      rw [List.length_append, Nat.add_sub_cancel, List.take_left]
    unfold digitsBetween?
    rw [if_pos hfront]
    dsimp only
    rw [hinner, if_pos hback, htaken, if_pos]
    simpa [hne] using hall

/-- Whatever is found is a way to take the name apart. -/
theorem splits_of_split? : ∀ {base : List Char},
    split? separator name = some (base, digits) → Splits separator name base digits := by
  induction name with
  | nil => intro base h; cases h
  | cons c rest ih =>
    intro base h
    unfold split? at h
    split at h
    next => cases h
    next hline =>
      cases hrest : split? separator rest with
      | some found =>
        rw [hrest] at h
        cases Option.some.inj h
        have hfound := ih hrest
        refine ⟨List.cons_ne_nil _ _, ?_, hfound.digits_ne, hfound.areDigits, ?_⟩
        · exact List.not_mem_cons_of_ne_of_not_mem (Ne.symm hline) hfound.oneLine
        · rw [hfound.name_eq]
          simp
      | none =>
        rw [hrest] at h
        obtain ⟨digits', hdigits, hfound⟩ := Option.map_eq_some_iff.mp h
        cases hfound
        obtain ⟨hne, hall, rfl⟩ := digitsBetween?_eq_some_iff.mp hdigits
        exact ⟨List.cons_ne_nil _ _, by simpa using Ne.symm hline, hne, hall, by simp⟩

/-- A name that can be taken apart is taken apart in some way. -/
theorem exists_split? : ∀ {base : List Char}, Splits separator name base digits →
    ∃ found, split? separator name = some found := by
  induction name with
  | nil =>
    intro base h
    have hnil := h.name_eq
    simp [h.base_ne] at hnil
  | cons c rest ih =>
    intro base h
    obtain ⟨d, later, rfl⟩ := List.exists_cons_of_ne_nil h.base_ne
    have hcons := h.name_eq
    simp only [List.cons_append] at hcons
    obtain ⟨rfl, hrest⟩ := List.cons.inj hcons
    obtain ⟨hline, hlater⟩ := not_or.mp (mt List.mem_cons.mpr h.oneLine)
    unfold split?
    rw [if_neg (Ne.symm hline)]
    cases hfound : split? separator rest with
    | some found => exact ⟨_, rfl⟩
    | none =>
      -- No longer base goes before a mark, so nothing of this base is left after its first character.
      have hnil : later = [] := by
        refine Classical.byContradiction fun hne => ?_
        obtain ⟨found, hsome⟩ := ih ⟨hne, hlater, h.digits_ne, h.areDigits, hrest⟩
        rw [hfound] at hsome
        cases hsome
      subst hnil
      have hdigits : digitsBetween? separator rest = some digits :=
        digitsBetween?_eq_some_iff.mpr ⟨h.digits_ne, h.areDigits, hrest⟩
      rw [hdigits]
      exact ⟨_, rfl⟩

/-- The digits at the end of a text. -/
def digitRun (text : List Char) : List Char :=
  text.reverse.takeWhile Char.isDigit

/-- A separator that is not all digits ends the run that the digits of a mark begin. -/
theorem length_digitRun (hsep : ∃ c ∈ separator, c.isDigit = false)
    (hdigits : ∀ c ∈ digits, c.isDigit = true) (base : List Char) :
    (digitRun (base ++ separator ++ digits)).length =
      digits.length + (digitRun separator).length := by
  have hstop : (separator.reverse.takeWhile Char.isDigit).length ≠ separator.reverse.length := by
    intro hlength
    obtain ⟨c, hc, hnot⟩ := hsep
    have hwhole := (List.takeWhile_prefix Char.isDigit).eq_of_length hlength
    have hdigit := List.all_takeWhile (p := Char.isDigit) (l := separator.reverse)
    rw [hwhole, List.all_eq_true] at hdigit
    rw [hdigit c (List.mem_reverse.mpr hc)] at hnot
    cases hnot
  have hall : ∀ c ∈ digits.reverse, c.isDigit = true :=
    fun c hc => hdigits c (List.mem_reverse.mp hc)
  unfold digitRun
  rw [List.reverse_append, List.reverse_append, List.takeWhile_append_of_pos hall,
    List.takeWhile_append, if_neg hstop, List.length_append, List.length_reverse]

theorem Splits.unique (hsep : ∃ c ∈ separator, c.isDigit = false)
    (h : Splits separator name base digits) (h' : Splits separator name base' digits') :
    base = base' ∧ digits = digits' := by
  have hmarks : base ++ separator ++ digits = base' ++ separator ++ digits' :=
    List.append_cancel_right (h.name_eq.symm.trans h'.name_eq)
  have hlength : digits.length = digits'.length := by
    have hrun := length_digitRun hsep h.areDigits base
    have hrun' := length_digitRun hsep h'.areDigits base'
    rw [hmarks] at hrun
    omega
  obtain ⟨hbases, hdigits⟩ := List.append_inj' hmarks hlength
  exact ⟨List.append_cancel_right hbases, hdigits⟩

end

section

variable {marker : Marker} {name : String}

theorem parse_eq_numbered (hsep : ∃ c ∈ marker.separator.toList, c.isDigit = false)
    {base : String} {n : UInt32} : marker.parse name = ⟨base, .numbered n⟩ ↔
      ∃ digits, Splits marker.separator.toList name.toList base.toList digits ∧
        Nat.ofDigitChars 10 digits 0 = n.toNat := by
  constructor
  · intro h
    obtain ⟨digits, hsplit, hordinal⟩ := split?_of_parse h
    exact ⟨digits, splits_of_split? hsplit, (Version.ordinalOfDigits?_eq_some.mp hordinal).2.2⟩
  · rintro ⟨digits, hsplits, hvalue⟩
    obtain ⟨⟨front, digits'⟩, hfound⟩ := exists_split? hsplits
    obtain ⟨rfl, rfl⟩ := (splits_of_split? hfound).unique hsep hsplits
    have hordinal := Version.ordinalOfDigits?_eq_some.mpr
      ⟨hsplits.digits_ne, hsplits.areDigits, hvalue⟩
    unfold parse
    rw [hfound]
    dsimp only
    rw [hordinal]
    dsimp only
    rw [String.ofList_toList]

theorem parse_eq_normal (h : ∀ base n, marker.parse name ≠ ⟨base, .numbered n⟩) :
    marker.parse name = ⟨name, .normal⟩ := by
  have hversion : (marker.parse name).version = .normal := by
    cases hv : (marker.parse name).version with
    | normal => rfl
    | numbered n =>
      have hparse : marker.parse name = ⟨(marker.parse name).base, .numbered n⟩ :=
        VersionedName.eq_of_parts rfl hv
      exact absurd hparse (h _ n)
  exact VersionedName.eq_of_parts (base_of_normal hversion) hversion

theorem splits_compose {base : String} (hbase : base ≠ "") (hline : '\n' ∉ base.toList)
    (n : UInt32) : Splits marker.separator.toList (marker.compose base n).toList base.toList
      (Nat.toDigits 10 n.toNat) where
  base_ne := by simpa using hbase
  oneLine := hline
  digits_ne := Nat.toDigits_ne_nil
  areDigits _ hc := Nat.isDigit_of_mem_toDigits (by decide) (by decide) hc
  name_eq := by simp only [compose, String.toList_append, Nat.toList_repr]

end

/--
A separator with a character that is no digit marks names in one way: a name carries an ordinal
exactly when it is a base in one line with the digits of the ordinal between two separators.
-/
theorem parse_exact {separator : String} {marker : Marker}
    (hmarker : ofSeparator? separator = some marker)
    (hsep : ∃ c ∈ separator.toList, c.isDigit = false) (name : String) :
    (∀ base n, marker.parse name = ⟨base, .numbered n⟩ ↔
      ∃ digits, Splits separator.toList name.toList base.toList digits ∧
        Nat.ofDigitChars 10 digits 0 = n.toNat) ∧
    ((∀ base digits, Splits separator.toList name.toList base digits →
        UInt32.size ≤ Nat.ofDigitChars 10 digits 0) → marker.parse name = ⟨name, .normal⟩) ∧
    (∀ base digits base' digits', Splits separator.toList name.toList base digits →
      Splits separator.toList name.toList base' digits' → base = base' ∧ digits = digits') ∧
    ∀ base n, base ≠ "" → '\n' ∉ base.toList →
      marker.parse (marker.compose base n) = ⟨base, .numbered n⟩ := by
  have hmade : marker.separator = separator := by
    unfold ofSeparator? at hmarker
    split at hmarker
    next => cases hmarker
    next => cases hmarker; rfl
  subst hmade
  refine ⟨fun base n => parse_eq_numbered hsep, fun hlarge => ?_,
    fun _ _ _ _ h h' => h.unique hsep h', fun base n hbase hline => ?_⟩
  · refine parse_eq_normal fun base n hparse => ?_
    obtain ⟨digits, hsplits, hvalue⟩ := (parse_eq_numbered hsep).mp hparse
    have hsize := hlarge _ _ hsplits
    have hlt : n.toNat < UInt32.size := n.toNat_lt
    omega
  · refine (parse_eq_numbered hsep).mpr ⟨_, splits_compose hbase hline n, ?_⟩
    exact Nat.ofDigitChars_ten_toDigits

/-- Digits on both sides of a separator do not blur the marks, and a large ordinal is none. -/
theorem parse_exact_flanked : ∃ marker, ofSeparator? "1_1" = some marker ∧
    (∃ c ∈ "1_1".toList, c.isDigit = false) ∧
    marker.parse "A1_11_10071_1" = ⟨"A1_1", .numbered 7⟩ ∧
    marker.parse "A1_142949672961_1" = ⟨"A1_142949672961_1", .normal⟩ ∧
    marker.parse (marker.compose "1_121_1" 1) = ⟨"1_121_1", .numbered 1⟩ := by
  have hmarker : ofSeparator? "1_1" = some { separator := "1_1" } := rfl
  have hsep : ∃ c ∈ "1_1".toList, c.isDigit = false := ⟨'_', by decide, rfl⟩
  have hlarge : Splits "1_1".toList "A1_142949672961_1".toList ['A'] "4294967296".toList := by
    decide
  refine ⟨_, hmarker, hsep, ?_, ?_, ?_⟩
  · refine ((parse_exact hmarker hsep _).1 _ _).mpr ⟨"007".toList, ?_, by decide⟩
    decide
  · refine (parse_exact hmarker hsep _).2.1 fun base digits hsplits => ?_
    obtain ⟨-, rfl⟩ := (parse_exact hmarker hsep _).2.2.1 _ _ _ _ hsplits hlarge
    decide
  · exact (parse_exact hmarker hsep "").2.2.2 _ _ (by decide) (by decide)

/-- With digits for a separator there may be more than one way to take a name apart. -/
example : Splits ['1'] "A1111".toList ['A'] ['1', '1'] ∧
    Splits ['1'] "A1111".toList ['A', '1'] ['1'] := by
  decide

end Marker

end VersionWeave
