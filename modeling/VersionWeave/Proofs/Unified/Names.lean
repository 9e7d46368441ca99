import Mathlib.Data.List.Nodup
import VersionWeave.Proofs.Unified.Stages

namespace VersionWeave

/-- The name of a nested type. -/
def Member.typeName? : Member → Option String
  | .type t => some t.name
  | _ => none

namespace TypeDecl

/-- The names of the types that are nested directly in a type. -/
def typeNames (t : TypeDecl) : List String := t.members.filterMap Member.typeName?

/-- The names of the variables that the fields of a type declare. -/
def fieldNames (t : TypeDecl) : List String :=
  t.fields.flatMap fun f => f.declarators.map Declarator.name

end TypeDecl

namespace Skeleton

variable (naming : Naming) (ordinals : List UInt32)

theorem typeNames_members : (members naming ordinals).filterMap Member.typeName? =
    naming.behaviorInterface :: ordinals.map naming.implType := by
  simp [members, List.filterMap_map, Function.comp_def, Member.typeName?, List.filterMap_cons,
    contract, implementation]

variable {outer : TypeDecl} (houter : outer.members = [])

include houter

theorem typeNames_addSkeleton : (outer.addSkeleton naming ordinals).typeNames =
    naming.behaviorInterface :: ordinals.map naming.implType := by
  rw [TypeDecl.typeNames, TypeDecl.addSkeleton, TypeDecl.append, houter]
  exact typeNames_members naming ordinals

theorem fieldNames_addSkeleton : (outer.addSkeleton naming ordinals).fieldNames =
    ordinals.map naming.instanceField ++ [naming.activeField] := by
  have hfields : (outer.addSkeleton naming ordinals).fields =
      ordinals.map (instanceField naming) ++ [activeField naming] := by
    rw [TypeDecl.fields, TypeDecl.addSkeleton, TypeDecl.append, houter]
    exact fields_members naming ordinals
  rw [TypeDecl.fieldNames, hfields, List.flatMap_append, List.flatMap_map]
  congr 1
  exact List.map_eq_flatMap.symm

end Skeleton

namespace Text

/-- What may stand in an identifier after its first character. -/
def isIdentifierPart (c : Char) : Bool := isAlphabetic c || isNumeric c || c == '_' || c == '$'

theorem isIdentifier_append {name rest : String} (hname : isIdentifier name = true)
    (hrest : rest.toList.all isIdentifierPart = true) : isIdentifier (name ++ rest) = true := by
  unfold isIdentifier at hname ⊢
  rw [String.toList_append]
  cases hchars : name.toList with
  | nil => rw [hchars] at hname; cases hname
  | cons c cs =>
    rw [hchars] at hname
    obtain ⟨hfirst, hcs⟩ := Bool.and_eq_true_iff.mp hname
    have hall : (cs ++ rest.toList).all isIdentifierPart = true := by
      rw [List.all_append]
      exact Bool.and_eq_true_iff.mpr ⟨hcs, hrest⟩
    exact Bool.and_eq_true_iff.mpr ⟨hfirst, hall⟩

theorem isIdentifierPart_of_isDigit {c : Char} (h : c.isDigit = true) :
    isIdentifierPart c = true := by
  have hle : c.val ≤ 57 := of_decide_eq_true (Bool.and_eq_true_iff.mp h).2
  have hascii : c.toNat < 0x80 := Nat.lt_of_le_of_lt (UInt32.le_iff_toNat_le.mp hle) (by decide)
  have hnumeric : isNumeric c = true := (if_pos hascii).trans h
  simp [isIdentifierPart, hnumeric]

/-- A number in the middle keeps a name an identifier. -/
theorem isIdentifier_numbered {front back : String} (hfront : isIdentifier front = true)
    (hback : back.toList.all isIdentifierPart = true) (n : Nat) :
    isIdentifier (front ++ n.repr ++ back) = true := by
  refine isIdentifier_append (isIdentifier_append hfront ?_) hback
  rw [Nat.toList_repr]
  exact List.all_eq_true.mpr fun c hc =>
    isIdentifierPart_of_isDigit (Nat.isDigit_of_mem_toDigits (by decide) (by decide) hc)

end Text

namespace Naming

/-- A naming is accepted if its reserved names, one by one, are identifiers. -/
theorem check_eq_ok_iff {naming : Naming} {marker : Marker} : naming.check = .ok marker ↔
    (∀ entry ∈ naming.reserved, Text.isIdentifier entry.2 = true) ∧
      naming.getterPrefix ≠ naming.setterPrefix ∧
      Marker.ofSeparator? naming.separator = some marker := by
  unfold check
  cases hbad : naming.reserved.find? fun entry => !Text.isIdentifier entry.2 with
  | some entry =>
    have hentry : Text.isIdentifier entry.2 = false := by simpa using List.find?_some hbad
    refine ⟨fun h => (by cases h), fun h => ?_⟩
    rw [h.1 entry (List.mem_of_find?_eq_some hbad)] at hentry
    cases hentry
  | none =>
    have hall : ∀ entry ∈ naming.reserved, Text.isIdentifier entry.2 = true := by
      simpa using List.find?_eq_none.mp hbad
    by_cases hsame : naming.getterPrefix = naming.setterPrefix
    · simp [hsame]
    · cases hseparator : Marker.ofSeparator? naming.separator with
      | none => simp [hsame]
      | some m =>
        rw [if_neg hsame]
        exact ⟨fun h => ⟨hall, hsame, congrArg some (Except.ok.inj h)⟩,
          fun h => congrArg Except.ok (Option.some.inj h.2.2)⟩

/-- The check does not see which names are generated: the contract may be named like one of them. -/
theorem check_behaviorInterface {naming : Naming} {marker : Marker}
    (hcheck : naming.check = .ok marker) (n : UInt32) :
    ({ naming with behaviorInterface := naming.implType n } : Naming).check = .ok marker := by
  obtain ⟨hnames, haccessors, hseparator⟩ := check_eq_ok_iff.mp hcheck
  refine check_eq_ok_iff.mpr ⟨?_, haccessors, hseparator⟩
  simp only [reserved, List.forall_mem_cons] at hnames ⊢
  obtain ⟨hswitch, hgetter, hsetter, -, hactive, hnil⟩ := hnames
  exact ⟨hswitch, hgetter, hsetter, Text.isIdentifier_numbered (by decide) (by decide) _, hactive, hnil⟩

theorem check_activeField {naming : Naming} {marker : Marker} (hcheck : naming.check = .ok marker)
    (n : UInt32) :
    ({ naming with activeField := naming.instanceField n } : Naming).check = .ok marker := by
  obtain ⟨hnames, haccessors, hseparator⟩ := check_eq_ok_iff.mp hcheck
  refine check_eq_ok_iff.mpr ⟨?_, haccessors, hseparator⟩
  simp only [reserved, List.forall_mem_cons] at hnames ⊢
  obtain ⟨hswitch, hgetter, hsetter, hcontract, -, hnil⟩ := hnames
  exact ⟨hswitch, hgetter, hsetter, hcontract, Text.isIdentifier_numbered (by decide) (by decide) _, hnil⟩

/-- An accepted naming can give two nested types one name. -/
theorem not_every_accepted_naming_distinct : ¬ ∀ (naming : Naming) (marker : Marker),
    naming.check = .ok marker → ∀ ordinals : List UInt32, ordinals.Nodup →
      ∀ outer : TypeDecl, outer.members = [] →
        (outer.addSkeleton naming ordinals).typeNames.Nodup ∧
          (outer.addSkeleton naming ordinals).fieldNames.Nodup := by
  intro h
  have hcheck : ({ behaviorInterface := "V1_Impl" } : Naming).check = .ok .standard :=
    check_eq_ok_iff.mpr ⟨by decide +kernel, by decide, rfl⟩
  have hclash := (h _ _ hcheck [1] (by decide) { name := "Test" } rfl).1
  rw [Skeleton.typeNames_addSkeleton _ _ rfl] at hclash
  revert hclash
  decide +kernel

/--
The names that the skeleton of a unified type generates for distinct ordinals differ among each
other, so two nested types have one name exactly if the contract is named like the implementation
type of one of the ordinals, and two fields exactly if the active one is named like an instance. The
check refuses neither: whatever naming it accepts, it accepts with each of these names.
-/
theorem skeleton_names_distinct_iff {naming : Naming} {marker : Marker}
    (hcheck : naming.check = .ok marker) :
    (∀ ordinals : List UInt32, ordinals.Nodup → ∀ outer : TypeDecl, outer.members = [] →
      ((outer.addSkeleton naming ordinals).typeNames.Nodup ↔
        ∀ n ∈ ordinals, naming.behaviorInterface ≠ naming.implType n) ∧
      ((outer.addSkeleton naming ordinals).fieldNames.Nodup ↔
        ∀ n ∈ ordinals, naming.activeField ≠ naming.instanceField n)) ∧
    ∀ n, ({ naming with behaviorInterface := naming.implType n } : Naming).check = .ok marker ∧
      ({ naming with activeField := naming.instanceField n } : Naming).check = .ok marker := by
  refine ⟨fun ordinals hordinals outer houter => ⟨?_, ?_⟩,
    fun n => ⟨check_behaviorInterface hcheck n, check_activeField hcheck n⟩⟩
  · have himpls : (ordinals.map naming.implType).Nodup :=
      hordinals.map fun _ _ h => implType_inj.mp h
    rw [Skeleton.typeNames_addSkeleton _ _ houter, List.nodup_cons, and_iff_left himpls,
      List.mem_map, not_exists]
    exact forall_congr' fun n => not_and.trans (imp_congr_right fun _ => ne_comm)
  · have hinstances : (ordinals.map naming.instanceField).Nodup :=
      hordinals.map fun _ _ h => instanceField_inj.mp h
    rw [Skeleton.fieldNames_addSkeleton _ _ houter, List.nodup_append_comm, List.singleton_append,
      List.nodup_cons, and_iff_left hinstances, List.mem_map, not_exists]
    exact forall_congr' fun n => not_and.trans (imp_congr_right fun _ => ne_comm)

/-- The same naming clashes for some ordinals and not for others. -/
theorem skeleton_names_distinct_iff_second :
    let naming : Naming := { behaviorInterface := "V2_Impl" }
    let outer : TypeDecl := { name := "Test" }
    naming.check = .ok .standard ∧ (outer.addSkeleton naming [1, 3]).typeNames.Nodup ∧
      ¬ (outer.addSkeleton naming [1, 2]).typeNames.Nodup := by
  intro naming outer
  have hcheck : naming.check = .ok .standard :=
    check_eq_ok_iff.mpr ⟨by decide +kernel, by decide, rfl⟩
  obtain ⟨hnames, -⟩ := skeleton_names_distinct_iff hcheck
  have hapart : ∀ n ∈ [1, 3], naming.behaviorInterface ≠ naming.implType n :=
    List.forall_mem_cons.mpr ⟨by decide +kernel, List.forall_mem_singleton.mpr (by decide +kernel)⟩
  refine ⟨hcheck, (hnames [1, 3] (by decide) outer rfl).1.mpr hapart, fun hnodup => ?_⟩
  have hclash : naming.behaviorInterface = naming.implType 2 := by decide +kernel
  exact (hnames [1, 2] (by decide) outer rfl).1.mp hnodup 2 (by decide) hclash

end Naming

end VersionWeave
