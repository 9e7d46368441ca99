import VersionWeave.Proofs.Entries
import VersionWeave.Proofs.Unified.Outer

namespace VersionWeave

/-- The body does nothing but hand the parameters on to the method of this name of a receiver. -/
def MethodDecl.ForwardsTo (m : MethodDecl) (receiver : Expr) : Prop :=
  let call := Expr.callOn receiver m.name (m.params.map fun p => .ident p.name)
  m.body = some [.expr call] ∨ m.body = some [.ret (some call)]

/-- The types of the parameters, as they are written. -/
def MethodDecl.writtenTypes (m : MethodDecl) : List String :=
  m.params.map fun p => p.ty.source

namespace Naming

/-- The names of generated operations: the switch and all that starts like an accessor. -/
def isOperation (naming : Naming) (name : String) : Bool :=
  name = naming.switchMethod || naming.getterPrefix.toList.isPrefixOf name.toList
    || naming.setterPrefix.toList.isPrefixOf name.toList

theorem isOperation_switchMethod (naming : Naming) :
    naming.isOperation naming.switchMethod = true := by
  simp [isOperation]

theorem isOperation_getter (naming : Naming) (field : String) :
    naming.isOperation (naming.getter field) = true := by
  simp [isOperation, getter]

theorem isOperation_setter (naming : Naming) (field : String) :
    naming.isOperation (naming.setter field) = true := by
  simp [isOperation, setter]

/-- Names of generated members that cannot be taken for one another. -/
structure Apart (naming : Naming) : Prop where
  active : ∀ n, naming.instanceField n ≠ naming.activeField
  getter : ∀ field, naming.getter field ≠ naming.switchMethod
  setter : ∀ field, naming.setter field ≠ naming.switchMethod
  accessors : ∀ field field', naming.getter field ≠ naming.setter field'

theorem standard_apart : Apart {} where
  active n h := by
    have hfirst := congrArg (fun s => s.toList.head?) h
    simp [instanceField] at hfirst
  getter field h := by
    have hthird := congrArg (fun s => s.toList.drop 2) h
    simp [getter] at hthird
  setter field h := by
    have hfourth := congrArg (fun s => s.toList.drop 3) h
    simp [setter] at hfourth
  accessors field field' h := by
    have hthird := congrArg (fun s => s.toList.drop 2) h
    simp [getter, setter] at hthird

end Naming

namespace Stub

theorem forwarding_forwardsTo (m : MethodDecl) (receiver : Expr) :
    (forwarding m receiver).ForwardsTo receiver := by
  unfold MethodDecl.ForwardsTo forwarding
  dsimp only
  split
  next => exact .inl rfl
  next => exact .inr rfl

theorem writtenTypes_forwarding (m : MethodDecl) (receiver : Expr) :
    (forwarding m receiver).writtenTypes = m.writtenTypes := by
  refine List.ext_getElem? fun i => ?_
  simp [MethodDecl.writtenTypes, forwarding, numberedParams, Function.comp_def]

theorem exists_of_ofGroup? {naming : Naming} {group : List (UInt32 × MethodDecl)} {stub : MethodDecl}
    (h : ofGroup? naming group = some stub) : ∃ d others, group = d :: others ∧
      surfaced group = true ∧ stub = forwarding d.2 (receiver naming group) := by
  unfold ofGroup? at h
  split at h
  next => cases h
  next n first others =>
    obtain ⟨hs, h⟩ := Option.ite_none_right_eq_some.mp h
    exact ⟨(n, first), others, rfl, hs, (Option.some.inj h).symm⟩

end Stub

/-- Every declared method of some versions with the ordinal of its version. -/
def numberedMethods (vs : List VersionDecl) : List (UInt32 × MethodDecl) :=
  vs.flatMap fun v => v.decl.methods.map fun m => (v.ordinal, m)

theorem signatureGroups_eq_collect (marker : Marker) (vs : List VersionDecl) :
    signatureGroups marker vs =
      Entries.collect ((numberedMethods vs).map fun d => (d.2.signature marker, d)) := by
  rw [Entries.collect, List.foldl_map]
  rfl

theorem mem_signatureGroups {marker : Marker} {vs : List VersionDecl} {signature : Signature}
    {group : List (UInt32 × MethodDecl)} : (signature, group) ∈ signatureGroups marker vs ↔
      group = (numberedMethods vs).filter (fun d => d.2.signature marker = signature) ∧
        group ≠ [] := by
  rw [signatureGroups_eq_collect, Entries.mem_collect, List.filter_map, List.map_map]
  simp [Function.comp_def]

/-- Every declared constructor of some versions as a signature of its version. -/
def numberedConstructors (vs : List VersionDecl) : List ConstructorSignature :=
  vs.flatMap fun v => v.decl.constructors.map fun c => { owner := v.ordinal, params := c.params }

/-- A signature counts for the first version that declares it; without any there is an empty one. -/
theorem mem_constructorSignatures {marker : Marker} {vs : List VersionDecl}
    {s : ConstructorSignature} : s ∈ constructorSignatures marker vs ↔
      (numberedConstructors vs).find? (fun c =>
        signatureTypes marker c.params = signatureTypes marker s.params) = some s ∨
      (numberedConstructors vs = [] ∧
        ∃ v, vs.head? = some v ∧ s = { owner := v.ordinal, params := [] }) := by
  have hfirst : s ∈ Entries.values ((numberedConstructors vs).foldl
      (fun found c => Entries.putNew found (signatureTypes marker c.params) c) []) ↔ _ :=
    Entries.mem_values_foldl_putNew
  unfold constructorSignatures
  change s ∈ (if (numberedConstructors vs).isEmpty then _ else Entries.values
    ((numberedConstructors vs).foldl _ [])) ↔ _
  cases hd : numberedConstructors vs with
  | nil => simp [eq_comm]
  | cons c rest =>
    rw [hd] at hfirst
    simpa using hfirst

/-- Among versions by ascending ordinal the first declaration is that of the lowest version. -/
theorem owner_le_of_find? {vs : List VersionDecl} {p : ConstructorSignature → Bool}
    {s : ConstructorSignature} (hsorted : vs.Pairwise fun a b => a.ordinal < b.ordinal)
    (h : (numberedConstructors vs).find? p = some s) : ∀ v ∈ vs, ∀ c ∈ v.decl.constructors,
      p { owner := v.ordinal, params := c.params } = true → s.owner ≤ v.ordinal := by
  induction vs with
  | nil => simp
  | cons v rest ih =>
    obtain ⟨hv, hrest⟩ := List.pairwise_cons.mp hsorted
    rw [numberedConstructors, List.flatMap_cons, List.find?_append] at h
    rcases Option.or_eq_some_iff.mp h with hfirst | ⟨hnone, hlater⟩
    · obtain ⟨d, -, rfl⟩ := List.mem_map.mp (List.mem_of_find?_eq_some hfirst)
      refine List.forall_mem_cons.mpr ⟨fun _ _ _ => UInt32.le_refl _, fun w hw _ _ _ => ?_⟩
      exact UInt32.le_of_lt (hv w hw)
    · refine List.forall_mem_cons.mpr ⟨fun c hc hp => ?_, ih hrest hlater⟩
      exact absurd hp (List.find?_eq_none.mp hnone _ (List.mem_map.mpr ⟨c, hc, rfl⟩))

/--
The lowest version that declares a constructor of these parameter types, or the lowest of all
when no version declares any constructor.
-/
def ConstructorDecl.OwnedBy (marker : Marker) (vs : List VersionDecl) (c : ConstructorDecl)
    (v : VersionDecl) : Prop :=
  v ∈ vs ∧
    ((∃ d ∈ v.decl.constructors, signatureTypes marker d.params = signatureTypes marker c.params) ∧
      (∀ w ∈ vs, ∀ d ∈ w.decl.constructors,
        signatureTypes marker d.params = signatureTypes marker c.params → v.ordinal ≤ w.ordinal) ∨
    (∀ w ∈ vs, w.decl.constructors = []) ∧ c.params = [] ∧ ∀ w ∈ vs, v.ordinal ≤ w.ordinal)

theorem exists_ownedBy {marker : Marker} {vs : List VersionDecl} {s : ConstructorSignature}
    (hsorted : vs.Pairwise fun a b => a.ordinal < b.ordinal)
    (hs : s ∈ constructorSignatures marker vs) (naming : Naming) (name : String)
    (ordinals : List UInt32) : ∃ v, v.ordinal = s.owner ∧
      (outerConstructor naming name ordinals s).OwnedBy marker vs v := by
  rcases mem_constructorSignatures.mp hs with hfind | ⟨hnone, v, hhead, rfl⟩
  · obtain ⟨v, hv, hs⟩ := List.mem_flatMap.mp (List.mem_of_find?_eq_some hfind)
    obtain ⟨d, hd, rfl⟩ := List.mem_map.mp hs
    refine ⟨v, rfl, hv, .inl ⟨⟨d, hd, rfl⟩, fun w hw e he htypes => ?_⟩⟩
    exact owner_le_of_find? hsorted hfind w hw e he (decide_eq_true htypes)
  · obtain ⟨rest, rfl⟩ := List.head?_eq_some_iff.mp hhead
    refine ⟨v, rfl, List.mem_cons_self, .inr ⟨fun w hw => ?_, rfl, fun w hw => ?_⟩⟩
    · simpa using List.flatMap_eq_nil_iff.mp hnone w hw
    · rcases List.mem_cons.mp hw with rfl | hw
      · exact UInt32.le_refl _
      · exact UInt32.le_of_lt ((List.pairwise_cons.mp hsorted).1 w hw)

theorem Accessor.name_members {options : Options} {table : SymbolTable} {base : String}
    {vs : List VersionDecl} {m : MethodDecl}
    (h : m ∈ (members options table base vs).filterMap Member.method?) : ∃ field,
      m.name = options.naming.getter field ∨ m.name = options.naming.setter field := by
  obtain ⟨x, hx, hm⟩ := List.mem_filterMap.mp h
  unfold members at hx
  split at hx
  next =>
    obtain ⟨field, -, hx⟩ := List.mem_flatMap.mp hx
    obtain ⟨ty, n, rfl | rfl⟩ := exists_of_mem_pair hx
    · cases Option.some.inj hm
      exact ⟨field, .inl rfl⟩
    · cases Option.some.inj hm
      exact ⟨field, .inr rfl⟩
  next => simp at hx

/-- Accessors have the names of operations. -/
theorem Accessor.isOperation_members {options : Options} {table : SymbolTable} {base : String}
    {vs : List VersionDecl} {m : MethodDecl}
    (h : m ∈ (members options table base vs).filterMap Member.method?) :
    options.naming.isOperation m.name = true := by
  obtain ⟨field, hname | hname⟩ := name_members h
  · rw [hname, options.naming.isOperation_getter]
  · rw [hname, options.naming.isOperation_setter]

/-- A method of a unified type is a stub, unless it has the name of an operation. -/
theorem Group.Unified.mem_methods {marker : Marker} {table : SymbolTable} {options : Options}
    {base : String} {vs : List VersionDecl} {outer : TypeDecl}
    (h : Unified marker table options base vs outer) {m : MethodDecl}
    (hname : options.naming.isOperation m.name = false) : m ∈ outer.methods ↔
      ∃ g ∈ signatureGroups marker vs, Stub.ofGroup? options.naming g.2 = some m := by
  rw [h.methods, List.mem_cons, List.mem_append, List.mem_filterMap]
  refine ⟨fun hm => ?_, fun hm => .inr (.inl hm)⟩
  rcases hm with rfl | hm | hm
  · simp [Skeleton.switchMethod, Naming.isOperation_switchMethod] at hname
  · exact hm
  · exact absurd (Accessor.isOperation_members hm) (by simp [hname])

end VersionWeave
