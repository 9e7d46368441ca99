import VersionWeave.Proofs.Pinning.Run
import VersionWeave.Proofs.Symbols
import VersionWeave.Proofs.Tree.EveryNote
import VersionWeave.Unified.Stub

namespace VersionWeave

/-- The declarations of a signature in a list of types, each with its type. -/
def declaredMethods (marker : Marker) (ts : List TypeDecl) (signature : Signature) :
    List (TypeDecl × MethodDecl) :=
  ts.flatMap fun t => (t.methods.filter fun d => d.signature marker = signature).map (t, ·)

theorem mem_declaredMethods {marker : Marker} {ts : List TypeDecl} {signature : Signature}
    {d : TypeDecl × MethodDecl} : d ∈ declaredMethods marker ts signature ↔
      d.1 ∈ ts ∧ d.2 ∈ d.1.methods ∧ d.2.signature marker = signature := by
  obtain ⟨t, m⟩ := d
  simp only [declaredMethods, List.mem_flatMap, List.mem_map, List.mem_filter, decide_eq_true_eq,
    Prod.mk.injEq]
  constructor
  · rintro ⟨t, ht, m, ⟨hm, hsig⟩, rfl, rfl⟩
    exact ⟨ht, hm, hsig⟩
  · rintro ⟨ht, hm, hsig⟩
    exact ⟨t, ht, m, ⟨hm, hsig⟩, rfl, rfl⟩

/-- The table knows the declarations of a signature, and no others. -/
theorem ClassInfo.filter_methodsNamed (marker : Marker) (base : String) (ts : List TypeDecl)
    (name : String) (types : List String) :
    ((ofDeclarations marker base ts).methodsNamed name).filter (fun m => m.parameterTypes = types) =
      (declaredMethods marker ts (name, types)).map fun d =>
        d.2.info marker (marker.parse d.1.name).version := by
  rw [methodsNamed_ofDeclarations, List.filter_filter, List.filter_flatMap, declaredMethods,
    List.map_flatMap]
  congr 1
  funext t
  rw [TypeDecl.methodInfos, List.filter_map, List.map_map]
  refine congrArg (List.map _) (List.filter_congr fun d _ => ?_)
  rw [Bool.eq_iff_iff]
  simp only [Function.comp_apply, Bool.and_eq_true, decide_eq_true_eq, MethodDecl.signature,
    Prod.mk.injEq]
  exact and_comm

namespace Scope

theorem target?_ident_eq_some {s : Scope} {r name : String} {args : List Expr} {m : MethodInfo}
    {owner : ClassInfo} (h : s.versionedClass? r = some owner) :
    s.target? (some (.ident r)) name args = some m ↔
      (owner.methodsNamed name).filter (fun m => m.parameterTypes = args.map s.argumentType) = [m] := by
  simp only [target?, Expr.ident?, Option.bind_some, Option.bind_eq_bind, h]
  split
  next m' hm => simp [hm]
  next hne =>
    constructor
    · intro hnone
      cases hnone
    · intro hsingle
      exact (hne m hsingle).elim

theorem exists_versionedClass? {s : Scope} {r name : String} {args : List Expr} {m : MethodInfo}
    (h : s.target? (some (.ident r)) name args = some m) : ∃ c, s.versionedClass? r = some c := by
  cases hc : s.versionedClass? r with
  | none => simp [target?, Expr.ident?, hc] at h
  | some c => exact ⟨c, rfl⟩

/-- The class of a variable is what its batch declares under the base name. -/
theorem Over.versionedClass? {s : Scope} {marker : Marker} {units : List CompilationUnit}
    (hs : s.Over (.build marker units) marker) {r : String} {c : ClassInfo}
    (h : s.versionedClass? r = some c) :
    c = .ofDeclarations marker c.baseName (declarations marker units c.baseName) ∧
      (SymbolTable.build marker units).get? c.baseName = some c ∧
      (SymbolTable.build marker units).isVersioned c.baseName = true := by
  obtain ⟨declared, -, h⟩ := Option.bind_eq_some_iff.mp h
  rw [hs.table, hs.marker] at h
  have hc := SymbolTable.versioned?_build_eq_some h
  have hbase : c.baseName = marker.baseName declared := by rw [hc, ClassInfo.baseName_ofDeclarations]
  rw [hbase]
  exact ⟨hc, (Option.filter_eq_some_iff.mp h).1, by rw [SymbolTable.isVersioned, h]; rfl⟩

end Scope

namespace Pinning

def standing (s : Scope) : Notes (Scope × Stmt) where
  stmt _ x := [(s, x)]

/-- Every statement of a unit with the scope in which pinning comes to it. -/
def places (naming : Naming) (s : Scope) (u : CompilationUnit) : List (Scope × Stmt) :=
  u.notes (editor naming) standing s

theorem over_of_mem_places {naming : Naming} {s : Scope} {table : SymbolTable} {marker : Marker}
    (hs : s.Over table marker) {u : CompilationUnit} {place : Scope × Stmt}
    (h : place ∈ places naming s u) : place.1.Over table marker := by
  refine CompilationUnit.notes_all (P := fun p : Scope × Stmt => p.1.Over table marker)
    (fun s hs => ⟨fun _ _ hp => absurd hp List.not_mem_nil, fun _ x p hp => ?_⟩) u hs place h
  rw [List.mem_singleton.mp hp]
  exact hs

/-- The pins of a unit are those of its places, in their order. -/
theorem pins_eq_flatMap_places (naming : Naming) (s : Scope) (u : CompilationUnit) :
    pins naming s u = (places naming s u).flatMap fun place => (notes place.1).stmt 0 place.2 :=
  CompilationUnit.notes_from (fun s => ⟨fun _ => rfl, fun _ x => by simp [notes, standing]⟩) u s

theorem mem_pins {naming : Naming} {s : Scope} {u : CompilationUnit} {p : Pin} :
    p ∈ pins naming s u ↔
      ∃ x, (p.scope, x) ∈ places naming s u ∧ pin? p.scope x = some (p.receiver, p.ordinal) := by
  rw [pins_eq_flatMap_places, List.mem_flatMap]
  constructor
  · rintro ⟨⟨s, x⟩, hplace, hp⟩
    obtain ⟨_, hpin, rfl⟩ := List.mem_map.mp hp
    exact ⟨x, hplace, Option.mem_toList.mp hpin⟩
  · rintro ⟨x, hplace, hpin⟩
    exact ⟨(p.scope, x), hplace, List.mem_map.mpr ⟨_, Option.mem_toList.mpr hpin, rfl⟩⟩

/-- A call is pinned to the version of the one declaration of its signature, if there is one. -/
theorem pin?_call_iff {s : Scope} {marker : Marker} {units : List CompilationUnit}
    (hs : s.Over (.build marker units) marker) {r name : String} {args : List Expr} {c : ClassInfo}
    (hc : s.versionedClass? r = some c) (n : UInt32) :
    pin? s (.expr (.call (some (.ident r)) name args)) = some (.ident r, n) ↔
      ∃ t d, declaredMethods marker (declarations marker units c.baseName)
          (name, args.map s.argumentType) = [(t, d)] ∧
        (marker.parse t.name).version = .numbered n := by
  have hpin : pin? s (.expr (.call (some (.ident r)) name args)) = some (.ident r, n) ↔
      ∃ m, s.target? (some (.ident r)) name args = some m ∧ m.version.ordinal? = some n := by
    rw [pin?_eq_some_iff]
    constructor
    · rintro ⟨v, name, args, m, h, -, hm, hn⟩
      cases h
      exact ⟨m, hm, hn⟩
    · rintro ⟨m, hm, hn⟩
      exact ⟨r, name, args, m, rfl, rfl, hm, hn⟩
  rw [hpin]
  simp only [Scope.target?_ident_eq_some hc]
  rw [(hs.versionedClass? hc).1, ClassInfo.filter_methodsNamed, ClassInfo.baseName_ofDeclarations]
  constructor
  · rintro ⟨m, hm, hn⟩
    obtain ⟨d, hd, rfl⟩ := List.map_eq_singleton_iff.mp hm
    refine ⟨d.1, d.2, hd, ?_⟩
    cases hv : (marker.parse d.1.name).version <;> simp_all [MethodDecl.info, Version.ordinal?]
  · rintro ⟨t, d, hd, hn⟩
    exact ⟨_, by rw [hd]; rfl, by simp [MethodDecl.info, hn, Version.ordinal?]⟩

end Pinning

end VersionWeave
