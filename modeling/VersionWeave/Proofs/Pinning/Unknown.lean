import Mathlib.Data.List.Forall2
import VersionWeave.Proofs.Pinning.Target

namespace VersionWeave

namespace Scope

/-- The type of an argument, if it shows one: a literal other than `null`, or a declared variable. -/
def knownType? (s : Scope) : Expr → Option String
  | .literal l => l.staticType?
  | .ident n => s.variableType? n
  | _ => none

/--
A known type is the parameter's. An argument of unknown type stands only for a parameter whose
type is written as the unknown one is.
-/
def Fits (s : Scope) (args : List Expr) (m : MethodInfo) : Prop :=
  List.Forall₂ (fun e type => s.knownType? e = some type ∨ s.knownType? e = none ∧ type = unknownType)
    args m.parameterTypes

theorem argumentType_eq_iff {s : Scope} {e : Expr} {type : String} : s.argumentType e = type ↔
    s.knownType? e = some type ∨ s.knownType? e = none ∧ type = unknownType := by
  have hknown : s.argumentType e = (s.knownType? e).getD unknownType := by cases e <;> rfl
  rw [hknown]
  cases s.knownType? e with
  | none => simp [eq_comm]
  | some known => simp

theorem parameterTypes_eq_iff {s : Scope} {args : List Expr} {m : MethodInfo} :
    m.parameterTypes = args.map s.argumentType ↔ s.Fits args m := by
  rw [eq_comm, ← List.forall₂_eq_eq_eq, List.forall₂_map_left_iff]
  simp only [argumentType_eq_iff, Fits]

instance (s : Scope) (args : List Expr) (m : MethodInfo) : Decidable (s.Fits args m) :=
  decidable_of_iff _ parameterTypes_eq_iff

/-- An argument of unknown type asks for a parameter that is written so. -/
theorem Fits.unknownType_mem {s : Scope} {args : List Expr} {m : MethodInfo} (h : s.Fits args m)
    {e : Expr} (he : e ∈ args) (hunknown : s.knownType? e = none) :
    unknownType ∈ m.parameterTypes := by
  have htype : s.argumentType e = unknownType := argumentType_eq_iff.mpr (.inr ⟨hunknown, rfl⟩)
  rw [parameterTypes_eq_iff.mpr h, ← htype]
  exact List.mem_map_of_mem he

end Scope

namespace Pinning

/--
A call with an argument of unknown type is left as it is, unless one declaration alone fits it;
that declaration then has a parameter whose type is written as the unknown one is.
-/
theorem unknown_argument_pinned_iff (naming : Naming) (st : Pinning) (receiver : Option Expr)
    (name : String) (args : List Expr)
    (hunknown : ∃ e ∈ args, st.scope.knownType? e = none) :
    (pin naming (.expr (.call receiver name args))).run st ≠
        (.keep (.expr (.call receiver name args)), st) ↔
      ∃ v owner m n, receiver = some (.ident v) ∧ st.scope.versionedClass? v = some owner ∧
        (owner.methodsNamed name).filter (fun m => st.scope.Fits args m) = [m] ∧
        m.version = .numbered n ∧ unknownType ∈ m.parameterTypes := by
  obtain ⟨e, he, hunknown⟩ := hunknown
  rw [Ne, run_pin_eq_keep_iff, ← Ne, Option.ne_none_iff_exists']
  constructor
  · rintro ⟨⟨r, n⟩, hp⟩
    obtain ⟨v, name, args, m, hx, rfl, htarget, hn⟩ := pin?_eq_some_iff.mp hp
    cases hx
    obtain ⟨owner, howner⟩ : ∃ owner, st.scope.versionedClass? v = some owner := by
      cases howner : st.scope.versionedClass? v with
      | none => simp [Scope.target?, Expr.ident?, howner] at htarget
      | some owner => exact ⟨owner, rfl⟩
    rw [Scope.target?_ident_eq_some howner] at htarget
    simp only [Scope.parameterTypes_eq_iff] at htarget
    have hfits : st.scope.Fits args m := by
      have hmem : m ∈ (owner.methodsNamed name).filter fun m => st.scope.Fits args m := by
        rw [htarget]
        exact List.mem_singleton_self m
      exact of_decide_eq_true (List.mem_filter.mp hmem).2
    have hversion : m.version = .numbered n := by
      cases hv : m.version <;> simp_all [Version.ordinal?]
    exact ⟨v, owner, m, n, rfl, howner, htarget, hversion, hfits.unknownType_mem he hunknown⟩
  · rintro ⟨v, owner, m, n, rfl, howner, hone, hn, -⟩
    refine ⟨(.ident v, n), pin?_eq_some_iff.mpr ⟨v, name, args, m, rfl, rfl, ?_, by rw [hn]; rfl⟩⟩
    rw [Scope.target?_ident_eq_some howner]
    simpa only [Scope.parameterTypes_eq_iff] using hone

/-- Both versions of `Depot` log, and the type of what the second one logs is called `UNKNOWN`. -/
def depots : List CompilationUnit :=
  [{ types := [{ name := "Depot__1__", members := [.method
      { modifiers := .pub, returnType := .void, name := "log",
        params := [{ ty := .plain "int", name := "number" }] }] }] },
    { types := [{ name := "Depot__2__", members := [.method
      { modifiers := .pub, returnType := .void, name := "log",
        params := [{ ty := .plain "UNKNOWN", name := "thing" }] }] }] },
    { types := [{ name := "Main", members := [.method
      { returnType := .void, name := "main", body := some [
          .vars { ty := .plain "Depot", declarators := [{ name := "t" }] },
          .expr (.callOn (.ident "t") "log" [.ident "missing"])] }] }] }]

/-- Pinning inside of the method that has the call. -/
def depotCalls : Pinning where
  scope := ((Scope.mk (.build .standard depots) .standard []).enterType "Main").enterSignature "main" []

theorem unknown_argument_pinned_depots :
    depotCalls.scope.knownType? (.ident "missing") = none ∧
      (pin {} (.expr (.callOn (.ident "t") "log" [.ident "missing"]))).run depotCalls ≠
        (.keep (.expr (.callOn (.ident "t") "log" [.ident "missing"])), depotCalls) := by
  have hunknown : depotCalls.scope.knownType? (.ident "missing") = none := by decide +kernel
  refine ⟨hunknown, (unknown_argument_pinned_iff {} depotCalls (some (.ident "t")) "log"
    [.ident "missing"] ⟨_, List.mem_singleton_self _, hunknown⟩).mpr ?_⟩
  rw [depotCalls, SymbolTable.build_eq_foldl]
  exact ⟨"t", _, _, 2, rfl, rfl, rfl, rfl, by decide⟩

/-- Not every call with an argument of unknown type is left as it is. -/
theorem not_every_unknown_argument_kept :
    ¬ ∀ (st : Pinning) (receiver : Option Expr) (name : String) (args : List Expr),
      (∃ e ∈ args, st.scope.knownType? e = none) →
        (pin {} (.expr (.call receiver name args))).run st =
          (.keep (.expr (.call receiver name args)), st) := by
  intro h
  have hkept := run_pin_eq_keep_iff.mp (h depotCalls (some (.ident "t")) "log" [.ident "missing"]
    ⟨_, List.mem_singleton_self _, by decide +kernel⟩)
  have hpinned : pin? depotCalls.scope (.expr (.callOn (.ident "t") "log" [.ident "missing"])) =
      some (.ident "t", 2) := by
    rw [depotCalls, SymbolTable.build_eq_foldl]
    rfl
  cases hkept.symm.trans hpinned

end Pinning

end VersionWeave
