import VersionWeave.FieldAccess
import VersionWeave.Tree.ToJson
import VersionWeave.Unified.Build

namespace VersionWeave

/-- How often a batch was changed. -/
structure Stats where
  pinnedCalls : Nat := 0
  replacedAccesses : Nat := 0
  deriving DecidableEq, Repr

def Stats.add (s t : Stats) : Stats where
  pinnedCalls := s.pinnedCalls + t.pinnedCalls
  replacedAccesses := s.replacedAccesses + t.replacedAccesses

def Stats.toJson (s : Stats) : Json :=
  .record [("pinned_calls", .int s.pinnedCalls), ("rewritten_accesses", .int s.replacedAccesses)]

/-- What becomes of a batch of units. -/
structure Outcome where
  units : List CompilationUnit
  failures : List SynthesisError
  stats : Stats

def Outcome.isSuccess (o : Outcome) : Bool := o.failures.isEmpty

/-- The text that identifies an outcome: its units as one array. -/
def Outcome.unitsText (o : Outcome) : Json :=
  .ofList CompilationUnit.toJson o.units

/-- Options whose names have been checked, with the marker they give. -/
structure Weaver where
  options : Options := {}
  marker : Marker := .standard

namespace Weaver

def ofOptions (options : Options) : Except ConfigError Weaver :=
  options.naming.check.map fun marker => { options, marker }

def symbols (w : Weaver) (units : List CompilationUnit) : SymbolTable :=
  .build w.marker units

/-- Pins the calls of a unit, and counts them. -/
def pinUnit (w : Weaver) (table : SymbolTable) (u : CompilationUnit) : CompilationUnit × Nat :=
  let (u, st) := (u.revise (Pinning.reviser w.options.naming)).run
    { scope := { table, marker := w.marker } }
  (u, st.pinned)

/-- Replaces the field accesses of a unit, and counts them. -/
def replaceAccesses (w : Weaver) (table : SymbolTable) (u : CompilationUnit) :
    CompilationUnit × Nat :=
  let (u, st) := (u.revise (FieldAccess.reviser w.options.naming)).run
    { scope := { table, marker := w.marker } }
  (u, st.replaced)

def reviseUnit (w : Weaver) (table : SymbolTable) (u : CompilationUnit) : CompilationUnit × Stats :=
  let (u, pinnedCalls) := w.pinUnit table u
  let (u, replacedAccesses) := w.replaceAccesses table u
  (u, { pinnedCalls, replacedAccesses })

/-- The versioned base name that a unit belongs to, by its primary type. -/
def groupName? (w : Weaver) (table : SymbolTable) (u : CompilationUnit) : Option String :=
  (u.primaryName?.map w.marker.baseName).filter table.isVersioned

/-- The units of each versioned base name, by first appearance. -/
def groups (w : Weaver) (table : SymbolTable) (units : List CompilationUnit) : List Group :=
  let entries := units.foldl
    (fun entries u =>
      match w.groupName? table u with
      | some base => Entries.push entries base u
      | none => entries) ([] : Entries String (List CompilationUnit))
  entries.map fun e => { baseName := e.1, units := e.2 }

/-- The units that belong to no versioned base name. -/
def others (w : Weaver) (table : SymbolTable) (units : List CompilationUnit) :
    List CompilationUnit :=
  units.filter fun u => (w.groupName? table u).isNone

/--
Revises every unit, then builds one unit for each group. The units built come first, the others
follow as they came; a group that cannot be built is reported and stops no other.
-/
def transform (w : Weaver) (units : List CompilationUnit) : Outcome :=
  let table := w.symbols units
  let revised := units.map (w.reviseUnit table)
  let units := revised.map Prod.fst
  let built := (w.groups table units).map (Group.build w.marker table w.options)
  { units := built.filterMap (fun r => r.toOption) ++ w.others table units
    failures := built.filterMap fun
      | .error e => some e
      | .ok _ => none
    stats := revised.foldl (fun total r => total.add r.2) {} }

end Weaver

end VersionWeave
