import VersionWeave.Proofs.Batch.Marks
import VersionWeave.Proofs.Pinning.Watched

namespace VersionWeave

theorem Scope.plain_of_method? {s : Scope} (h : s.method? = none) : s.Plain := fun v => by
  rw [versionedClass?, variableType?, h]
  rfl

namespace Pinning

variable (naming : Naming) (s : Scope) (u : CompilationUnit)

/-- Pinning with the frame handed down: calls are pinned in methods, types lose their marks
everywhere. -/
def framedEdit : CompilationUnit :=
  u.editIn { type := TypeRef.normalize s.marker } fun owner m =>
    editor naming (s.only (.ofMethod s.table s.marker owner m))

/-- The switch calls put in, body by body. -/
def framedPins : List Pin :=
  bodyNotes (editor naming) notes s (methodBodies (u.bodies s.table s.marker))

theorem inMethodsOnly :
    InMethodsOnly (editor naming) fun marker => { type := TypeRef.normalize marker } where
  innermost := editor_innermost naming
  plain s hm := by
    have hpin : ∀ x, pin? s x = none := pin?_of_plain (Scope.plain_of_method? hm)
    simp only [editor, hpin]

theorem edit_eq_framedEdit : u.edit (editor naming) s = framedEdit naming s u :=
  u.edit_eq_editIn (inMethodsOnly naming) s

theorem length_framedPins : (pins naming s u).length = (framedPins naming s u).length := by
  -- a pin says in which scope it stands; the tally knows the innermost frame only
  have htally : ∀ s : Scope, (notes s.innermost).Tallies (notes s) := fun s =>
    ⟨fun _ => rfl, fun _ x => by simp only [notes, pin?_innermost, List.length_map]⟩
  rw [length_pins naming htally, framedPins, methodBodies, u.notes_eq_bodyNotes
    (editor_innermost naming) (suffices_methods fun _ hm => notes_of_plain (Scope.plain_of_method? hm))]

end Pinning

namespace FieldAccess

variable (naming : Naming) (s : Scope) (u : CompilationUnit)

/-- Field revision with the frame handed down: only methods are touched. -/
def framedEdit : CompilationUnit :=
  u.editIn {} fun owner m => editor naming (s.only (.ofMethod s.table s.marker owner m))

/-- The accesses that give way, body by body. -/
def framedAccesses : List Access :=
  bodyNotes (editor naming) notes s (methodBodies (u.bodies s.table s.marker))

theorem accessed?_innermost (e : Expr) : s.innermost.accessed? e = s.accessed? e := by
  obtain ⟨table, marker, frames⟩ := s
  cases frames <;> rfl

theorem replacedAccess?_innermost (e : Expr) :
    replacedAccess? s.innermost e = replacedAccess? s e := by
  cases e <;> simp only [replacedAccess?, accessed?_innermost]

theorem inMethodsOnly : InMethodsOnly (editor naming) fun _ => {} where
  innermost s := by
    have hreplacement : replacement? naming s.innermost = replacement? naming s := by
      funext e
      cases e <;> simp only [replacement?, accessed?_innermost]
    simp only [editor, hreplacement]
  plain s hm := by
    have hinert : (editor naming s).Inert fun _ => True :=
      editor_inert (Scope.plain_of_method? hm) _
    have hexpr : (editor naming s).expr = id := funext hinert.expr
    rw [← hexpr]
    rfl

theorem edit_eq_framedEdit : u.edit (editor naming) s = framedEdit naming s u :=
  u.edit_eq_editIn (inMethodsOnly naming) s

theorem length_framedAccesses :
    (accesses naming s u).length = (framedAccesses naming s u).length := by
  have htally : ∀ s : Scope, (notes s.innermost).Tallies (notes s) := fun s =>
    ⟨fun e => by simp only [notes, replacedAccess?_innermost, List.length_map], fun _ _ => rfl⟩
  rw [length_accesses naming htally, framedAccesses, methodBodies, u.notes_eq_bodyNotes
    (inMethodsOnly naming).innermost
    (suffices_methods fun _ hm => notes_of_plain (Scope.plain_of_method? hm))]

end FieldAccess

/--
Both passes keep their place by entering and leaving declarations, and it is always the right one:
from any place they give what comes of handing down the frame of each body, told by the name of the
innermost type and the signature of the method, and they are back where they were at the end.
Watched, pinning has the frame of its body at each statement and as many loop headers as there are
lists around it that open a loop; it never leaves a header with none around.
-/
theorem revisers_keep_their_place (naming : Naming) (s : Scope) (u : CompilationUnit) (count : Nat) :
    let pinning : Pinning :=
      { scope := s, headers := 0, pinned := count + (Pinning.framedPins naming s u).length }
    (u.revise (Pinning.reviser naming)).run { scope := s, pinned := count } =
        (Pinning.framedEdit naming s u, pinning) ∧
      (u.revise (FieldAccess.reviser naming)).run { scope := s, replaced := count } =
        (FieldAccess.framedEdit naming s u,
          { scope := s, replaced := count + (FieldAccess.framedAccesses naming s u).length }) ∧
      (u.revise (Watch.reviser naming)).run { pinning := { scope := s, pinned := count } } =
        (Pinning.framedEdit naming s u,
          { pinning
            seen := Watch.sightings naming s (u.bodies s.table s.marker)
            underflow := false }) := by
  refine ⟨?_, ?_, ?_⟩
  · rw [Pinning.run_reviser, Pinning.edit_eq_framedEdit, Pinning.length_framedPins]
  · rw [FieldAccess.run_reviser, FieldAccess.edit_eq_framedEdit, FieldAccess.length_framedAccesses]
  · rw [Watch.run_unit, Pinning.edit_eq_framedEdit, Pinning.length_framedPins]

end VersionWeave
