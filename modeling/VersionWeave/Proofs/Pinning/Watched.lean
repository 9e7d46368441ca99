import VersionWeave.Proofs.Pinning.Run
import VersionWeave.Proofs.Tree.Frames

namespace VersionWeave

/-- A statement as it is handed over, with the innermost frame and the number of loop headers. -/
structure Sighting where
  frame : Option Frame
  headers : Nat
  stmt : Stmt

namespace Pinning

variable (naming : Naming) (s : Scope)

theorem pin?_innermost (x : Stmt) : pin? s.innermost x = pin? s x := by
  obtain ⟨table, marker, frames⟩ := s
  cases frames <;> rfl

theorem editor_innermost : editor naming s.innermost = editor naming s := by
  simp only [editor, pin?_innermost]
  rfl

end Pinning

/-- Pinning under watch: its state, what it was at each statement, and whether it ever left a loop
header with none around. -/
structure Watch where
  pinning : Pinning
  seen : List Sighting := []
  underflow : Bool := false

namespace Watch

variable {α : Type}

def lift (x : StateM Pinning α) : StateM Watch α := do
  let w ← get
  let (a, pinning) := x.run w.pinning
  set { w with pinning }
  return a

/-- Every step of pinning as it is, with a look at the state before the two that use the headers. -/
def reviser (naming : Naming) : Reviser Watch :=
  let r := Pinning.reviser naming
  { enterType := fun t => lift (r.enterType t)
    leaveType := fun t => lift (r.leaveType t)
    enterMethod := fun m => lift (r.enterMethod m)
    leaveMethod := fun m => lift (r.leaveMethod m)
    enterConstructor := fun c => lift (r.enterConstructor c)
    leaveConstructor := fun c => lift (r.leaveConstructor c)
    enterForInit := lift r.enterForInit
    leaveForInit := do
      modify fun w => { w with underflow := w.underflow || w.pinning.headers == 0 }
      lift r.leaveForInit
    unit := fun u => lift (r.unit u)
    typeDecl := fun t => lift (r.typeDecl t)
    member := fun m => lift (r.member m)
    stmt := fun x => do
      modify fun w =>
        { w with seen := w.seen ++ [⟨w.pinning.scope.current?, w.pinning.headers, x⟩] }
      lift (r.stmt x)
    expr := fun e => lift (r.expr e)
    target := fun e => lift (r.target e)
    typeRef := fun t => lift (r.typeRef t) }

/-- Every statement is seen. -/
def sights (s : Scope) : Notes Sighting where
  stmt h x := [⟨s.current?, h, x⟩]

/-- What is seen of some bodies: only their own frame is known, and no header is around them. -/
def sightings (naming : Naming) (s : Scope) (bodies : List (Frame × Block)) : List Sighting :=
  bodyNotes (Pinning.editor naming) sights s bodies

/-- What is seen at each statement, with the switch call that is put in there. -/
def watched (s : Scope) : Notes (Sighting × List Pin) where
  stmt h x := [(⟨s.current?, h, x⟩, (Pinning.notes s).stmt h x)]

variable (naming : Naming) (s : Scope) (u : CompilationUnit)

theorem pins_eq_flatMap_watched :
    Pinning.pins naming s u = (u.notes (Pinning.editor naming) watched s).flatMap Prod.snd :=
  CompilationUnit.notes_from (fun _ => ⟨fun _ => rfl, fun _ _ => (List.append_nil _).symm⟩) u s

theorem sights_eq_map_watched : u.notes (Pinning.editor naming) sights s =
    (u.notes (Pinning.editor naming) watched s).map Prod.fst := by
  rw [List.map_eq_flatMap]
  exact CompilationUnit.notes_from (fun _ => ⟨fun _ => rfl, fun _ _ => rfl⟩) u s

/-- What is seen does not depend on the frames further out. -/
theorem sights_eq_sightings : u.notes (Pinning.editor naming) sights s =
    sightings naming s (u.bodies s.table s.marker) := by
  have hinnermost : (fun s : Scope => sights s.innermost) = sights := by
    funext s
    obtain ⟨table, marker, frames⟩ := s
    cases frames <;> rfl
  have hall : Suffices sights fun _ => true :=
    ⟨fun _ _ _ => rfl, fun _ _ _ _ _ => rfl, fun _ _ _ => .inl rfl⟩
  have hbodies := u.notes_eq_bodyNotes (Pinning.editor_innermost naming) hall s
  rw [hinnermost, List.filter_eq_self.mpr fun _ _ => rfl] at hbodies
  exact hbodies

mutual

theorem run_typeRef (w : Watch) : ∀ t : TypeRef,
    (t.revise (reviser naming)).run w = (t.normalize w.pinning.scope.marker, w)
  | ⟨name, args, dims⟩ => by
    simp only [TypeRef.revise, TypeRef.normalize, run_bind, run_typeRefs w args]
    rfl

theorem run_typeRefs (w : Watch) : ∀ ts : List TypeRef,
    (TypeRef.reviseAll (reviser naming) ts).run w =
      (TypeRef.normalizeAll w.pinning.scope.marker ts, w)
  | [] => rfl
  | t :: rest => by
    simp only [TypeRef.reviseAll, TypeRef.normalizeAll, run_bind, run_pure, run_typeRef w t,
      run_typeRefs w rest]

end

theorem run_lift (x : StateM Pinning α) (w : Watch) : (lift x).run w =
    ((x.run w.pinning).1, { w with pinning := (x.run w.pinning).2 }) := rfl

theorem follows (count : Nat) : (reviser naming).Follows (Pinning.editor naming) watched
    fun s h l => ⟨⟨s, h, count + (l.flatMap Prod.snd).length⟩, l.map Prod.fst, false⟩ where
  enterType _ _ _ _ := rfl
  leaveType _ _ _ _ := rfl
  enterMethod _ _ _ _ := rfl
  leaveMethod _ _ _ _ := rfl
  enterConstructor _ _ _ _ := rfl
  leaveConstructor _ _ _ _ := rfl
  enterForInit _ _ _ := rfl
  leaveForInit _ _ _ := rfl
  unit _ := rfl
  typeDecl _ := rfl
  member _ := rfl
  target _ := rfl
  type t _ _ _ := run_typeRef naming _ t
  expr e s h l := by
    rw [watched, List.append_nil]
    rfl
  stmt x s h l := by
    have hstep : ((reviser naming).stmt x).run
        ⟨⟨s, h, count + (l.flatMap Prod.snd).length⟩, l.map Prod.fst, false⟩ =
          (lift (Pinning.pin naming x)).run ⟨⟨s, h, count + (l.flatMap Prod.snd).length⟩,
            l.map Prod.fst ++ [⟨s.current?, h, x⟩], false⟩ := rfl
    rw [hstep, run_lift, Pinning.run_pin]
    simp [watched, Nat.add_assoc]

/-- Under watch pinning goes as it goes, and each statement is seen with the frame of its own body
and as many headers as there are lists around it that open a loop. -/
theorem run_unit (count : Nat) :
    (u.revise (reviser naming)).run { pinning := { scope := s, pinned := count } } =
      (u.edit (Pinning.editor naming) s,
        { pinning := { scope := s, pinned := count + (Pinning.pins naming s u).length }
          seen := sightings naming s (u.bodies s.table s.marker) }) := by
  rw [pins_eq_flatMap_watched, ← sights_eq_sightings, sights_eq_map_watched]
  exact (follows naming count).run_unit u s []

end Watch

end VersionWeave
