import VersionWeave.Proofs.Tree.EveryNote

namespace VersionWeave

namespace Frame

/-- What a type declaration says by its own name, of itself and all that it directly encloses. -/
def ofType (table : SymbolTable) (marker : Marker) (owner : String) : Frame where
  kind := .type
  owner := table.get? (marker.parse owner).base
  version := (marker.parse owner).version
  method := none

/-- In a method, the entry under its normalized signature is known as well. -/
def ofMethod (table : SymbolTable) (marker : Marker) (owner : String) (m : MethodDecl) : Frame :=
  let around := ofType table marker owner
  { around with
    kind := .method
    method := around.owner.bind fun c =>
      c.findMethod? m.name (signatureTypes marker m.params) around.version }

def ofConstructor (table : SymbolTable) (marker : Marker) (owner : String) : Frame :=
  { ofType table marker owner with kind := .constructor }

end Frame

namespace Scope

/-- A place of which only the innermost frame is known. -/
def only (s : Scope) (f : Frame) : Scope := { s with frames := [f] }

/-- The innermost frame alone. -/
def innermost (s : Scope) : Scope := { s with frames := s.frames.take 1 }

end Scope

mutual

/--
Edits a member of a type of the given name: methods in one way, told the name and the method, and
all else in another. No scope is kept.
-/
def Member.editIn (plain : Editor) (inMethod : String → MethodDecl → Editor) (owner : String) :
    Member → Member
  | .field f => .field (f.edit plain)
  | .method m => .method (m.edit (inMethod owner m))
  | .constructor c => .constructor (c.edit plain)
  | .type t => .type (t.editIn plain inMethod)

def TypeDecl.editIn (plain : Editor) (inMethod : String → MethodDecl → Editor) :
    TypeDecl → TypeDecl
  | ⟨kind, modifiers, name, superclass, interfaces, members⟩ =>
    ⟨kind, modifiers, name, superclass.map plain.type, interfaces.map plain.type,
      Member.editAllIn plain inMethod name members⟩

def Member.editAllIn (plain : Editor) (inMethod : String → MethodDecl → Editor) (owner : String) :
    List Member → List Member
  | [] => []
  | m :: rest => m.editIn plain inMethod owner :: Member.editAllIn plain inMethod owner rest

end

def CompilationUnit.editIn (plain : Editor) (inMethod : String → MethodDecl → Editor)
    (u : CompilationUnit) : CompilationUnit :=
  { u with types := u.types.map (TypeDecl.editIn plain inMethod) }

mutual

/-- The bodies of a member of a type of the given name, each with its frame. -/
def Member.bodies (table : SymbolTable) (marker : Marker) (owner : String) :
    Member → List (Frame × Block)
  | .field _ => []
  | .method m => [(.ofMethod table marker owner m, m.body.getD [])]
  | .constructor c => [(.ofConstructor table marker owner, c.body)]
  | .type t => t.bodies table marker

def TypeDecl.bodies (table : SymbolTable) (marker : Marker) : TypeDecl → List (Frame × Block)
  | ⟨_, _, name, _, _, members⟩ => Member.allBodies table marker name members

def Member.allBodies (table : SymbolTable) (marker : Marker) (owner : String) :
    List Member → List (Frame × Block)
  | [] => []
  | m :: rest => m.bodies table marker owner ++ Member.allBodies table marker owner rest

end

def CompilationUnit.bodies (table : SymbolTable) (marker : Marker) (u : CompilationUnit) :
    List (Frame × Block) :=
  u.types.flatMap (TypeDecl.bodies table marker)

/-- The methods among some bodies. -/
def methodBodies (bodies : List (Frame × Block)) : List (Frame × Block) :=
  bodies.filter fun b => b.1.kind = .method

section

variable {ed : Scope → Editor} {plain : Marker → Editor}

/-- What an editor does at a place depends on the innermost frame, and on it in methods only. -/
structure InMethodsOnly (ed : Scope → Editor) (plain : Marker → Editor) : Prop where
  innermost : ∀ s : Scope, ed s.innermost = ed s
  plain : ∀ s : Scope, s.method? = none → ed s = plain s.marker

/-- In a method of a type only the name of the type counts, not what is around it. -/
theorem InMethodsOnly.inMethod (h : InMethodsOnly ed plain) (s : Scope) (owner : String)
    (m : MethodDecl) : ed ((s.enterType owner).enterMethod m) =
      ed (s.only (.ofMethod s.table s.marker owner m)) :=
  (h.innermost _).symm

mutual

theorem Member.edit_eq_editIn (h : InMethodsOnly ed plain) (owner : String) :
    ∀ (m : Member) (s : Scope), m.edit ed (s.enterType owner) =
      m.editIn (plain s.marker) (fun owner m => ed (s.only (.ofMethod s.table s.marker owner m))) owner
  | .field f, s => by
    rw [Member.edit, Member.editIn, h.plain (s.enterType owner) rfl]
    rfl
  | .method m, s => by rw [Member.edit, Member.editIn, h.inMethod]
  | .constructor c, s => by
    rw [Member.edit, Member.editIn, h.plain (s.enterType owner).enterConstructor rfl]
    rfl
  | .type t, s => by
    rw [Member.edit, Member.editIn, TypeDecl.edit_eq_editIn h t]
    rfl

theorem TypeDecl.edit_eq_editIn (h : InMethodsOnly ed plain) : ∀ (t : TypeDecl) (s : Scope),
    t.edit ed s =
      t.editIn (plain s.marker) fun owner m => ed (s.only (.ofMethod s.table s.marker owner m))
  | ⟨_, _, name, _, _, members⟩, s => by
    rw [TypeDecl.edit, TypeDecl.editIn, h.plain (s.enterType name) rfl,
      Member.editAll_eq_editAllIn h name members s]
    rfl

theorem Member.editAll_eq_editAllIn (h : InMethodsOnly ed plain) (owner : String) :
    ∀ (ms : List Member) (s : Scope), Member.editAll ed (s.enterType owner) ms =
      Member.editAllIn (plain s.marker)
        (fun owner m => ed (s.only (.ofMethod s.table s.marker owner m))) owner ms
  | [], _ => rfl
  | m :: rest, s => by
    rw [Member.editAll, Member.editAllIn, Member.edit_eq_editIn h owner m s,
      Member.editAll_eq_editAllIn h owner rest s]

end

/-- A scope passed down is as good as the name of the innermost type. -/
theorem CompilationUnit.edit_eq_editIn (h : InMethodsOnly ed plain) (u : CompilationUnit)
    (s : Scope) : u.edit ed s =
      u.editIn (plain s.marker) fun owner m => ed (s.only (.ofMethod s.table s.marker owner m)) := by
  rw [CompilationUnit.edit, CompilationUnit.editIn,
    List.map_congr_left fun t _ => TypeDecl.edit_eq_editIn h t s]

end

section

variable {ι : Type} {ed : Scope → Editor} {notes : Scope → Notes ι} {p : Frame × Block → Bool}

/-- All that is written down about some bodies, of which only the frame is known. -/
def bodyNotes (ed : Scope → Editor) (notes : Scope → Notes ι) (s : Scope)
    (bodies : List (Frame × Block)) : List ι :=
  bodies.flatMap fun b => Stmt.allNotes (ed (s.only b.1)) (notes (s.only b.1)) 0 b.2

theorem bodyNotes_append (s : Scope) (bodies bodies' : List (Frame × Block)) :
    bodyNotes ed notes s (bodies ++ bodies') =
      bodyNotes ed notes s bodies ++ bodyNotes ed notes s bodies' :=
  List.flatMap_append

/--
Some of the bodies are enough: nothing is written down about the value of a field, nor about a
constructor that is not among them.
-/
structure Suffices (notes : Scope → Notes ι) (p : Frame × Block → Bool) : Prop where
  field : ∀ (s : Scope) (owner : String) (e : Expr), (notes (s.enterType owner).innermost).expr e = []
  method : ∀ table marker owner m b, p (.ofMethod table marker owner m, b) = true
  constructor : ∀ (s : Scope) (owner : String) (b : Block),
    p (.ofConstructor s.table s.marker owner, b) = true ∨
      (notes (s.enterType owner).enterConstructor.innermost).All fun _ => False

/-- The methods are enough where nothing is written down but in methods. -/
theorem suffices_methods (hquiet : ∀ s : Scope, s.method? = none → (notes s).All fun _ => False) :
    Suffices notes fun b => b.1.kind = .method where
  field s owner e :=
    List.eq_nil_iff_forall_not_mem.mpr ((hquiet (s.enterType owner).innermost rfl).expr e)
  method _ _ _ _ _ := rfl
  constructor s owner _ := .inr (hquiet (s.enterType owner).enterConstructor.innermost rfl)

mutual

theorem Member.notes_eq_bodyNotes (hed : ∀ s : Scope, ed s.innermost = ed s)
    (hp : Suffices notes p) (owner : String) : ∀ (m : Member) (s : Scope),
      m.notes ed (fun s => notes s.innermost) (s.enterType owner) =
        bodyNotes ed notes s ((m.bodies s.table s.marker owner).filter p)
  | .field f, s => by
    refine List.eq_nil_iff_forall_not_mem.mpr (Declarator.forall_allNotes (fun e x hx => ?_) _)
    rw [hp.field] at hx
    exact List.not_mem_nil hx
  | .method m, s => by
    rw [Member.notes, ← hed, Member.bodies, List.filter_cons_of_pos (hp.method ..)]
    exact (List.append_nil _).symm
  | .constructor c, s => by
    rw [Member.notes, ← hed, Member.bodies]
    by_cases hkept : p (.ofConstructor s.table s.marker owner, c.body) = true
    · rw [List.filter_cons_of_pos hkept]
      exact (List.append_nil _).symm
    · rw [List.filter_cons_of_neg hkept]
      have hquiet := (hp.constructor s owner c.body).resolve_left hkept
      exact List.eq_nil_iff_forall_not_mem.mpr (hquiet.block 0 c.body)
  | .type t, s => TypeDecl.notes_eq_bodyNotes hed hp t (s.enterType owner)

theorem TypeDecl.notes_eq_bodyNotes (hed : ∀ s : Scope, ed s.innermost = ed s)
    (hp : Suffices notes p) : ∀ (t : TypeDecl) (s : Scope),
      t.notes ed (fun s => notes s.innermost) s =
        bodyNotes ed notes s ((t.bodies s.table s.marker).filter p)
  | ⟨_, _, name, _, _, members⟩, s => Member.allNotes_eq_bodyNotes hed hp name members s

theorem Member.allNotes_eq_bodyNotes (hed : ∀ s : Scope, ed s.innermost = ed s)
    (hp : Suffices notes p) (owner : String) : ∀ (ms : List Member) (s : Scope),
      Member.allNotes ed (fun s => notes s.innermost) (s.enterType owner) ms =
        bodyNotes ed notes s ((Member.allBodies s.table s.marker owner ms).filter p)
  | [], _ => rfl
  | m :: rest, s => by
    rw [Member.allNotes, Member.allBodies, List.filter_append, bodyNotes_append,
      Member.notes_eq_bodyNotes hed hp owner m s, Member.allNotes_eq_bodyNotes hed hp owner rest s]

end

/-- All that is written down comes from bodies, and the frame of each is all that counts. -/
theorem CompilationUnit.notes_eq_bodyNotes (hed : ∀ s : Scope, ed s.innermost = ed s)
    (hp : Suffices notes p) (u : CompilationUnit) (s : Scope) :
    u.notes ed (fun s => notes s.innermost) s =
      bodyNotes ed notes s ((u.bodies s.table s.marker).filter p) := by
  rw [CompilationUnit.notes, CompilationUnit.bodies]
  induction u.types with
  | nil => rfl
  | cons t rest ih =>
    rw [List.flatMap_cons, List.flatMap_cons, List.filter_append, bodyNotes_append, ih,
      TypeDecl.notes_eq_bodyNotes hed hp t s]

end

end VersionWeave
