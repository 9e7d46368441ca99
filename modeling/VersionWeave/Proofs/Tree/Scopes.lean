import VersionWeave.Proofs.Tree.EveryNote
import VersionWeave.Proofs.Tree.TypesEdited

namespace VersionWeave

mutual

/-- The scopes in which the parts of a member are edited. -/
def Member.scopes (s : Scope) : Member → List Scope
  | .field _ => [s]
  | .method m => [s.enterMethod m]
  | .constructor _ => [s.enterConstructor]
  | .type t => t.scopes s

def TypeDecl.scopes (s : Scope) : TypeDecl → List Scope
  | ⟨_, _, name, _, _, members⟩ => s.enterType name :: Member.allScopes (s.enterType name) members

def Member.allScopes (s : Scope) : List Member → List Scope
  | [] => []
  | m :: rest => m.scopes s ++ Member.allScopes s rest

end

def CompilationUnit.scopes (s : Scope) (u : CompilationUnit) : List Scope :=
  u.types.flatMap (TypeDecl.scopes s)

section

variable {table : SymbolTable} {marker : Marker}

mutual

theorem Member.scopes_over : ∀ (m : Member) {s : Scope}, s.Over table marker →
    ∀ x ∈ m.scopes s, x.Over table marker
  | .field _, _, hs => List.forall_mem_singleton.mpr hs
  | .method m, _, hs => List.forall_mem_singleton.mpr (hs.enterMethod m)
  | .constructor _, _, hs => List.forall_mem_singleton.mpr hs.enterConstructor
  | .type t, _, hs => TypeDecl.scopes_over t hs

theorem TypeDecl.scopes_over : ∀ (t : TypeDecl) {s : Scope}, s.Over table marker →
    ∀ x ∈ t.scopes s, x.Over table marker
  | ⟨_, _, name, _, _, members⟩, _, hs =>
    List.forall_mem_cons.mpr ⟨hs.enterType name, Member.allScopes_over members (hs.enterType name)⟩

theorem Member.allScopes_over : ∀ (ms : List Member) {s : Scope}, s.Over table marker →
    ∀ x ∈ Member.allScopes s ms, x.Over table marker
  | [], _, _ => by simp [Member.allScopes]
  | m :: rest, _, hs =>
    List.forall_mem_append.mpr ⟨Member.scopes_over m hs, Member.allScopes_over rest hs⟩

end

theorem CompilationUnit.scopes_over (u : CompilationUnit) {s : Scope} (hs : s.Over table marker) :
    ∀ x ∈ u.scopes s, x.Over table marker := by
  intro x hx
  obtain ⟨t, -, hx⟩ := List.mem_flatMap.mp hx
  exact TypeDecl.scopes_over t hs x hx

end

section

variable {ed : Scope → Editor} {P Q : TypeRef → Prop}

mutual

theorem Member.edit_inert : ∀ (m : Member) {s : Scope}, (∀ x ∈ m.scopes s, (ed x).Inert P) →
    m.outline.Types P → m.edit ed s = m
  | .field f, s, hi, h => by
    simp only [Member.outline, Outline.types_node, Outline.allTypes_cons] at h
    rw [Member.edit, (hi s List.mem_cons_self).field f h.1.1]
  | .method m, s, hi, h => by
    simp only [Member.outline, Outline.types_node, Outline.allTypes_cons] at h
    rw [Member.edit, (hi (s.enterMethod m) List.mem_cons_self).method m h.1.1]
  | .constructor c, s, hi, h => by
    simp only [Member.outline, Outline.types_node, Outline.allTypes_cons] at h
    rw [Member.edit, (hi s.enterConstructor List.mem_cons_self).constructorDecl c h.1.1]
  | .type t, s, hi, h => by
    simp only [Member.outline, Outline.types_node, Outline.allTypes_cons] at h
    rw [Member.edit, TypeDecl.edit_inert t hi h.1.1]

theorem TypeDecl.edit_inert : ∀ (t : TypeDecl) {s : Scope}, (∀ x ∈ t.scopes s, (ed x).Inert P) →
    t.outline.Types P → t.edit ed s = t
  | ⟨kind, modifiers, name, superclass, interfaces, members⟩, s, hi, h => by
    simp only [TypeDecl.outline, Outline.types_node, Outline.allTypes_append,
      TypeRef.outlines_eq_map, Outline.allTypes_map] at h
    obtain ⟨⟨⟨hsuper, hinterfaces⟩, hmembers⟩, -⟩ := h
    have hhere := hi (s.enterType name) List.mem_cons_self
    have hsuper' : superclass.map (ed (s.enterType name)).type = superclass := by
      cases superclass with
      | none => rfl
      | some t => rw [Option.map_some, hhere.type t (hsuper t (by simp))]
    have hinterfaces' : interfaces.map (ed (s.enterType name)).type = interfaces :=
      (List.map_congr_left fun t ht => hhere.type t (hinterfaces t ht)).trans (List.map_id' _)
    rw [TypeDecl.edit, hsuper', hinterfaces',
      Member.editAll_inert members (fun x hx => hi x (List.mem_cons_of_mem _ hx)) hmembers]

theorem Member.editAll_inert : ∀ (ms : List Member) {s : Scope},
    (∀ x ∈ Member.allScopes s ms, (ed x).Inert P) → Outline.AllTypes P (Member.outlines ms) →
      Member.editAll ed s ms = ms
  | [], _, _, _ => rfl
  | m :: rest, s, hi, h => by
    obtain ⟨hm, hrest⟩ := List.forall_mem_append.mp hi
    simp only [Member.outlines, Outline.allTypes_cons] at h
    rw [Member.editAll, Member.edit_inert m hm h.1, Member.editAll_inert rest hrest h.2]

end

/-- Where every scope has an inert editor the unit stays what it is. -/
theorem CompilationUnit.edit_inert {u : CompilationUnit} {s : Scope}
    (hi : ∀ x ∈ u.scopes s, (ed x).Inert P) (h : u.outline.Types P) : u.edit ed s = u := by
  simp only [CompilationUnit.outline, Outline.types_node, Outline.allTypes_map] at h
  have hsame : ∀ t ∈ u.types, t.edit ed s = t := fun t ht =>
    TypeDecl.edit_inert t (fun x hx => hi x (List.mem_flatMap.mpr ⟨t, ht, hx⟩)) (h.1 t ht)
  rw [CompilationUnit.edit, List.map_congr_left hsame, List.map_id']

mutual

theorem Member.types_edit : ∀ (m : Member) {s : Scope}, (∀ x ∈ m.scopes s, (ed x).Carries P Q) →
    m.outline.Types P → (m.edit ed s).outline.Types Q
  | .field f, s, hc, h => by
    simp only [Member.outline, Outline.types_node, Outline.allTypes_cons] at h
    simp [Member.edit, Member.outline, Node.OnType, (hc s List.mem_cons_self).field f h.1.1]
  | .method m, s, hc, h => by
    simp only [Member.outline, Outline.types_node, Outline.allTypes_cons] at h
    simp [Member.edit, Member.outline, Node.OnType,
      (hc (s.enterMethod m) List.mem_cons_self).method m h.1.1]
  | .constructor c, s, hc, h => by
    simp only [Member.outline, Outline.types_node, Outline.allTypes_cons] at h
    simp [Member.edit, Member.outline, Node.OnType,
      (hc s.enterConstructor List.mem_cons_self).constructorDecl c h.1.1]
  | .type t, s, hc, h => by
    simp only [Member.outline, Outline.types_node, Outline.allTypes_cons] at h
    simp [Member.edit, Member.outline, Node.OnType, TypeDecl.types_edit t hc h.1.1]

theorem TypeDecl.types_edit : ∀ (t : TypeDecl) {s : Scope},
    (∀ x ∈ t.scopes s, (ed x).Carries P Q) → t.outline.Types P → (t.edit ed s).outline.Types Q
  | ⟨kind, modifiers, name, superclass, interfaces, members⟩, s, hc, h => by
    simp only [TypeDecl.edit, TypeDecl.outline, Outline.types_node, Outline.allTypes_append,
      TypeRef.outlines_eq_map, Outline.allTypes_map] at h ⊢
    obtain ⟨⟨⟨hsuper, hinterfaces⟩, hmembers⟩, -⟩ := h
    have hhere := hc (s.enterType name) List.mem_cons_self
    refine ⟨⟨⟨fun t ht => ?_, fun t ht => ?_⟩, ?_⟩, trivial⟩
    · obtain ⟨t', ht', rfl⟩ := Option.map_eq_some_iff.mp (Option.mem_toList.mp ht)
      exact hhere.type t' (hsuper t' (Option.mem_toList.mpr ht'))
    · obtain ⟨t', ht', rfl⟩ := List.mem_map.mp ht
      exact hhere.type t' (hinterfaces t' ht')
    · exact Member.types_editAll members (fun x hx => hc x (List.mem_cons_of_mem _ hx)) hmembers

theorem Member.types_editAll : ∀ (ms : List Member) {s : Scope},
    (∀ x ∈ Member.allScopes s ms, (ed x).Carries P Q) → Outline.AllTypes P (Member.outlines ms) →
      Outline.AllTypes Q (Member.outlines (Member.editAll ed s ms))
  | [], _, _, _ => Outline.allTypes_nil
  | m :: rest, s, hc, h => by
    obtain ⟨hm, hrest⟩ := List.forall_mem_append.mp hc
    simp only [Member.outlines, Outline.allTypes_cons] at h
    simp only [Member.editAll, Member.outlines, Outline.allTypes_cons]
    exact ⟨Member.types_edit m hm h.1, Member.types_editAll rest hrest h.2⟩

end

end

end VersionWeave
