import VersionWeave.Proofs.Pinning.Run
import VersionWeave.Proofs.Tree.Nodes

namespace VersionWeave

namespace Pinning

variable {naming : Naming} {s : Scope}

/-- Expressions are pinned side by side in a loop header, so only expressions come of them. -/
theorem plainHeader_edit {init : List Stmt} (hp : Stmt.plainHeader init = true) (h : Nat) :
    Stmt.plainHeader (Stmt.editAll (editor naming s) (h + 1) init) = true := by
  rcases Stmt.exprs_of_plainHeader hp with ⟨v, rfl⟩ | hexprs
  · rfl
  · refine Stmt.plainHeader_of_exprs ?_
    clear hp
    induction init with
    | nil => simp [Stmt.editAll]
    | cons x rest ih =>
      intro y hy
      obtain ⟨e, rfl⟩ := hexprs x List.mem_cons_self
      rcases List.mem_append.mp hy with hy | hy
      · cases hq : pin? s ((Stmt.expr e).editParts (editor naming s) (h + 1)) with
        | none =>
          rw [editor_stmt_of_none hq] at hy
          exact ⟨_, List.mem_singleton.mp hy⟩
        | some p =>
          rw [editor_stmt_succ hq] at hy
          rcases List.mem_cons.mp hy with hy | hy
          · exact ⟨_, hy⟩
          · exact ⟨_, List.mem_singleton.mp hy⟩
      · exact ih (fun z hz => hexprs z (List.mem_cons_of_mem _ hz)) y hy

theorem headers_single (naming : Naming) (s : Scope) (h : Nat) (x : Stmt) :
    ((editor naming s).stmt h x).single.outline.headersPlain = x.outline.headersPlain := by
  cases hp : pin? s x with
  | none => rw [editor_stmt_of_none hp]; rfl
  | some p =>
    cases h with
    | zero =>
      rw [editor_stmt_zero hp]
      simp [Edit.single, Stmt.outline, Stmt.outlines, Node.headerPlain]
    | succ h =>
      rw [editor_stmt_succ hp]
      simp [Edit.single, Stmt.outline, Stmt.outlines, Node.headerPlain]

theorem headers_list (naming : Naming) (s : Scope) (h : Nat) (x : Stmt) :
    Outline.allHeadersPlain (Stmt.outlines ((editor naming s).stmt h x).toList) =
      x.outline.headersPlain := by
  cases hp : pin? s x with
  | none => rw [editor_stmt_of_none hp]; simp [Edit.toList, Stmt.outlines]
  | some p =>
    cases h with
    | zero =>
      rw [editor_stmt_zero hp]
      simp [Edit.toList, Stmt.outline, Stmt.outlines, Node.headerPlain]
    | succ h =>
      rw [editor_stmt_succ hp]
      simp [Edit.toList, Stmt.outline, Stmt.outlines, Node.headerPlain]

mutual

theorem headers_parts : ∀ (x : Stmt) (h : Nat), x.outline.headersPlain = true →
    (x.editParts (editor naming s) h).outline.headersPlain = true
  | .expr e, h, _ => by simp [Stmt.editParts, Stmt.outline, Node.headerPlain]
  | .vars v, h, _ => by
    simp [Stmt.editParts, Stmt.outline, LocalVars.outline, Node.headerPlain]
  | .block stmts, h, hp => by
    simp only [Stmt.outline, Outline.headersPlain_node, Outline.allHeadersPlain_cons,
      Bool.and_eq_true] at hp
    simp [Stmt.editParts, Stmt.outline, Node.headerPlain, headers_all stmts h hp.1.1.1]
  | .ifElse cond thenBranch elseBranch, h, hp => by
    simp only [Stmt.outline, Outline.headersPlain_node, Outline.allHeadersPlain_cons,
      Bool.and_eq_true] at hp
    simp [Stmt.editParts, Stmt.outline, Node.headerPlain, headers_single,
      headers_parts thenBranch h hp.1.2.1, headers_option elseBranch h hp.1.2.2]
  | .whileLoop cond body, h, hp => by
    simp only [Stmt.outline, Outline.headersPlain_node, Outline.allHeadersPlain_cons,
      Bool.and_eq_true] at hp
    simp [Stmt.editParts, Stmt.outline, Node.headerPlain, headers_single,
      headers_parts body h hp.1.2.1]
  | .forLoop init cond update body, h, hp => by
    simp only [Stmt.outline, Outline.headersPlain_node, Outline.allHeadersPlain_append,
      Outline.allHeadersPlain_cons, Bool.and_eq_true, Node.headerPlain] at hp
    simp [Stmt.editParts, Stmt.outline, Node.headerPlain, headers_single,
      headers_all init (h + 1) hp.1.1.1.1, headers_parts body h hp.1.2.1, plainHeader_edit hp.2]
  | .ret value, h, _ => by simp [Stmt.editParts, Stmt.outline, Node.headerPlain]
  | .switch selector cases, h, hp => by
    simp only [Stmt.outline, Outline.headersPlain_node, Outline.allHeadersPlain_cons,
      Bool.and_eq_true] at hp
    simp [Stmt.editParts, Stmt.outline, Node.headerPlain, headers_cases cases h hp.1.2]
  | .throw e, h, _ => by simp [Stmt.editParts, Stmt.outline, Node.headerPlain]
  | .breakOut, h, hp | .continueOn, h, hp | .empty, h, hp => hp

theorem headers_option : ∀ (x : Option Stmt) (h : Nat),
    Outline.allHeadersPlain (Stmt.optionOutline x) = true →
    Outline.allHeadersPlain (Stmt.optionOutline (Stmt.editOption (editor naming s) h x)) = true
  | none, h, _ => rfl
  | some x, h, hp => by
    simp only [Stmt.optionOutline, Outline.allHeadersPlain_cons, Bool.and_eq_true] at hp
    simp [Stmt.editOption, Stmt.optionOutline, headers_single, headers_parts x h hp.1]

theorem headers_all : ∀ (xs : List Stmt) (h : Nat),
    Outline.allHeadersPlain (Stmt.outlines xs) = true →
    Outline.allHeadersPlain (Stmt.outlines (Stmt.editAll (editor naming s) h xs)) = true
  | [], h, _ => rfl
  | x :: rest, h, hp => by
    simp only [Stmt.outlines, Outline.allHeadersPlain_cons, Bool.and_eq_true] at hp
    simp [Stmt.editAll, headers_list, headers_parts x h hp.1, headers_all rest h hp.2]

theorem headers_cases : ∀ (cs : List SwitchCase) (h : Nat),
    Outline.allHeadersPlain (SwitchCase.outlines cs) = true →
    Outline.allHeadersPlain (SwitchCase.outlines (SwitchCase.editAll (editor naming s) h cs)) = true
  | [], h, _ => rfl
  | ⟨labels, body⟩ :: rest, h, hp => by
    simp only [SwitchCase.outlines, Outline.allHeadersPlain_append, Bool.and_eq_true] at hp
    simp [SwitchCase.editAll, SwitchCase.outlines, headers_all body h hp.1.2,
      headers_cases rest h hp.2]

end

theorem headers_method {m : MethodDecl} (hp : m.outline.headersPlain = true) :
    (m.edit (editor naming s)).outline.headersPlain = true := by
  cases hb : m.body with
  | none => simp [MethodDecl.edit, MethodDecl.outline, Node.headerPlain, hb, -List.map_map]
  | some b =>
    simp only [MethodDecl.outline, hb, Option.toList_some, List.map_cons, List.map_nil,
      Block.outline, Outline.headersPlain_node, Outline.allHeadersPlain_append,
      Outline.allHeadersPlain_cons, Bool.and_eq_true] at hp
    simp [MethodDecl.edit, MethodDecl.outline, Node.headerPlain, hb, Block.outline, -List.map_map,
      headers_all b 0 hp.1.2.1.1]

theorem headers_constructor {c : ConstructorDecl} (hp : c.outline.headersPlain = true) :
    (c.edit (editor naming s)).outline.headersPlain = true := by
  simp only [ConstructorDecl.outline, Block.outline, Outline.headersPlain_node,
    Outline.allHeadersPlain_append, Outline.allHeadersPlain_cons, Bool.and_eq_true] at hp
  simp [ConstructorDecl.edit, ConstructorDecl.outline, Node.headerPlain, Block.outline,
    -List.map_map, headers_all c.body 0 hp.1.2.1.1]

mutual

theorem headers_member : ∀ (m : Member) (s : Scope), m.outline.headersPlain = true →
    (m.edit (editor naming) s).outline.headersPlain = true
  | .field f, s, _ => by
    simp [Member.edit, Member.outline, FieldDecl.outline, Node.headerPlain]
  | .method m, s, hp => by
    simp only [Member.outline, Outline.headersPlain_node, Outline.allHeadersPlain_cons,
      Bool.and_eq_true] at hp
    simp [Member.edit, Member.outline, Node.headerPlain, headers_method hp.1.1]
  | .constructor c, s, hp => by
    simp only [Member.outline, Outline.headersPlain_node, Outline.allHeadersPlain_cons,
      Bool.and_eq_true] at hp
    simp [Member.edit, Member.outline, Node.headerPlain, headers_constructor hp.1.1]
  | .type t, s, hp => by
    simp only [Member.outline, Outline.headersPlain_node, Outline.allHeadersPlain_cons,
      Bool.and_eq_true] at hp
    simp [Member.edit, Member.outline, Node.headerPlain, headers_type t s hp.1.1]

theorem headers_type : ∀ (t : TypeDecl) (s : Scope), t.outline.headersPlain = true →
    (t.edit (editor naming) s).outline.headersPlain = true
  | ⟨_, _, name, _, _, members⟩, s, hp => by
    simp only [TypeDecl.outline, Outline.headersPlain_node, Outline.allHeadersPlain_append,
      Bool.and_eq_true] at hp
    simp [TypeDecl.edit, TypeDecl.outline, Node.headerPlain, -List.map_map,
      headers_members members (s.enterType name) hp.1.2]

theorem headers_members : ∀ (ms : List Member) (s : Scope),
    Outline.allHeadersPlain (Member.outlines ms) = true →
    Outline.allHeadersPlain (Member.outlines (Member.editAll (editor naming) s ms)) = true
  | [], s, _ => rfl
  | m :: rest, s, hp => by
    simp only [Member.outlines, Outline.allHeadersPlain_cons, Bool.and_eq_true] at hp
    simp [Member.editAll, Member.outlines, headers_member m s hp.1, headers_members rest s hp.2]

end

/-- Every loop header that could be written can still be written once its unit is pinned. -/
theorem headers_unit {u : CompilationUnit} (hp : u.outline.headersPlain = true) :
    (u.edit (editor naming) s).outline.headersPlain = true := by
  have hall : ∀ ts : List TypeDecl, Outline.allHeadersPlain (ts.map TypeDecl.outline) = true →
      Outline.allHeadersPlain ((ts.map (TypeDecl.edit (editor naming) s)).map TypeDecl.outline) =
        true := by
    intro ts hp
    induction ts with
    | nil => rfl
    | cons t rest ih =>
      simp only [List.map_cons, Outline.allHeadersPlain_cons, Bool.and_eq_true] at hp
      simp only [List.map_cons, Outline.allHeadersPlain_cons, headers_type t s hp.1, ih hp.2,
        Bool.and_self]
  simp only [CompilationUnit.outline, Outline.headersPlain_node, Bool.and_eq_true] at hp
  simp only [CompilationUnit.outline, CompilationUnit.edit, Outline.headersPlain_node,
    hall u.types hp.1, Node.headerPlain, Bool.and_self]

end Pinning

end VersionWeave
