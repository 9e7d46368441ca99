import VersionWeave.Proofs.Pinning.Target

namespace VersionWeave

mutual

/-- The sequences of statements inside a statement: blocks, loop headers and arms. -/
def Stmt.runs : Stmt → List (List Stmt)
  | .block stmts => stmts :: Stmt.allRuns stmts
  | .ifElse _ thenBranch elseBranch => thenBranch.runs ++ Stmt.optionRuns elseBranch
  | .whileLoop _ body => body.runs
  | .forLoop init _ _ body => init :: Stmt.allRuns init ++ body.runs
  | .switch _ cases => SwitchCase.allRuns cases
  | _ => []

def Stmt.optionRuns : Option Stmt → List (List Stmt)
  | none => []
  | some s => s.runs

def Stmt.allRuns : List Stmt → List (List Stmt)
  | [] => []
  | s :: rest => s.runs ++ Stmt.allRuns rest

def SwitchCase.allRuns : List SwitchCase → List (List Stmt)
  | [] => []
  | ⟨_, body⟩ :: rest => body :: Stmt.allRuns body ++ SwitchCase.allRuns rest

end

/-- The sequences of statements in a body, the body itself first. -/
def Stmt.bodyRuns (body : List Stmt) : List (List Stmt) := body :: Stmt.allRuns body

mutual

def Member.runs : Member → List (List Stmt)
  | .field _ => []
  | .method m => Stmt.bodyRuns (m.body.getD [])
  | .constructor c => Stmt.bodyRuns c.body
  | .type t => t.runs

def TypeDecl.runs : TypeDecl → List (List Stmt)
  | ⟨_, _, _, _, _, members⟩ => Member.allRuns members

def Member.allRuns : List Member → List (List Stmt)
  | [] => []
  | m :: rest => m.runs ++ Member.allRuns rest

end

/-- All sequences of statements in a unit. -/
def CompilationUnit.runs (u : CompilationUnit) : List (List Stmt) := u.types.flatMap TypeDecl.runs

theorem Stmt.allRuns_append (front back : List Stmt) :
    Stmt.allRuns (front ++ back) = Stmt.allRuns front ++ Stmt.allRuns back := by
  induction front with
  | nil => rfl
  | cons s rest ih => rw [List.cons_append, Stmt.allRuns, ih, Stmt.allRuns, List.append_assoc]

/-- In one of the sequences the second statement comes right after the first. -/
def Successive (runs : List (List Stmt)) (first second : Stmt) : Prop :=
  ∃ run ∈ runs, [first, second] <:+: run

namespace Successive

variable {runs more : List (List Stmt)} {first second : Stmt}

theorem mono (h : Successive runs first second) (hmore : runs ⊆ more) :
    Successive more first second := by
  obtain ⟨run, hrun, hpair⟩ := h
  exact ⟨run, hmore hrun, hpair⟩

/-- What is successive in a part of a body is so in the whole body. -/
theorem body {part : List Stmt} (h : Successive (Stmt.bodyRuns part) first second)
    (front back : List Stmt) :
    Successive (Stmt.bodyRuns (front ++ part ++ back)) first second := by
  obtain ⟨run, hrun, hpair⟩ := h
  rcases List.mem_cons.mp hrun with rfl | hrun
  · exact ⟨_, List.mem_cons_self, hpair.trans ⟨front, back, rfl⟩⟩
  · refine ⟨run, List.mem_cons_of_mem _ ?_, hpair⟩
    rw [Stmt.allRuns_append, Stmt.allRuns_append]
    exact List.mem_append_left _ (List.mem_append_right _ hrun)

end Successive

namespace Pinning

variable {naming : Naming} {s place : Scope} {x : Stmt} {r : Expr} {n : UInt32}

theorem standing_expr (e : Expr) : ∀ p ∈ (standing s).expr e, False := fun _ => List.not_mem_nil

/-- Pinning puts a statement away into a block at most, with all that is in it. -/
theorem runs_editor (naming : Naming) (s : Scope) (h : Nat) (y : Stmt) :
    y.runs ⊆ ((editor naming s).stmt h y).single.runs ∧
      y.runs ⊆ Stmt.allRuns ((editor naming s).stmt h y).toList := by
  cases hpin : pin? s y with
  | none =>
    rw [editor_stmt_of_none hpin]
    exact ⟨List.Subset.refl _, List.subset_append_left _ _⟩
  | some p =>
    cases h with
    | zero =>
      rw [editor_stmt_zero hpin]
      simp [Edit.single, Edit.toList, Stmt.runs, Stmt.allRuns]
    | succ h =>
      rw [editor_stmt_succ hpin]
      simp [Edit.single, Edit.toList, Stmt.runs, Stmt.allRuns]

/-- What is written into a statement, or in its place, is there in whatever it is made into. -/
theorem successive_written (hpin : pin? place x = some (r, n)) {parts : List (Scope × Stmt)}
    {y : Stmt} (h : Nat)
    (hparts : (place, x) ∈ parts → Successive y.runs (.expr (naming.switchCall r n)) x)
    (hx : (place, x) ∈ parts ++ (standing s).stmt h y) :
    Successive ((editor naming s).stmt h y).single.runs (.expr (naming.switchCall r n)) x ∧
      Successive (Stmt.bodyRuns ((editor naming s).stmt h y).toList)
        (.expr (naming.switchCall r n)) x := by
  rcases List.mem_append.mp hx with hx | hx
  · obtain ⟨hsingle, hlist⟩ := runs_editor naming s h y
    exact ⟨(hparts hx).mono hsingle, (hparts hx).mono (List.subset_cons_of_subset _ hlist)⟩
  · obtain ⟨rfl, rfl⟩ := Prod.mk.inj (List.mem_singleton.mp hx)
    cases h with
    | zero =>
      rw [editor_stmt_zero hpin]
      exact ⟨⟨_, List.mem_cons_self, List.infix_rfl⟩,
        _, List.mem_cons_of_mem _ List.mem_cons_self, List.infix_rfl⟩
    | succ h =>
      -- no block in a loop header: the two are part of its own sequence
      rw [editor_stmt_succ hpin]
      exact ⟨⟨_, List.mem_cons_self, List.infix_rfl⟩, _, List.mem_cons_self, List.infix_rfl⟩

mutual

theorem successive_parts (hpin : pin? place x = some (r, n)) (s : Scope) (h : Nat) : ∀ y : Stmt,
    (place, x) ∈ y.partNotes (editor naming s) (standing s) h →
      Successive (y.editParts (editor naming s) h).runs (.expr (naming.switchCall r n)) x
  | .expr e, hx => (Expr.forall_notes standing_expr e _ hx).elim
  | .vars v, hx => (Declarator.forall_allNotes standing_expr v.declarators _ hx).elim
  | .block stmts, hx => successive_body hpin s h stmts hx
  | .ifElse cond thenBranch elseBranch, hx => by
    rcases List.mem_append.mp hx with hx | hx
    · rcases List.mem_append.mp hx with hx | hx
      · exact (Expr.forall_notes standing_expr cond _ hx).elim
      · exact (successive_written hpin h (successive_parts hpin s h thenBranch) hx).1.mono
          (List.subset_append_left _ _)
    · exact (successive_option hpin s h elseBranch hx).mono (List.subset_append_right _ _)
  | .whileLoop cond body, hx => by
    rcases List.mem_append.mp hx with hx | hx
    · exact (Expr.forall_notes standing_expr cond _ hx).elim
    · exact (successive_written hpin h (successive_parts hpin s h body) hx).1
  | .forLoop init cond update body, hx => by
    rcases List.mem_append.mp hx with hx | hx
    · rcases List.mem_append.mp hx with hx | hx
      · rcases List.mem_append.mp hx with hx | hx
        · exact (successive_body hpin s (h + 1) init hx).mono (List.subset_append_left _ _)
        · exact (Expr.forall_optionNotes standing_expr cond _ hx).elim
      · exact (Expr.forall_allNotes standing_expr update _ hx).elim
    · exact (successive_written hpin h (successive_parts hpin s h body) hx).1.mono
        (List.subset_append_right _ _)
  | .ret value, hx => (Expr.forall_optionNotes standing_expr value _ hx).elim
  | .switch selector cases, hx => by
    rcases List.mem_append.mp hx with hx | hx
    · exact (Expr.forall_notes standing_expr selector _ hx).elim
    · exact successive_arms hpin s h cases hx
  | .breakOut, hx => absurd hx List.not_mem_nil
  | .continueOn, hx => absurd hx List.not_mem_nil
  | .throw e, hx => (Expr.forall_notes standing_expr e _ hx).elim
  | .empty, hx => absurd hx List.not_mem_nil

theorem successive_option (hpin : pin? place x = some (r, n)) (s : Scope) (h : Nat) :
    ∀ y : Option Stmt, (place, x) ∈ Stmt.optionNotes (editor naming s) (standing s) h y →
      Successive (Stmt.optionRuns (Stmt.editOption (editor naming s) h y))
        (.expr (naming.switchCall r n)) x
  | none, hx => absurd hx List.not_mem_nil
  | some y, hx => (successive_written hpin h (successive_parts hpin s h y) hx).1

theorem successive_body (hpin : pin? place x = some (r, n)) (s : Scope) (h : Nat) :
    ∀ ys : List Stmt, (place, x) ∈ Stmt.allNotes (editor naming s) (standing s) h ys →
      Successive (Stmt.bodyRuns (Stmt.editAll (editor naming s) h ys))
        (.expr (naming.switchCall r n)) x
  | [], hx => absurd hx List.not_mem_nil
  | y :: rest, hx => by
    rcases List.mem_append.mp hx with hx | hx
    · exact (successive_written hpin h (successive_parts hpin s h y) hx).2.body [] _
    · have hrest := (successive_body hpin s h rest hx).body
        ((editor naming s).stmt h (y.editParts (editor naming s) h)).toList []
      rwa [List.append_nil] at hrest

theorem successive_arms (hpin : pin? place x = some (r, n)) (s : Scope) (h : Nat) :
    ∀ cs : List SwitchCase, (place, x) ∈ SwitchCase.allNotes (editor naming s) (standing s) h cs →
      Successive (SwitchCase.allRuns (SwitchCase.editAll (editor naming s) h cs))
        (.expr (naming.switchCall r n)) x
  | [], hx => absurd hx List.not_mem_nil
  | ⟨labels, body⟩ :: rest, hx => by
    rcases List.mem_append.mp hx with hx | hx
    · rcases List.mem_append.mp hx with hx | hx
      · exact (Expr.forall_allNotes standing_expr labels _ hx).elim
      · exact (successive_body hpin s h body hx).mono (List.subset_append_left _ _)
    · exact (successive_arms hpin s h rest hx).mono (List.subset_append_right _ _)

end

mutual

theorem successive_member (hpin : pin? place x = some (r, n)) :
    ∀ (m : Member) (s : Scope), (place, x) ∈ m.notes (editor naming) standing s →
      Successive (m.edit (editor naming) s).runs (.expr (naming.switchCall r n)) x
  | .field f, _, hx => (Declarator.forall_allNotes standing_expr f.declarators _ hx).elim
  | .method m, s, hx => by
    have hbody : (m.edit (editor naming (s.enterMethod m))).body.getD [] =
        Stmt.editAll (editor naming (s.enterMethod m)) 0 (m.body.getD []) := by
      rw [MethodDecl.edit]
      cases m.body <;> rfl
    rw [Member.edit, Member.runs, hbody]
    exact successive_body hpin _ 0 _ hx
  | .constructor c, s, hx => successive_body hpin s.enterConstructor 0 c.body hx
  | .type t, s, hx => successive_type hpin t s hx

theorem successive_type (hpin : pin? place x = some (r, n)) :
    ∀ (t : TypeDecl) (s : Scope), (place, x) ∈ t.notes (editor naming) standing s →
      Successive (t.edit (editor naming) s).runs (.expr (naming.switchCall r n)) x
  | ⟨_, _, name, _, _, members⟩, s, hx => successive_members hpin members (s.enterType name) hx

theorem successive_members (hpin : pin? place x = some (r, n)) :
    ∀ (ms : List Member) (s : Scope), (place, x) ∈ Member.allNotes (editor naming) standing s ms →
      Successive (Member.allRuns (Member.editAll (editor naming) s ms))
        (.expr (naming.switchCall r n)) x
  | [], _, hx => absurd hx List.not_mem_nil
  | m :: rest, s, hx => by
    rcases List.mem_append.mp hx with hx | hx
    · exact (successive_member hpin m s hx).mono (List.subset_append_left _ _)
    · exact (successive_members hpin rest s hx).mono (List.subset_append_right _ _)

end

/-- After pinning every pinned call comes right after its switch call. -/
theorem successive_of_mem_places (hpin : pin? place x = some (r, n)) {u : CompilationUnit}
    (hx : (place, x) ∈ places naming s u) :
    Successive (u.edit (editor naming) s).runs (.expr (naming.switchCall r n)) x := by
  obtain ⟨t, ht, hx⟩ := List.mem_flatMap.mp hx
  refine (successive_type hpin t s hx).mono fun run hrun => ?_
  exact List.mem_flatMap.mpr ⟨_, List.mem_map.mpr ⟨t, ht, rfl⟩, hrun⟩

end Pinning

end VersionWeave
