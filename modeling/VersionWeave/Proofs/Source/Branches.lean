import VersionWeave.Proofs.Source.Marks

namespace VersionWeave

namespace Stmt

/-- An else behind the statement would belong to an if in it. -/
def isOpen : Stmt → Bool
  | .ifElse _ _ none => true
  | .ifElse _ _ (some s) => s.isOpen
  | .whileLoop _ body => body.isOpen
  | _ => false

mutual

/-- No else stands behind a branch that would take it. -/
def keepsElse : Stmt → Bool
  | .block stmts => allKeepElse stmts
  | .ifElse _ thenBranch none => thenBranch.keepsElse
  | .ifElse _ thenBranch (some s) => !thenBranch.isOpen && thenBranch.keepsElse && s.keepsElse
  | .whileLoop _ body => body.keepsElse
  | _ => true

def allKeepElse : List Stmt → Bool
  | [] => true
  | s :: rest => s.keepsElse && allKeepElse rest

end

/-- Gives an else to the nearest if that has none. -/
def giveElse (branch : Stmt) : Stmt → Stmt
  | .ifElse cond thenBranch none =>
    if thenBranch.isOpen then .ifElse cond (giveElse branch thenBranch) none
    else .ifElse cond thenBranch (some branch)
  | .ifElse cond thenBranch (some s) => .ifElse cond thenBranch (some (giveElse branch s))
  | .whileLoop cond body => .whileLoop cond (giveElse branch body)
  | s => s

mutual

/-- A statement as its text is read: each else belongs to the nearest if. -/
def reread : Stmt → Stmt
  | .block stmts => .block (rereadAll stmts)
  | .ifElse cond thenBranch none => .ifElse cond thenBranch.reread none
  | .ifElse cond thenBranch (some s) =>
    if thenBranch.reread.isOpen then .ifElse cond (giveElse s.reread thenBranch.reread) none
    else .ifElse cond thenBranch.reread (some s.reread)
  | .whileLoop cond body => .whileLoop cond body.reread
  | s => s

def rereadAll : List Stmt → List Stmt
  | [] => []
  | s :: rest => s.reread :: rereadAll rest

end

theorem marks_giveElse (branch : Stmt) : ∀ {s : Stmt}, s.isOpen = true →
    (giveElse branch s).marks = s.marks ++ .otherwise :: branch.marks
  | .ifElse cond thenBranch none, _ => by
    rw [giveElse]
    split
    next hopen => simp [marks, elseMarks, marks_giveElse branch hopen]
    next => simp [marks, elseMarks]
  | .ifElse cond thenBranch (some s), h => by
    simp [giveElse, marks, elseMarks, marks_giveElse branch (s := s) h]
  | .whileLoop cond body, h => by simp [giveElse, marks, marks_giveElse branch (s := body) h]
  | .expr _, h | .block _, h | .vars _, h | .forLoop .., h | .ret _, h | .switch .., h
  | .breakOut, h | .continueOn, h | .throw _, h | .empty, h => by cases h

theorem keepsElse_giveElse {branch : Stmt} (hbranch : branch.keepsElse = true) : ∀ {s : Stmt},
    s.keepsElse = true → (giveElse branch s).keepsElse = true
  | .ifElse cond thenBranch none, h => by
    rw [giveElse]
    split
    next => exact keepsElse_giveElse (s := thenBranch) hbranch h
    next hopen => simp [keepsElse, hopen, hbranch, show thenBranch.keepsElse = true from h]
  | .ifElse cond thenBranch (some s), h => by
    obtain ⟨hthen, hs⟩ := Bool.and_eq_true_iff.mp h
    exact Bool.and_eq_true_iff.mpr ⟨hthen, keepsElse_giveElse hbranch hs⟩
  | .whileLoop cond body, h => keepsElse_giveElse (s := body) hbranch h
  | .expr _, h | .block _, h | .vars _, h | .forLoop .., h | .ret _, h | .switch .., h
  | .breakOut, h | .continueOn, h | .throw _, h | .empty, h => h

theorem isBranching_giveElse {branch : Stmt} (hbranch : branch.isBranching = true) : ∀ {s : Stmt},
    s.isBranching = true → (giveElse branch s).isBranching = true
  | .ifElse cond thenBranch none, h => by
    obtain ⟨h, -⟩ := Bool.and_eq_true_iff.mp h
    obtain ⟨hcond, hthen⟩ := Bool.and_eq_true_iff.mp h
    rw [giveElse]
    split
    next => simp [isBranching, optionIsBranching, hcond, isBranching_giveElse hbranch hthen]
    next => simp [isBranching, optionIsBranching, hcond, hthen, hbranch]
  | .ifElse cond thenBranch (some s), h => by
    obtain ⟨hfront, hs⟩ := Bool.and_eq_true_iff.mp h
    exact Bool.and_eq_true_iff.mpr ⟨hfront, isBranching_giveElse (s := s) hbranch hs⟩
  | .whileLoop cond body, h => by
    obtain ⟨hcond, hbody⟩ := Bool.and_eq_true_iff.mp h
    exact Bool.and_eq_true_iff.mpr ⟨hcond, isBranching_giveElse hbranch hbody⟩
  | .expr _, h | .block _, h | .vars _, h | .forLoop .., h | .ret _, h | .switch .., h
  | .breakOut, h | .continueOn, h | .throw _, h | .empty, h => h

mutual

/-- Reading a text again does not change what it is written with. -/
theorem marks_reread : ∀ s : Stmt, s.reread.marks = s.marks
  | .block stmts => by rw [reread, marks, marks, marks_rereadAll stmts]
  | .ifElse cond thenBranch none => by rw [reread, marks, marks, marks_reread thenBranch]
  | .ifElse cond thenBranch (some s) => by
    rw [reread]
    split
    next hopen =>
      simp [marks, elseMarks, marks_giveElse _ hopen, marks_reread thenBranch, marks_reread s]
    next => simp [marks, elseMarks, marks_reread thenBranch, marks_reread s]
  | .whileLoop cond body => by rw [reread, marks, marks, marks_reread body]
  | .expr _ | .vars _ | .forLoop .. | .ret _ | .switch .. | .breakOut | .continueOn | .throw _
  | .empty => rfl

theorem marks_rereadAll : ∀ stmts : List Stmt, allMarks (rereadAll stmts) = allMarks stmts
  | [] => rfl
  | s :: rest => by rw [rereadAll, allMarks, allMarks, marks_reread s, marks_rereadAll rest]

end

mutual

theorem keepsElse_reread : ∀ s : Stmt, s.reread.keepsElse = true
  | .block stmts => keepsElse_rereadAll stmts
  | .ifElse cond thenBranch none => keepsElse_reread thenBranch
  | .ifElse cond thenBranch (some s) => by
    rw [reread]
    split
    next => exact keepsElse_giveElse (keepsElse_reread s) (keepsElse_reread thenBranch)
    next hopen => simp [keepsElse, hopen, keepsElse_reread thenBranch, keepsElse_reread s]
  | .whileLoop cond body => keepsElse_reread body
  | .expr _ | .vars _ | .forLoop .. | .ret _ | .switch .. | .breakOut | .continueOn | .throw _
  | .empty => rfl

theorem keepsElse_rereadAll : ∀ stmts : List Stmt, allKeepElse (rereadAll stmts) = true
  | [] => rfl
  | s :: rest => Bool.and_eq_true_iff.mpr ⟨keepsElse_reread s, keepsElse_rereadAll rest⟩

end

mutual

theorem isBranching_reread : ∀ {s : Stmt}, s.isBranching = true → s.reread.isBranching = true
  | .block stmts, h => @isBranching_rereadAll stmts h
  | .ifElse cond thenBranch none, h => by
    obtain ⟨h, -⟩ := Bool.and_eq_true_iff.mp h
    obtain ⟨hcond, hthen⟩ := Bool.and_eq_true_iff.mp h
    simp [reread, isBranching, optionIsBranching, hcond, isBranching_reread hthen]
  | .ifElse cond thenBranch (some s), h => by
    obtain ⟨h, hs⟩ := Bool.and_eq_true_iff.mp h
    obtain ⟨hcond, hthen⟩ := Bool.and_eq_true_iff.mp h
    have hthen := isBranching_reread hthen
    have hs := isBranching_reread (s := s) hs
    rw [reread]
    split
    next => simp [isBranching, optionIsBranching, hcond, isBranching_giveElse hs hthen]
    next => simp [isBranching, optionIsBranching, hcond, hthen, hs]
  | .whileLoop cond body, h => by
    obtain ⟨hcond, hbody⟩ := Bool.and_eq_true_iff.mp h
    exact Bool.and_eq_true_iff.mpr ⟨hcond, isBranching_reread hbody⟩
  | .expr _, h | .vars _, h | .forLoop .., h | .ret _, h | .switch .., h | .breakOut, h
  | .continueOn, h | .throw _, h | .empty, h => h

theorem isBranching_rereadAll : ∀ {stmts : List Stmt}, allBranching stmts = true →
    allBranching (rereadAll stmts) = true
  | [], _ => rfl
  | s :: rest, h => by
    obtain ⟨hs, hrest⟩ := Bool.and_eq_true_iff.mp h
    exact Bool.and_eq_true_iff.mpr ⟨isBranching_reread hs, isBranching_rereadAll hrest⟩

end

mutual

theorem reread_of_keepsElse : ∀ {s : Stmt}, s.keepsElse = true → s.reread = s
  | .block stmts, h => by rw [reread, @rereadAll_of_allKeepElse stmts h]
  | .ifElse cond thenBranch none, h => by rw [reread, reread_of_keepsElse (s := thenBranch) h]
  | .ifElse cond thenBranch (some s), h => by
    obtain ⟨h, hs⟩ := Bool.and_eq_true_iff.mp h
    obtain ⟨hclosed, hthen⟩ := Bool.and_eq_true_iff.mp h
    rw [reread, reread_of_keepsElse hthen, reread_of_keepsElse hs, if_neg (by simpa using hclosed)]
  | .whileLoop cond body, h => by rw [reread, reread_of_keepsElse (s := body) h]
  | .expr _, _ | .vars _, _ | .forLoop .., _ | .ret _, _ | .switch .., _ | .breakOut, _
  | .continueOn, _ | .throw _, _ | .empty, _ => rfl

theorem rereadAll_of_allKeepElse : ∀ {stmts : List Stmt}, allKeepElse stmts = true →
    rereadAll stmts = stmts
  | [], _ => rfl
  | s :: rest, h => by
    obtain ⟨hs, hrest⟩ := Bool.and_eq_true_iff.mp h
    rw [rereadAll, reread_of_keepsElse hs, rereadAll_of_allKeepElse hrest]

end

/-- A statement that keeps its elses, in front of marks that start with no else of its own. -/
structure Ends (s : Stmt) (k : List Mark) : Prop where
  branching : s.isBranching = true
  keeps : s.keepsElse = true
  next : s.isOpen = true → k.head? ≠ some .otherwise

namespace Ends

variable {cond : Expr} {thenBranch loopBody s : Stmt} {elseBranch : Option Stmt} {k : List Mark}

theorem thenPart (h : Ends (.ifElse cond thenBranch elseBranch) k) :
    Ends thenBranch (elseMarks elseBranch ++ k) := by
  have hbranching := (Bool.and_eq_true_iff.mp (Bool.and_eq_true_iff.mp h.branching).1).2
  cases elseBranch with
  | none => exact ⟨hbranching, h.keeps, fun _ => h.next rfl⟩
  | some s =>
    obtain ⟨hthen, -⟩ := Bool.and_eq_true_iff.mp h.keeps
    obtain ⟨hclosed, hkeeps⟩ := Bool.and_eq_true_iff.mp hthen
    exact ⟨hbranching, hkeeps, fun hopen => by simp [hopen] at hclosed⟩

theorem elsePart (h : Ends (.ifElse cond thenBranch (some s)) k) : Ends s k where
  branching := (Bool.and_eq_true_iff.mp h.branching).2
  keeps := (Bool.and_eq_true_iff.mp h.keeps).2
  next := h.next

theorem body (h : Ends (.whileLoop cond loopBody) k) : Ends loopBody k where
  branching := (Bool.and_eq_true_iff.mp h.branching).2
  keeps := h.keeps
  next := h.next

end Ends

theorem branching_cases {s : Stmt} (h : s.isBranching = true) : (∃ e, s = .expr e) ∨
    (∃ stmts, s = .block stmts) ∨
    (∃ cond thenBranch elseBranch, s = .ifElse cond thenBranch elseBranch) ∨
      ∃ cond body, s = .whileLoop cond body := by
  cases s with
  | expr e => exact .inl ⟨e, rfl⟩
  | block stmts => exact .inr (.inl ⟨stmts, rfl⟩)
  | ifElse cond thenBranch elseBranch => exact .inr (.inr (.inl ⟨_, _, _, rfl⟩))
  | whileLoop cond body => exact .inr (.inr (.inr ⟨_, _, rfl⟩))
  | _ => cases h

/-- No statement starts with an else or with a closing brace. -/
theorem exists_marks {s : Stmt} (h : s.isBranching = true) :
    ∃ m ms, s.marks = m :: ms ∧ m ≠ .otherwise ∧ m ≠ .brace false := by
  rcases branching_cases h with ⟨_, rfl⟩ | ⟨_, rfl⟩ | ⟨_, _, _, rfl⟩ | ⟨_, _, rfl⟩
  all_goals exact ⟨_, _, rfl, by simp, by simp⟩

theorem head_allMarks {stmts : List Stmt} (h : allBranching stmts = true) (k : List Mark) :
    (allMarks stmts ++ .brace false :: k).head? ≠ some .otherwise := by
  cases stmts with
  | nil => exact fun hhead => by cases hhead
  | cons s rest =>
    obtain ⟨m, ms, hmarks, hm, -⟩ := exists_marks (Bool.and_eq_true_iff.mp h).1
    rw [allMarks, hmarks]
    exact fun hhead => hm (Option.some.inj hhead)

theorem brace_ne_allMarks {s : Stmt} {rest : List Stmt} (h : allBranching (s :: rest) = true)
    (k l : List Mark) : .brace false :: k ≠ allMarks (s :: rest) ++ l := by
  obtain ⟨m, ms, hmarks, -, hm⟩ := exists_marks (Bool.and_eq_true_iff.mp h).1
  rw [allMarks, hmarks]
  exact fun hbrace => hm (List.cons.inj hbrace).1.symm

/-- The first of several statements. -/
theorem ends_cons {s : Stmt} {rest : List Stmt} (h : allBranching (s :: rest) = true)
    (hkeep : allKeepElse (s :: rest) = true) (k : List Mark) :
    Ends s (allMarks rest ++ .brace false :: k) where
  branching := (Bool.and_eq_true_iff.mp h).1
  keeps := (Bool.and_eq_true_iff.mp hkeep).1
  next _ := head_allMarks (Bool.and_eq_true_iff.mp h).2 k

theorem marks_block_append (stmts : List Stmt) (k : List Mark) : (block stmts).marks ++ k =
    .brace true :: (allMarks stmts ++ .brace false :: k) := by
  rw [marks, List.cons_append, List.append_assoc]
  rfl

theorem marks_ifElse_append (cond : Expr) (thenBranch : Stmt) (elseBranch : Option Stmt)
    (k : List Mark) : (ifElse cond thenBranch elseBranch).marks ++ k =
      .head false cond :: (thenBranch.marks ++ (elseMarks elseBranch ++ k)) := by
  rw [marks, List.cons_append, List.append_assoc]

mutual

/-- The marks of a statement that keeps its elses say where it ends and what it is. -/
theorem marks_append_inj : ∀ {s t : Stmt} {k l : List Mark}, Ends s k → Ends t l →
    s.marks ++ k = t.marks ++ l → s = t ∧ k = l
  | .expr e, t, k, l, _, ht, h => by
    rcases branching_cases ht.branching with ⟨e', rfl⟩ | ⟨_, rfl⟩ | ⟨_, _, _, rfl⟩ | ⟨_, _, rfl⟩
    · cases h
      exact ⟨rfl, rfl⟩
    all_goals cases h
  | .block stmts, t, k, l, hs, ht, h => by
    rcases branching_cases ht.branching with ⟨_, rfl⟩ | ⟨stmts', rfl⟩ | ⟨_, _, _, rfl⟩ | ⟨_, _, rfl⟩
    · cases h
    · rw [marks_block_append, marks_block_append] at h
      obtain ⟨rfl, rfl⟩ := allMarks_append_inj hs.branching ht.branching hs.keeps ht.keeps
        (List.cons.inj h).2
      exact ⟨rfl, rfl⟩
    all_goals cases h
  | .ifElse cond thenBranch elseBranch, t, k, l, hs, ht, h => by
    rcases branching_cases ht.branching with ⟨_, rfl⟩ | ⟨_, rfl⟩ |
      ⟨cond', thenBranch', elseBranch', rfl⟩ | ⟨_, _, rfl⟩
    · cases h
    · cases h
    -- a branch in front of an else is closed, so both end before it
    · rw [marks_ifElse_append, marks_ifElse_append] at h
      obtain ⟨hhead, hrest⟩ := List.cons.inj h
      cases hhead
      obtain ⟨rfl, helse⟩ := marks_append_inj hs.thenPart ht.thenPart hrest
      obtain ⟨rfl, rfl⟩ := elseMarks_append_inj hs ht helse
      exact ⟨rfl, rfl⟩
    · cases h
  | .whileLoop cond body, t, k, l, hs, ht, h => by
    rcases branching_cases ht.branching with ⟨_, rfl⟩ | ⟨_, rfl⟩ | ⟨_, _, _, rfl⟩ |
      ⟨cond', body', rfl⟩
    · cases h
    · cases h
    · cases h
    · obtain ⟨hhead, hrest⟩ := List.cons.inj h
      cases hhead
      obtain ⟨rfl, rfl⟩ := marks_append_inj hs.body ht.body hrest
      exact ⟨rfl, rfl⟩
  | .vars _, _, _, _, hs, _, _ | .forLoop .., _, _, _, hs, _, _ | .ret _, _, _, _, hs, _, _
  | .switch .., _, _, _, hs, _, _ | .breakOut, _, _, _, hs, _, _ | .continueOn, _, _, _, hs, _, _
  | .throw _, _, _, _, hs, _, _ | .empty, _, _, _, hs, _, _ => by cases hs.branching

theorem elseMarks_append_inj : ∀ {elseBranch elseBranch' : Option Stmt} {k l : List Mark}
    {cond : Expr} {thenBranch : Stmt}, Ends (.ifElse cond thenBranch elseBranch) k →
      Ends (.ifElse cond thenBranch elseBranch') l →
        elseMarks elseBranch ++ k = elseMarks elseBranch' ++ l → elseBranch = elseBranch' ∧ k = l
  | none, none, _, _, _, _, _, _, h => ⟨rfl, h⟩
  -- an if without an else would take the one that follows
  | none, some _, _, _, _, _, hs, _, h => absurd (congrArg List.head? h) (hs.next rfl)
  | some _, none, _, _, _, _, _, ht, h => absurd (congrArg List.head? h.symm) (ht.next rfl)
  | some s, some s', _, _, _, _, hs, ht, h => by
    obtain ⟨rfl, rfl⟩ := marks_append_inj hs.elsePart ht.elsePart (List.cons.inj h).2
    exact ⟨rfl, rfl⟩

theorem allMarks_append_inj : ∀ {stmts stmts' : List Stmt} {k l : List Mark},
    allBranching stmts = true → allBranching stmts' = true → allKeepElse stmts = true →
    allKeepElse stmts' = true →
      allMarks stmts ++ .brace false :: k = allMarks stmts' ++ .brace false :: l →
        stmts = stmts' ∧ k = l
  | [], [], _, _, _, _, _, _, h => ⟨rfl, (List.cons.inj h).2⟩
  | [], _ :: _, _, _, _, ht, _, _, h => absurd h (brace_ne_allMarks ht _ _)
  | _ :: _, [], _, _, hs, _, _, _, h => absurd h.symm (brace_ne_allMarks hs _ _)
  | s :: rest, t :: rest', k, l, hs, ht, hskeep, htkeep, h => by
    rw [allMarks, allMarks, List.append_assoc, List.append_assoc] at h
    obtain ⟨rfl, hrest⟩ := marks_append_inj (ends_cons hs hskeep k) (ends_cons ht htkeep l) h
    obtain ⟨rfl, rfl⟩ := allMarks_append_inj (Bool.and_eq_true_iff.mp hs).2
      (Bool.and_eq_true_iff.mp ht).2 (Bool.and_eq_true_iff.mp hskeep).2
      (Bool.and_eq_true_iff.mp htkeep).2 hrest
    exact ⟨rfl, rfl⟩

end

theorem collapse_source_eq_iff {s t : Stmt} (hs : s.isBranching = true)
    (ht : t.isBranching = true) : collapse (source s) = collapse (source t) ↔ s.marks = t.marks := by
  rw [collapse_source hs, collapse_source ht]
  exact ⟨spelled_inj (legible_marks hs) (legible_marks ht), congrArg spelled⟩

theorem eq_of_marks {s t : Stmt} (hs : s.isBranching = true) (ht : t.isBranching = true)
    (hskeep : s.keepsElse = true) (htkeep : t.keepsElse = true) (h : s.marks = t.marks) : s = t := by
  have hends {u : Stmt} (hu : u.isBranching = true) (hkeep : u.keepsElse = true) : Ends u [] :=
    ⟨hu, hkeep, fun _ hhead => by cases hhead⟩
  exact (marks_append_inj (hends hs hskeep) (hends ht htkeep) (congrArg (· ++ []) h)).1

theorem marks_eq_iff {s t : Stmt} (hs : s.isBranching = true) (ht : t.isBranching = true) :
    s.marks = t.marks ↔ s.reread = t.reread := by
  constructor
  · intro h
    rw [← marks_reread s, ← marks_reread t] at h
    exact eq_of_marks (isBranching_reread hs) (isBranching_reread ht) (keepsElse_reread s)
      (keepsElse_reread t) h
  · intro h
    rw [← marks_reread s, h, marks_reread]

/-- Two statements have one text, blanks apart, only if they are read as one; so an else is written
where it belongs if no branch in front of an else would take it. -/
theorem branching_source_eq_iff {s t : Stmt} (hs : s.isBranching = true)
    (ht : t.isBranching = true) :
    (collapse (source s) = collapse (source t) ↔ s.reread = t.reread) ∧
      (s.keepsElse = true → t.keepsElse = true → collapse (source s) = collapse (source t) →
        s = t) := by
  have hread := (collapse_source_eq_iff hs ht).trans (marks_eq_iff hs ht)
  refine ⟨hread, fun hskeep htkeep h => ?_⟩
  calc s = s.reread := (reread_of_keepsElse hskeep).symm
    _ = t.reread := hread.mp h
    _ = t := reread_of_keepsElse htkeep

/-- `if (a) { while (b) if (c) x.f(); } else y.f();` and the same without the braces and with the
else where it is read. -/
theorem branching_source_ne_braces :
    let call (receiver : String) : Stmt := .expr (.callOn (.ident receiver) "f" [.int 1])
    let inner (elseBranch : Option Stmt) : Stmt :=
      .whileLoop (.ident "b") (.ifElse (.ident "c") (call "x") elseBranch)
    let braced : Stmt := .ifElse (.ident "a") (.block [inner none]) (some (call "y"))
    let bare : Stmt := .ifElse (.ident "a") (inner (some (call "y"))) none
    braced.isBranching = true ∧ bare.isBranching = true ∧ braced.keepsElse = true ∧
      bare.keepsElse = true ∧ collapse (source braced) ≠ collapse (source bare) := by
  intro call inner braced bare
  have hbraced : braced.isBranching = true := by decide
  have hbare : bare.isBranching = true := by decide
  refine ⟨hbraced, hbare, by decide, by decide, fun h => ?_⟩
  have hsame := (branching_source_eq_iff hbraced hbare).2 (by decide) (by decide) h
  exact absurd (congrArg isOpen hsame) (by decide)

/-- Without the braces the else of the outer if is written as the else of the inner one. -/
theorem not_every_else_own : ¬ ∀ s t : Stmt, s.isBranching = true → t.isBranching = true →
    collapse (source s) = collapse (source t) → s = t := by
  intro h
  let call (receiver : String) : Stmt := .expr (.callOn (.ident receiver) "f" [])
  let inner (elseBranch : Option Stmt) : Stmt := .ifElse (.ident "b") (call "x") elseBranch
  let own : Stmt := .ifElse (.ident "a") (inner none) (some (call "y"))
  let taken : Stmt := .ifElse (.ident "a") (inner (some (call "y"))) none
  have hown : own.isBranching = true := by decide
  have htaken : taken.isBranching = true := by decide
  have hmarks : own.marks = taken.marks := rfl
  have hsame := h own taken hown htaken ((collapse_source_eq_iff hown htaken).mpr hmarks)
  exact absurd (congrArg isOpen hsame) (by decide)

end Stmt

end VersionWeave
