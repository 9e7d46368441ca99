import VersionWeave.Proofs.Source.Phrases
import VersionWeave.Proofs.Source.Printers

namespace VersionWeave

/-- The words that statements with branches are written with. -/
def branchWords : List String := ["if", "else", "while"]

namespace Expr

/-- A plain expression in whose text blanks and parentheses are no part of a literal. -/
def isSimple (e : Expr) : Bool :=
  e.isPlain && e.isUnquoted

/-- A call on a name. -/
def isCommand : Expr → Bool
  | .call (some (.ident receiver)) name args =>
    !branchWords.contains receiver && isSimple (.call (some (.ident receiver)) name args)
  | _ => false

end Expr

namespace Stmt

mutual

/-- A statement made of ifs, blocks, while loops and calls on names. -/
def isBranching : Stmt → Bool
  | .expr e => e.isCommand
  | .block stmts => allBranching stmts
  | .ifElse cond thenBranch elseBranch =>
    cond.isSimple && thenBranch.isBranching && optionIsBranching elseBranch
  | .whileLoop cond body => cond.isSimple && body.isBranching
  | _ => false

def optionIsBranching : Option Stmt → Bool
  | none => true
  | some s => s.isBranching

def allBranching : List Stmt → Bool
  | [] => true
  | s :: rest => s.isBranching && allBranching rest

end

end Stmt

/-- What the text of a statement with branches is put together from. -/
inductive Mark where
  | head (isLoop : Bool) (cond : Expr)
  | command (call : Expr)
  | brace (isOpening : Bool)
  | otherwise

namespace Mark

def keyword (isLoop : Bool) : String :=
  if isLoop then "while" else "if"

def text : Mark → String
  | head isLoop cond => keyword isLoop ++ " (" ++ cond.source ++ ")"
  | command call => call.source ++ ";"
  | brace true => "\x7b"
  | brace false => "\x7d"
  | otherwise => "else"

def Legible : Mark → Prop
  | head _ cond => cond.isSimple = true
  | command call => call.isCommand = true
  | _ => True

end Mark

/-- The text of marks, with one blank behind each. -/
def spelled (ms : List Mark) : List Char :=
  ms.flatMap fun m => m.text.toList ++ [' ']

theorem spelled_append (ms ms' : List Mark) : spelled (ms ++ ms') = spelled ms ++ spelled ms' :=
  List.flatMap_append

namespace Stmt

mutual

def marks : Stmt → List Mark
  | .expr e => [.command e]
  | .block stmts => .brace true :: (allMarks stmts ++ [.brace false])
  | .ifElse cond thenBranch elseBranch =>
    .head false cond :: (thenBranch.marks ++ elseMarks elseBranch)
  | .whileLoop cond body => .head true cond :: body.marks
  | _ => []

def elseMarks : Option Stmt → List Mark
  | none => []
  | some s => .otherwise :: s.marks

def allMarks : List Stmt → List Mark
  | [] => []
  | s :: rest => s.marks ++ allMarks rest

end

end Stmt

/-! ### From texts to marks -/

namespace Stmt

mutual

theorem legible_marks : ∀ {s : Stmt}, s.isBranching = true → ∀ m ∈ s.marks, m.Legible
  | .expr e, h => List.forall_mem_singleton.mpr h
  | .block stmts, h => by
    rw [marks, List.forall_mem_cons, List.forall_mem_append, List.forall_mem_singleton]
    exact ⟨trivial, legible_allMarks h, trivial⟩
  | .ifElse cond thenBranch elseBranch, h => by
    obtain ⟨h, helse⟩ := Bool.and_eq_true_iff.mp h
    obtain ⟨hcond, hthen⟩ := Bool.and_eq_true_iff.mp h
    rw [marks, List.forall_mem_cons, List.forall_mem_append]
    exact ⟨hcond, legible_marks hthen, legible_elseMarks helse⟩
  | .whileLoop cond body, h => by
    obtain ⟨hcond, hbody⟩ := Bool.and_eq_true_iff.mp h
    rw [marks, List.forall_mem_cons]
    exact ⟨hcond, legible_marks hbody⟩
  | .vars _, h | .forLoop .., h | .ret _, h | .switch .., h | .breakOut, h | .continueOn, h
  | .throw _, h | .empty, h => by cases h

theorem legible_elseMarks : ∀ {elseBranch : Option Stmt}, optionIsBranching elseBranch = true →
    ∀ m ∈ elseMarks elseBranch, m.Legible
  | none, _ => fun _ hm => absurd hm List.not_mem_nil
  | some _, h => List.forall_mem_cons.mpr ⟨trivial, legible_marks h⟩

theorem legible_allMarks : ∀ {stmts : List Stmt}, allBranching stmts = true →
    ∀ m ∈ allMarks stmts, m.Legible
  | [], _ => fun _ hm => absurd hm List.not_mem_nil
  | s :: rest, h => by
    obtain ⟨hs, hrest⟩ := Bool.and_eq_true_iff.mp h
    exact List.forall_mem_append.mpr ⟨legible_marks hs, legible_allMarks hrest⟩

end

end Stmt

namespace Expr

theorem phrase_source {e : Expr} (h : e.isSimple = true) : Phrase e.source := by
  obtain ⟨hplain, hquoted⟩ := Bool.and_eq_true_iff.mp h
  exact phrase_sourceAt hplain hquoted _

theorem exists_of_isCommand {e : Expr} (h : e.isCommand = true) :
    ∃ receiver name args, e = .call (some (.ident receiver)) name args ∧
      receiver ∉ branchWords ∧ e.isSimple = true := by
  unfold isCommand at h
  split at h
  next receiver name args =>
    obtain ⟨hwords, hsimple⟩ := Bool.and_eq_true_iff.mp h
    exact ⟨receiver, name, args, rfl, by simpa using hwords, hsimple⟩
  next => cases h

theorem isSimple_of_isCommand {e : Expr} (h : e.isCommand = true) : e.isSimple = true := by
  obtain ⟨_, _, _, _, _, hsimple⟩ := exists_of_isCommand h
  exact hsimple

end Expr

namespace Mark

theorem isWordChar_keyword (isLoop : Bool) :
    ∀ c ∈ (keyword isLoop).toList, Token.isWordChar c = true := by
  cases isLoop <;> exact List.all_eq_true.mp (by decide)

theorem phrase_keyword (isLoop : Bool) : Phrase (keyword isLoop) :=
  .word (by cases isLoop <;> decide) (isWordChar_keyword isLoop)

theorem phrase_head (isLoop : Bool) {cond : Expr} (h : cond.isSimple = true) :
    Phrase (head isLoop cond).text := by
  have hopening : keyword isLoop ++ " " ++ "(" = keyword isLoop ++ " (" := String.append_assoc
  have hgroup := (phrase_keyword isLoop).blank (.group (.inr (Expr.phrase_source h)))
  rwa [← String.append_assoc, ← String.append_assoc, hopening] at hgroup

/-- The text of a mark stands as it is when runs of blanks are collapsed. -/
theorem tidy {m : Mark} (h : m.Legible) (afterBlank : Bool) (rest : List Char) :
    squeeze afterBlank (m.text.toList ++ rest) = m.text.toList ++ squeeze false rest := by
  cases m with
  | head isLoop cond => exact (phrase_head isLoop h).tidy afterBlank rest
  | command call =>
    have hcall := Expr.phrase_source (Expr.isSimple_of_isCommand h)
    rw [text, String.toList_append, List.append_assoc, hcall.tidy, List.append_assoc]
    rfl
  | brace isOpening => cases isOpening <;> rfl
  | otherwise => rfl

end Mark

/-- A text that becomes the text of marks when runs of blanks are collapsed, whatever the blank
behind it. -/
def Spells (text : List Char) (ms : List Mark) : Prop :=
  ∀ afterBlank c rest, c.isWhitespace = true →
    squeeze afterBlank (text ++ c :: rest) = spelled ms ++ squeeze true rest

/-- The same of whole lines. -/
def SpellsLines (text : List Char) (ms : List Mark) : Prop :=
  ∀ rest, squeeze true (text ++ rest) = spelled ms ++ squeeze true rest

/-- Nothing but blanks, and at least one of them. -/
structure Gap (text : List Char) : Prop where
  ne_nil : text ≠ []
  blank : ∀ c ∈ text, c.isWhitespace = true

theorem isWhitespace_of_mem_spaces {k : Nat} {c : Char} (h : c ∈ spaces k) :
    c.isWhitespace = true := by
  rw [List.eq_of_mem_replicate h]
  rfl

namespace Gap

theorem space : Gap [' '] where
  ne_nil := List.cons_ne_nil _ _
  blank := List.forall_mem_singleton.mpr rfl

theorem line (k : Nat) : Gap (['\n'] ++ spaces k) where
  ne_nil := List.cons_ne_nil _ _
  blank := List.forall_mem_cons.mpr ⟨rfl, fun _ => isWhitespace_of_mem_spaces⟩

/-- A body stands behind a gap. -/
theorem exists_attached (body : Stmt) (text : Nat → List Char) (k : Nat) :
    ∃ gap k', Gap gap ∧ Stmt.attached body text k = gap ++ text k' := by
  unfold Stmt.attached
  split
  next => exact ⟨_, k, space, rfl⟩
  next => exact ⟨_, k + 1, line (k + 1), List.append_assoc .. |>.symm⟩

theorem exists_otherwise (afterBlock : Bool) (s : Stmt) (text : Nat → List Char) (k : Nat) :
    ∃ gap gap' k', Gap gap ∧ Gap gap' ∧ Stmt.otherwise afterBlock s text k =
      gap ++ ("else".toList ++ (gap' ++ text k')) := by
  have hbranch : ∃ gap' k', Gap gap' ∧
      (if s.isIf then [' '] ++ text k else Stmt.attached s text k) = gap' ++ text k' := by
    split
    next => exact ⟨_, k, space, rfl⟩
    next => exact exists_attached s text k
  have hplace : Gap (if afterBlock then [' '] else ['\n'] ++ spaces k) := by
    split
    next => exact space
    next => exact line k
  obtain ⟨gap', k', hgap', hbranch⟩ := hbranch
  exact ⟨_, gap', k', hplace, hgap', by rw [Stmt.otherwise, hbranch, List.append_assoc]⟩

end Gap

namespace Spells

variable {left right : List Char} {ms ms' : List Mark}

theorem single {m : Mark} (h : m.Legible) : Spells m.text.toList [m] := by
  intro afterBlank c rest hc
  rw [m.tidy h, squeeze_blank hc, spelled, List.flatMap_singleton, List.append_assoc]
  rfl

theorem append {gap : List Char} (hleft : Spells left ms) (hgap : Gap gap)
    (hright : Spells right ms') : Spells (left ++ (gap ++ right)) (ms ++ ms') := by
  obtain ⟨hne, hblank⟩ := hgap
  intro afterBlank c rest hc
  cases gap with
  | nil => exact absurd rfl hne
  | cons g gap =>
    obtain ⟨hg, hgap⟩ := List.forall_mem_cons.mp hblank
    -- the first blank ends the left text, the others are dropped behind it
    rw [List.append_assoc, List.cons_append, List.cons_append, hleft _ _ _ hg, List.append_assoc,
      squeeze_blanks hgap, hright _ _ _ hc, spelled_append, List.append_assoc]

/-- A line of its own. -/
theorem line (h : Spells left ms) (k : Nat) : SpellsLines (spaces k ++ left ++ ['\n']) ms := by
  intro rest
  rw [List.append_assoc, List.append_assoc, squeeze_blanks fun _ => isWhitespace_of_mem_spaces]
  exact h true '\n' rest rfl

/-- Lines between braces. -/
theorem enclosed {lines : List Char} (h : SpellsLines lines ms) (k : Nat) :
    Spells (['{'] ++ ['\n'] ++ lines ++ spaces k ++ ['}'])
      (.brace true :: (ms ++ [.brace false])) := by
  intro afterBlank c rest hc
  have hclosing : squeeze true (spaces k ++ ('}' :: c :: rest)) = '}' :: ' ' :: squeeze true rest := by
    rw [squeeze_blanks fun _ => isWhitespace_of_mem_spaces, squeeze_of_not_blank rfl,
      squeeze_blank hc]
  calc squeeze afterBlank (['{'] ++ ['\n'] ++ lines ++ spaces k ++ ['}'] ++ c :: rest)
      = squeeze afterBlank ('{' :: '\n' :: (lines ++ (spaces k ++ ('}' :: c :: rest)))) := by simp
    _ = '{' :: ' ' :: squeeze true (lines ++ (spaces k ++ ('}' :: c :: rest))) := by
      rw [squeeze_of_not_blank rfl, squeeze_blank rfl]
    _ = '{' :: ' ' :: (spelled ms ++ '}' :: ' ' :: squeeze true rest) := by rw [h, hclosing]
    _ = spelled (.brace true :: (ms ++ [.brace false])) ++ squeeze true rest := by
      simp [spelled, Mark.text]

end Spells

namespace Stmt

mutual

theorem spells : ∀ {s : Stmt}, s.isBranching = true → ∀ k, Spells (written s.writeInline k) s.marks
  | .expr e, h, k => .single (m := .command e) h
  | .block stmts, h, k => by
    rw [(writes_block (appends_all stmts)).written_eq]
    exact .enclosed (spells_all h (k + 1)) k
  | .ifElse cond thenBranch elseBranch, h, k => by
    obtain ⟨h, helse⟩ := Bool.and_eq_true_iff.mp h
    obtain ⟨hcond, hthen⟩ := Bool.and_eq_true_iff.mp h
    obtain ⟨gap, k', hgap, hattached⟩ :=
      Gap.exists_attached thenBranch (written thenBranch.writeInline) k
    rw [(writes_ifElse cond (appends thenBranch) (appends_else _ elseBranch)).written_eq, hattached]
    exact spells_else _ helse (.append (.single (m := .head false cond) hcond) hgap
      (spells hthen k')) k
  | .whileLoop cond body, h, k => by
    obtain ⟨hcond, hbody⟩ := Bool.and_eq_true_iff.mp h
    obtain ⟨gap, k', hgap, hattached⟩ := Gap.exists_attached body (written body.writeInline) k
    rw [(writes_while cond (appends body)).written_eq, hattached]
    exact Spells.append (.single (m := .head true cond) hcond) hgap (spells hbody k')
  | .vars _, h, _ | .forLoop .., h, _ | .ret _, h, _ | .switch .., h, _ | .breakOut, h, _
  | .continueOn, h, _ | .throw _, h, _ | .empty, h, _ => by cases h

theorem spells_else (afterBlock : Bool) : ∀ {elseBranch : Option Stmt},
    optionIsBranching elseBranch = true → ∀ {left : List Char} {ms : List Mark}, Spells left ms → ∀ k,
      Spells (left ++ written (writeElse afterBlock elseBranch) k) (ms ++ elseMarks elseBranch)
  | none, _, left, ms, hleft, k => by
    have hnone : written (writeElse afterBlock none) k = [] := rfl
    rw [hnone, elseMarks, List.append_nil, List.append_nil]
    exact hleft
  | some s, h, left, ms, hleft, k => by
    obtain ⟨gap, gap', k', hgap, hgap', hotherwise⟩ :=
      Gap.exists_otherwise afterBlock s (written s.writeInline) k
    rw [(writes_else afterBlock (appends s)).written_eq, hotherwise]
    exact hleft.append hgap (Spells.append (.single (m := .otherwise) trivial) hgap' (spells h k'))

theorem spells_all : ∀ {stmts : List Stmt}, allBranching stmts = true → ∀ k,
    SpellsLines (written (writeAll stmts) k) (allMarks stmts)
  | [], _, _ => fun _ => rfl
  | s :: rest, h, k => by
    obtain ⟨hs, hrest⟩ := Bool.and_eq_true_iff.mp h
    rw [(writes_all_cons (appends s) (appends_all rest)).written_eq]
    intro more
    rw [List.append_assoc, (spells hs k).line k, spells_all hrest k, allMarks, spelled_append,
      List.append_assoc]

end

/-- Marks are all that is left of the text of a statement. -/
theorem collapse_source {s : Stmt} (h : s.isBranching = true) :
    collapse (source s) = spelled s.marks := by
  have hlist : (source s).toList = written s.write 0 := rfl
  rw [collapse, hlist, (writes_line s).written_eq]
  exact (spells h 0 false '\n' [] rfl).trans (List.append_nil _)

end Stmt

/-! ### From marks to texts -/

theorem Expr.eq_of_toList_source {e e' : Expr} (he : e.isSimple = true) (he' : e'.isSimple = true)
    (h : e.source.toList = e'.source.toList) : e = e' := by
  have hplain := (Bool.and_eq_true_iff.mp he).1
  have hplain' := (Bool.and_eq_true_iff.mp he').1
  rw [source, source, toList_sourceAt, toList_sourceAt] at h
  exact pieces_inj e e' hplain hplain'
    ((operand_pieces e hplain).written.textOf_inj (operand_pieces e' hplain').written h)

namespace Mark

variable {k l : List Char}

/-- A condition ends where its parenthesis is closed. -/
theorem head_append_inj {isLoop : Bool} {cond cond' : Expr} (hcond : cond.isSimple = true)
    (hcond' : cond'.isSimple = true)
    (h : (head isLoop cond).text.toList ++ k = (head isLoop cond').text.toList ++ l) :
    cond = cond' ∧ k = l := by
  simp only [text, String.toList_append, List.append_assoc] at h
  have hclosed := List.append_cancel_left (List.append_cancel_left h)
  -- neither condition can run past its own parenthesis, so what follows is the same
  have hpast := congrArg (past 0) hclosed
  rw [(Expr.phrase_source hcond).balanced, (Expr.phrase_source hcond').balanced] at hpast
  obtain rfl : k = l := hpast
  exact ⟨Expr.eq_of_toList_source hcond hcond' (List.append_cancel_right hclosed), rfl⟩

/-- A call ends where the statement does. -/
theorem command_append_inj {call call' : Expr} (hcall : call.isCommand = true)
    (hcall' : call'.isCommand = true)
    (h : (command call).text.toList ++ k = (command call').text.toList ++ l) :
    call = call' ∧ k = l := by
  have hsimple := Expr.isSimple_of_isCommand hcall
  have hsimple' := Expr.isSimple_of_isCommand hcall'
  have hunended : ∀ {e : Expr}, e.isSimple = true → ∀ c ∈ e.source.toList, (c != ';') = true :=
    fun he c hc => bne_iff_ne.mpr fun hend => (Expr.phrase_source he).unended (hend ▸ hc)
  simp only [text, String.toList_append, List.append_assoc] at h
  obtain ⟨hsource, hrest⟩ := run_append_inj (hunended hsimple) (hunended hsimple')
    (fun c hc => by cases Option.some.inj hc; rfl) (fun c hc => by cases Option.some.inj hc; rfl) h
  exact ⟨Expr.eq_of_toList_source hsimple hsimple' hsource, (List.cons.inj hrest).2⟩

/-- The word at the start of the text of a mark. -/
def word : Mark → String
  | head isLoop _ => keyword isLoop
  | command (.call (some (.ident receiver)) _ _) => receiver
  | otherwise => "else"
  | _ => ""

theorem isFreeName_receiver {receiver name : String} {args : List Expr}
    (h : Expr.isSimple (.call (some (.ident receiver)) name args) = true) :
    isFreeName receiver = true := by
  obtain ⟨hfront, -⟩ := Bool.and_eq_true_iff.mp (Bool.and_eq_true_iff.mp h).1
  exact (Bool.and_eq_true_iff.mp hfront).1

/-- No mark starts with a part of a word. -/
theorem exists_text {m : Mark} (h : m.Legible) : ∃ rest, m.text.toList = m.word.toList ++ rest ∧
    (∀ c ∈ m.word.toList, Token.isWordChar c = true) ∧
      ∀ c ∈ (rest ++ [' ']).head?, Token.isWordChar c = false := by
  cases m with
  | head isLoop cond =>
    refine ⟨(" (" ++ cond.source ++ ")").toList, ?_, isWordChar_keyword isLoop, ?_⟩
    · simp only [text, word, String.toList_append, List.append_assoc]
    · rw [String.toList_append, String.toList_append]
      intro c hc
      cases Option.some.inj hc
      rfl
  | command call =>
    obtain ⟨receiver, name, args, rfl, -, hsimple⟩ := Expr.exists_of_isCommand h
    refine ⟨("." ++ name ++ "(" ++ commas (Expr.sources args) ++ ")" ++ ";").toList, ?_,
      (isFreeName_iff.mp (isFreeName_receiver hsimple)).2.1, ?_⟩
    · have hsource : (Expr.call (some (.ident receiver)) name args).source =
          receiver ++ "." ++ name ++ "(" ++ commas (Expr.sources args) ++ ")" := rfl
      simp only [text, word, hsource, String.toList_append, List.append_assoc]
    · simp only [String.toList_append, List.append_assoc]
      intro c hc
      cases Option.some.inj hc
      rfl
  | brace isOpening =>
    refine ⟨(brace isOpening).text.toList, rfl, fun c hc => absurd hc List.not_mem_nil, ?_⟩
    cases isOpening <;> exact fun c hc => by cases Option.some.inj hc; rfl
  | otherwise =>
    exact ⟨[], rfl, List.all_eq_true.mp rfl, fun c hc => by cases Option.some.inj hc; rfl⟩

inductive Kind where
  | branch
  | loop
  | command
  | brace
  | otherwise

def kind : Mark → Kind
  | head isLoop _ => if isLoop then .loop else .branch
  | command _ => .command
  | brace _ => .brace
  | otherwise => .otherwise

def Kind.ofWord (word : String) : Kind :=
  if word = "if" then .branch
  else if word = "while" then .loop
  else if word = "else" then .otherwise
  else if word = "" then .brace
  else .command

theorem ofWord_word {m : Mark} (h : m.Legible) : Kind.ofWord m.word = m.kind := by
  cases m with
  | head isLoop cond => cases isLoop <;> rfl
  | command call =>
    obtain ⟨receiver, name, args, rfl, hwords, hsimple⟩ := Expr.exists_of_isCommand h
    obtain ⟨⟨c, rest, hreceiver, -⟩, -⟩ := isFreeName_iff.mp (isFreeName_receiver hsimple)
    have hne : receiver ≠ "" := by
      rintro rfl
      cases hreceiver
    simp only [branchWords, List.mem_cons, List.not_mem_nil, or_false, not_or] at hwords
    obtain ⟨hif, helse, hwhile⟩ := hwords
    rw [word, kind, Kind.ofWord, if_neg hif, if_neg hwhile, if_neg helse, if_neg hne]
  | brace isOpening => rfl
  | otherwise => rfl

/-- Marks with a blank behind them can be told apart. -/
theorem append_inj {m m' : Mark} (hm : m.Legible) (hm' : m'.Legible)
    (h : m.text.toList ++ ' ' :: k = m'.text.toList ++ ' ' :: l) : m = m' ∧ k = l := by
  -- a receiver is none of the words of the other marks, so the first word tells the kind
  have hkind : m.kind = m'.kind := by
    obtain ⟨rest, htext, hchars, hrest⟩ := exists_text hm
    obtain ⟨rest', htext', hchars', hrest'⟩ := exists_text hm'
    have hhead : ∀ (xs : List Char) {ys}, (xs ++ ' ' :: ys).head? = (xs ++ [' ']).head? := by
      intro xs ys
      cases xs <;> rfl
    rw [htext, htext', List.append_assoc, List.append_assoc] at h
    have hword := (run_append_inj hchars hchars' (hhead rest ▸ hrest) (hhead rest' ▸ hrest') h).1
    rw [← ofWord_word hm, ← ofWord_word hm', String.toList_inj.mp hword]
  cases m with
  | head isLoop cond =>
    cases m' with
    | head isLoop' cond' =>
      obtain rfl : isLoop = isLoop' := by
        cases isLoop <;> cases isLoop' <;> first | rfl | cases hkind
      obtain ⟨rfl, hrest⟩ := head_append_inj hm hm' h
      exact ⟨rfl, (List.cons.inj hrest).2⟩
    | command _ => cases isLoop <;> cases hkind
    | brace _ => cases isLoop <;> cases hkind
    | otherwise => cases isLoop <;> cases hkind
  | command call =>
    cases m' with
    | head isLoop' cond' => cases isLoop' <;> cases hkind
    | command call' =>
      obtain ⟨rfl, hrest⟩ := command_append_inj hm hm' h
      exact ⟨rfl, (List.cons.inj hrest).2⟩
    | brace _ => cases hkind
    | otherwise => cases hkind
  | brace isOpening =>
    cases m' with
    | head isLoop' cond' => cases isLoop' <;> cases hkind
    | command _ => cases hkind
    | brace isOpening' =>
      cases isOpening <;> cases isOpening' <;> cases h <;> exact ⟨rfl, rfl⟩
    | otherwise => cases hkind
  | otherwise =>
    cases m' with
    | head isLoop' cond' => cases isLoop' <;> cases hkind
    | command _ => cases hkind
    | brace _ => cases hkind
    | otherwise => exact ⟨rfl, (List.cons.inj (List.append_cancel_left h)).2⟩

end Mark

theorem spelled_cons (m : Mark) (ms : List Mark) :
    spelled (m :: ms) = m.text.toList ++ ' ' :: spelled ms :=
  List.append_assoc ..

theorem spelled_inj {ms : List Mark} : ∀ {ms' : List Mark}, (∀ m ∈ ms, m.Legible) →
    (∀ m ∈ ms', m.Legible) → spelled ms = spelled ms' → ms = ms' := by
  induction ms with
  | nil =>
    intro ms' _ _ h
    cases ms' with
    | nil => rfl
    | cons m' ms' => exact absurd (h.trans (spelled_cons m' ms')) (by simp [spelled])
  | cons m ms ih =>
    intro ms' hall hall' h
    cases ms' with
    | nil => exact absurd ((spelled_cons m ms).symm.trans h) (by simp [spelled])
    | cons m' ms' =>
      obtain ⟨hm, hms⟩ := List.forall_mem_cons.mp hall
      obtain ⟨hm', hms'⟩ := List.forall_mem_cons.mp hall'
      rw [spelled_cons, spelled_cons] at h
      obtain ⟨rfl, hrest⟩ := Mark.append_inj hm hm' h
      rw [ih hms hms' hrest]

end VersionWeave
