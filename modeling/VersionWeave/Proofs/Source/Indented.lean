import VersionWeave.Proofs.Source.OneLine
import VersionWeave.Proofs.Source.Printers

namespace VersionWeave

/-- Indentation in front of every line that is not empty. -/
def indentLines (depth : Nat) (text : List Char) : List Char :=
  ['\n'].intercalate
    ((text.splitOn '\n').map fun line => if line.isEmpty then [] else spaces depth ++ line)

/-- The same character by character; at the start of a line, a character that is not its end. -/
def shift (atStart : Bool) (depth : Nat) : List Char → List Char
  | [] => []
  | c :: cs =>
    (if atStart && c != '\n' then spaces depth else []) ++ c :: shift (c == '\n') depth cs

/-- Whether the place after a text is the start of a line. -/
def endsLine (atStart : Bool) (text : List Char) : Bool :=
  text.foldl (fun _ c => c == '\n') atStart

theorem intercalate_cons {α : Type} (sep a : List α) (rest : List (List α)) :
    sep.intercalate (a :: rest) = a ++ rest.flatMap (sep ++ ·) := by
  induction rest generalizing a with
  | nil => simp
  | cons b rest ih =>
    rw [List.intercalate_cons_cons, ih b, List.flatMap_cons, List.append_assoc, List.append_assoc]

theorem shift_eq (depth : Nat) (text : List Char) : ∀ atStart : Bool, ∃ line rest,
    text.splitOn '\n' = line :: rest ∧ shift atStart depth text =
      (if atStart && !line.isEmpty then spaces depth else []) ++ line ++ rest.flatMap fun line =>
        '\n' :: if line.isEmpty then [] else spaces depth ++ line := by
  induction text with
  | nil => exact fun atStart => ⟨[], [], rfl, by simp [shift]⟩
  | cons c cs ih =>
    intro atStart
    rw [List.splitOn_cons_eq_if_modifyHead, shift]
    obtain ⟨line, rest, hsplit, hshift⟩ := ih (c == '\n')
    rw [hsplit, hshift]
    by_cases hc : c = '\n'
    · subst hc
      refine ⟨[], line :: rest, rfl, ?_⟩
      cases line <;> simp
    · refine ⟨c :: line, rest, ?_, ?_⟩
      · simp [hc]
      · simp [hc]

theorem shift_true (depth : Nat) (text : List Char) :
    shift true depth text = indentLines depth text := by
  obtain ⟨line, rest, hsplit, hshift⟩ := shift_eq depth text true
  rw [hshift, indentLines, hsplit, List.map_cons, intercalate_cons, List.flatMap_map]
  cases line <;> simp

theorem shift_append (depth : Nat) (xs : List Char) : ∀ (atStart : Bool) (ys : List Char),
    shift atStart depth (xs ++ ys) =
      shift atStart depth xs ++ shift (endsLine atStart xs) depth ys := by
  induction xs with
  | nil => exact fun _ _ => rfl
  | cons c cs ih =>
    intro atStart ys
    rw [List.cons_append, shift, ih, shift, List.append_assoc]
    rfl

theorem endsLine_append (atStart : Bool) (xs ys : List Char) :
    endsLine atStart (xs ++ ys) = endsLine (endsLine atStart xs) ys :=
  List.foldl_append

/-- Within a line there is nothing to indent. -/
theorem shift_oneLine {xs : List Char} (h : '\n' ∉ xs) (depth : Nat) :
    shift false depth xs = xs ∧ endsLine false xs = false := by
  induction xs with
  | nil => exact ⟨rfl, rfl⟩
  | cons c cs ih =>
    rw [List.mem_cons, not_or] at h
    have hc : (c == '\n') = false := by simpa using Ne.symm h.1
    obtain ⟨hshift, hend⟩ := ih h.2
    constructor
    · rw [shift, hc, hshift]
      rfl
    · rw [← hend, ← hc]
      rfl

theorem notMem_spaces (k : Nat) : '\n' ∉ spaces k := fun h =>
  absurd (List.eq_of_mem_replicate h) (by decide)

theorem spaces_add (d k : Nat) : spaces (d + k) = spaces d ++ spaces k := by
  rw [spaces, Nat.mul_add, ← List.replicate_append_replicate]
  rfl

/-- A line that starts with the indentation of a depth gets that of another one before it. -/
theorem shift_spaces {c : Char} (hc : c ≠ '\n') (d k : Nat) (cs : List Char) :
    shift true d (spaces k ++ c :: cs) = spaces (d + k) ++ shift false d (c :: cs) := by
  have hline : (c == '\n') = false := beq_eq_false_iff_ne.mpr hc
  rw [spaces_add]
  cases k with
  | zero => simp [spaces, shift, hline, bne]
  | succ k =>
    obtain ⟨blanks, hblanks, hline⟩ : ∃ blanks, spaces (k + 1) = ' ' :: blanks ∧ '\n' ∉ blanks :=
      ⟨_, rfl, fun h => notMem_spaces (k + 1) (List.mem_cons_of_mem _ h)⟩
    obtain ⟨hshift, hend⟩ := shift_oneLine hline d
    rw [hblanks, List.cons_append, shift, show (' ' == '\n') = false from rfl, shift_append, hshift,
      hend]
    simp

namespace Layout

/-- A text that starts and ends within a line; its further lines are indented from its depth on. -/
structure Tail (t : Nat → List Char) : Prop where
  shifted (d k : Nat) : t (d + k) = shift false d (t k)
  ends (k : Nat) : endsLine false (t k) = false

/-- One with something on its first line. -/
structure Inline (t : Nat → List Char) : Prop extends Tail t where
  starts (k : Nat) : ∃ c cs, t k = c :: cs ∧ c ≠ '\n'

/-- A text of whole lines, all indented from its depth on. -/
structure Lines (t : Nat → List Char) : Prop where
  shifted (d k : Nat) : t (d + k) = shift true d (t k)
  ends (k : Nat) : endsLine true (t k) = true

variable {t u : Nat → List Char}

theorem Tail.text (text : String) (h : OneLine text) : Tail fun _ => text.toList where
  shifted d _ := (shift_oneLine h d).1.symm
  ends _ := (shift_oneLine h 0).2

theorem Tail.append (ht : Tail t) (hu : Tail u) : Tail fun k => t k ++ u k where
  shifted d k := by rw [shift_append, ht.ends, ht.shifted, hu.shifted]
  ends k := by rw [endsLine_append, ht.ends, hu.ends]

theorem Inline.text (text : String) (h : OneLine text) (hne : text ≠ "") :
    Inline fun _ => text.toList where
  toTail := .text text h
  starts _ := by
    obtain ⟨c, cs, hc⟩ := List.exists_cons_of_ne_nil (mt String.toList_eq_nil_iff.mp hne)
    refine ⟨c, cs, hc, fun hbreak => h ?_⟩
    rw [hc, hbreak]
    exact List.mem_cons_self

theorem append_ne_empty {front back : String} (h : back ≠ "") : front ++ back ≠ "" := by
  intro hempty
  have hlist := String.toList_eq_nil_iff.mpr hempty
  rw [String.toList_append, List.append_eq_nil_iff, String.toList_eq_nil_iff,
    String.toList_eq_nil_iff] at hlist
  exact h hlist.2

/-- A text that is not empty because of its end. -/
theorem Inline.concluded {front back : String} (h : OneLine front) (hback : OneLine back)
    (hne : back ≠ "") : Inline fun _ => (front ++ back).toList :=
  .text _ (h.append hback) (append_ne_empty hne)

theorem Inline.append (ht : Inline t) (hu : Tail u) : Inline fun k => t k ++ u k where
  toTail := ht.toTail.append hu
  starts k := by
    obtain ⟨c, cs, hc, hne⟩ := ht.starts k
    exact ⟨c, cs ++ u k, by rw [hc]; rfl, hne⟩

/-- Indentation before a text that goes on in the same line. -/
theorem Inline.shift_spaces (ht : Inline t) (d k : Nat) :
    shift true d (spaces k ++ t k) = spaces (d + k) ++ t (d + k) := by
  obtain ⟨c, cs, hc, hne⟩ := ht.starts k
  rw [ht.shifted, hc, VersionWeave.shift_spaces hne]

theorem Inline.endsLine_spaces (ht : Inline t) (atStart : Bool) (k : Nat) :
    endsLine atStart (spaces k ++ t k) = false := by
  have hend := ht.ends k
  obtain ⟨c, cs, hc, -⟩ := ht.starts k
  rw [hc] at hend
  rw [endsLine_append, hc]
  exact hend

theorem Inline.line (ht : Inline t) : Lines fun k => spaces k ++ t k ++ ['\n'] where
  shifted d k := by rw [shift_append, ht.shift_spaces, ht.endsLine_spaces]; rfl
  ends k := by rw [endsLine_append]; rfl

theorem Lines.nil : Lines fun _ => [] := ⟨fun _ _ => rfl, fun _ => rfl⟩

theorem Lines.blank : Lines fun _ => ['\n'] := ⟨fun _ _ => rfl, fun _ => rfl⟩

theorem Lines.deeper (ht : Lines t) : Lines fun k => t (k + 1) where
  shifted d k := ht.shifted d (k + 1)
  ends k := ht.ends (k + 1)

theorem Lines.append (ht : Lines t) (hu : Lines u) : Lines fun k => t k ++ u k where
  shifted d k := by rw [shift_append, ht.ends, ht.shifted, hu.shifted]
  ends k := by rw [endsLine_append, ht.ends, hu.ends]

/-- A text on a new line, at the depth or some levels deeper. -/
theorem Inline.broken (ht : Inline t) (j : Nat) :
    Tail fun k => ['\n'] ++ (spaces (k + j) ++ t (k + j)) where
  shifted d k := by
    rw [List.singleton_append, List.singleton_append, Nat.add_assoc, ← ht.shift_spaces]
    rfl
  ends k := ht.endsLine_spaces true (k + j)

/-- Lines one level deeper, between an opening text and a brace. -/
theorem Lines.enclosed {opening : String} (h : OneLine opening) (hne : opening ≠ "") (ht : Lines t) :
    Inline fun k => opening.toList ++ ['\n'] ++ t (k + 1) ++ spaces k ++ ['}'] where
  shifted d k := by
    have hbrace : Inline fun _ => ['}'] := Inline.text "\x7d" (.of_all rfl) (by decide)
    have hfront : shift false d (opening.toList ++ ['\n']) = opening.toList ++ ['\n'] := by
      rw [shift_append, (Tail.text opening h).ends k, ← (Tail.text opening h).shifted d k]
      rfl
    have hline : endsLine false (opening.toList ++ ['\n']) = true := by rw [endsLine_append]; rfl
    rw [List.append_assoc, List.append_assoc _ (spaces k), shift_append, endsLine_append,
      shift_append, hfront, hline, ht.ends, ← ht.shifted, hbrace.shift_spaces d k]
    rfl
  ends k := by rw [endsLine_append]; rfl
  starts k := by
    obtain ⟨c, cs, hc, hbreak⟩ := (Inline.text opening h hne).starts k
    exact ⟨c, _, by rw [hc]; rfl, hbreak⟩

theorem Inline.attached (ht : Inline t) (body : Stmt) : Tail (Stmt.attached body t) := by
  unfold Stmt.attached
  cases body.isBlock with
  | true => exact Tail.append (.text " " (.of_all rfl)) ht.toTail
  | false => exact ht.broken 1

theorem Inline.otherwise (ht : Inline t) (afterBlock : Bool) (s : Stmt) :
    Tail (Stmt.otherwise afterBlock s t) := by
  have helse : Inline fun _ => "else".toList := .text _ (.of_all rfl) (by decide)
  have hplace : Tail fun k => (if afterBlock then [' '] else ['\n'] ++ spaces k) ++ "else".toList := by
    cases afterBlock with
    | true => exact Tail.append (.text " " (.of_all rfl)) helse.toTail
    | false => exact helse.broken 0
  refine hplace.append ?_
  cases s.isIf with
  | true => exact Tail.append (.text " " (.of_all rfl)) ht.toTail
  | false => exact ht.attached s

end Layout

open Layout

theorem Writes.inline {f : Page → Page} {t : Nat → List Char} (h : Writes f t) (ht : Inline t) :
    Inline (written f) :=
  (funext h.written_eq : written f = t) ▸ ht

theorem Writes.lines {f : Page → Page} {t : Nat → List Char} (h : Writes f t) (ht : Lines t) :
    Lines (written f) :=
  (funext h.written_eq : written f = t) ▸ ht

namespace Stmt

theorem inline_loopHeader {init : String} {cond : Option Expr} {update : List Expr}
    (hinit : OneLine init) (hcond : Outline.AllUnbroken (Expr.optionOutline cond))
    (hupdate : Outline.AllUnbroken (Expr.outlines update)) :
    Inline fun _ => (loopHeader init cond update).toList := by
  have hupdates : OneLine (if update.isEmpty then "" else " " ++ commas (update.map Expr.source)) :=
    .ite _ (.of_all rfl) (OneLine.append (.of_all rfl) (.commas (Expr.oneLine_map_source hupdate)))
  refine .concluded ?_ (.of_all rfl) (by decide)
  exact ((((OneLine.append (.of_all rfl) hinit).append (.of_all rfl)).append
    (Expr.oneLine_optionSource hcond (.of_all rfl))).append (.of_all rfl)).append hupdates

theorem lines_labels {labels : List Expr} (h : Outline.AllUnbroken (Expr.outlines labels)) :
    Lines (labelLines labels) := by
  have hdefault : Lines fun k => if labels.isEmpty then spaces k ++ "default:".toList ++ ['\n']
      else [] := by
    cases labels.isEmpty with
    | true => exact (Inline.text "default:" (.of_all rfl) (by decide)).line
    | false => exact .nil
  refine hdefault.append ?_
  clear hdefault
  induction labels with
  | nil => exact .nil
  | cons label rest ih =>
    obtain ⟨hlabel, hrest⟩ := (Outline.allUnbroken_cons _ _).mp h
    have hcase : OneLine ("case " ++ label.source) :=
      OneLine.append (.of_all rfl) (Expr.oneLine_source hlabel)
    exact (Inline.concluded hcase (.of_all rfl) (by decide)).line.append (ih hrest)

mutual

/-- A statement is laid out from its depth on. -/
theorem inline : ∀ {s : Stmt}, s.outline.Unbroken → Inline (written s.writeInline)
  | .expr e, h =>
    (Writes.token (e.source ++ ";")).inline
      (.concluded (Expr.oneLine_source (Outline.Unbroken.only h)) (.of_all rfl) (by decide))
  | .vars v, h =>
    (Writes.token (v.source ++ ";")).inline
      (.concluded (LocalVars.oneLine_source (Outline.Unbroken.only h)) (.of_all rfl) (by decide))
  | .block stmts, h => by
    simp only [outline, Outline.unbroken_node, Outline.allUnbroken_cons] at h
    exact (writes_block (appends_all stmts)).inline
      ((lines_all h.1.1.1).enclosed (.of_all rfl) (by decide))
  | .ifElse cond thenBranch elseBranch, h => by
    simp only [outline, Outline.unbroken_node, Outline.allUnbroken_cons] at h
    obtain ⟨⟨hcond, hthen, helse⟩, -⟩ := h
    have hfront : OneLine ("if (" ++ cond.source) :=
      OneLine.append (.of_all rfl) (Expr.oneLine_source hcond)
    exact (writes_ifElse cond (appends thenBranch) (appends_else _ elseBranch)).inline
      (((Inline.concluded hfront (.of_all rfl) (by decide)).append
        ((inline hthen).attached thenBranch)).append (tail_else _ helse))
  | .whileLoop cond body, h => by
    simp only [outline, Outline.unbroken_node, Outline.allUnbroken_cons] at h
    obtain ⟨⟨hcond, hbody, -⟩, -⟩ := h
    have hfront : OneLine ("while (" ++ cond.source) :=
      OneLine.append (.of_all rfl) (Expr.oneLine_source hcond)
    exact (writes_while cond (appends body)).inline
      ((Inline.concluded hfront (.of_all rfl) (by decide)).append ((inline hbody).attached body))
  | .forLoop init cond update body, h => by
    simp only [outline, Outline.unbroken_node, Outline.allUnbroken_cons,
      Outline.allUnbroken_append] at h
    obtain ⟨⟨⟨⟨hinit, hcond⟩, hupdate⟩, hbody, -⟩, -⟩ := h
    have hattached := (inline hbody).attached body
    by_cases hfits : fitsHeader init = true
    · exact (writes_for cond update hfits (appends body)).inline
        ((inline_loopHeader (oneLine_init hinit) hcond hupdate).append hattached)
    · have hnone : OneLine "" := .of_all rfl
      have hloop := (inline_loopHeader hnone hcond hupdate).append hattached
      exact (writes_for_hoisted cond update hfits (appends_all init) (appends body)).inline
        (((lines_all hinit).append hloop.line).enclosed (.of_all rfl) (by decide))
  | .ret value, h => by
    simp only [outline, Outline.unbroken_node] at h
    have hfront : OneLine ("return" ++ value.elim "" (" " ++ ·.source)) :=
      OneLine.append (.of_all rfl) (Expr.oneLine_optionSource h.1 (.of_all rfl))
    exact (Writes.token ("return" ++ value.elim "" (" " ++ ·.source) ++ ";")).inline
      (.concluded hfront (.of_all rfl) (by decide))
  | .switch selector cases, h => by
    simp only [outline, Outline.unbroken_node, Outline.allUnbroken_cons] at h
    obtain ⟨⟨hselector, hcases⟩, -⟩ := h
    have hfront : OneLine ("switch (" ++ selector.source) :=
      OneLine.append (.of_all rfl) (Expr.oneLine_source hselector)
    exact (writes_switch selector (appends_cases cases)).inline
      ((lines_cases hcases).enclosed (hfront.append (.of_all rfl)) (append_ne_empty (by decide)))
  | .breakOut, _ => (Writes.token "break;").inline (.text _ (.of_all rfl) (by decide))
  | .continueOn, _ => (Writes.token "continue;").inline (.text _ (.of_all rfl) (by decide))
  | .throw e, h => by
    have hfront : OneLine ("throw " ++ e.source) :=
      OneLine.append (.of_all rfl) (Expr.oneLine_source (Outline.Unbroken.only h))
    exact (Writes.token ("throw " ++ e.source ++ ";")).inline
      (.concluded hfront (.of_all rfl) (by decide))
  | .empty, _ => (Writes.token ";").inline (.text _ (.of_all rfl) (by decide))

theorem tail_else : ∀ {elseBranch : Option Stmt} (afterBlock : Bool),
    Outline.AllUnbroken (optionOutline elseBranch) → Tail (written (writeElse afterBlock elseBranch))
  | none, _, _ => ⟨fun _ _ => rfl, fun _ => rfl⟩
  | some s, afterBlock, h => by
    have hwritten := funext (writes_else afterBlock (appends s)).written_eq
    rw [hwritten]
    exact (inline ((Outline.allUnbroken_cons _ _).mp h).1).otherwise afterBlock s

theorem lines_all : ∀ {stmts : List Stmt}, Outline.AllUnbroken (outlines stmts) →
    Lines (written (writeAll stmts))
  | [], _ => .nil
  | s :: rest, h => by
    obtain ⟨hs, hrest⟩ := (Outline.allUnbroken_cons _ _).mp h
    exact (writes_all_cons (appends s) (appends_all rest)).lines
      ((inline hs).line.append (lines_all hrest))

theorem lines_cases : ∀ {cases : List SwitchCase}, Outline.AllUnbroken (SwitchCase.outlines cases) →
    Lines (written (SwitchCase.writeAll cases))
  | [], _ => .nil
  | ⟨labels, body⟩ :: rest, h => by
    simp only [SwitchCase.outlines, Outline.allUnbroken_append] at h
    obtain ⟨⟨hlabels, hbody⟩, hrest⟩ := h
    exact ((writes_case labels (appends_all body)).comp (appends_cases rest)).lines
      (((lines_labels hlabels).append (lines_all hbody).deeper).append (lines_cases hrest))

end

/-- A statement takes up whole lines. -/
theorem lines {s : Stmt} (h : s.outline.Unbroken) : Lines (written s.write) :=
  s.writes_line.lines (inline h).line

end Stmt

theorem Block.inline {b : Block} (h : (Block.outline b).Unbroken) :
    Inline (written (Block.write b)) := by
  have hstmts := ((Outline.unbroken_node _ _).mp h).1
  exact (Stmt.writes_block (Stmt.appends_all b)).inline
    ((Stmt.lines_all hstmts).enclosed (.of_all rfl) (by decide))

theorem FieldDecl.lines {d : FieldDecl} (h : d.outline.Unbroken) : Lines (written d.write) := by
  obtain ⟨hchildren, hnames⟩ := (Outline.unbroken_node _ _).mp h
  obtain ⟨hty, hinits⟩ := (Outline.allUnbroken_cons _ _).mp hchildren
  have hblank : OneLine " " := .of_all rfl
  have hfront := ((d.modifiers.oneLine_source.append (TypeRef.oneLine_source hty)).append
    hblank).append (Declarator.oneLine_sources hnames hinits)
  exact d.writes.lines (Inline.concluded hfront (.of_all rfl) (by decide)).line

theorem MethodDecl.lines {m : MethodDecl} (h : m.outline.Unbroken) : Lines (written m.write) := by
  obtain ⟨hchildren, hname⟩ := (Outline.unbroken_node _ _).mp h
  simp only [List.cons_append, Outline.allUnbroken_cons, Outline.allUnbroken_append] at hchildren
  obtain ⟨htype, hparams, hbody⟩ := hchildren
  have hblank : OneLine " " := .of_all rfl
  have hfront := ((m.modifiers.oneLine_source.append (TypeRef.oneLine_source htype)).append
    hblank).append (hname _ List.mem_cons_self)
  have hheader : Inline fun _ => (m.modifiers.source ++ m.returnType.source ++ " " ++ m.name
      ++ paramsSource m.params).toList :=
    .concluded hfront (oneLine_paramsSource hparams) (append_ne_empty (by decide))
  have hrest : Tail fun k => m.body.elim [';'] fun body => [' '] ++ written (Block.write body) k := by
    cases hm : m.body with
    | none => exact Tail.text ";" (.of_all rfl)
    | some body =>
      rw [hm] at hbody
      exact (Tail.text " " hblank).append
        (Block.inline ((Outline.allUnbroken_cons _ _).mp hbody).1).toTail
  exact m.writes.lines (hheader.append hrest).line

theorem ConstructorDecl.lines {c : ConstructorDecl} (h : c.outline.Unbroken) :
    Lines (written c.write) := by
  obtain ⟨hchildren, hname⟩ := (Outline.unbroken_node _ _).mp h
  simp only [Outline.allUnbroken_cons, Outline.allUnbroken_append] at hchildren
  obtain ⟨hparams, hbody, -⟩ := hchildren
  have hfront := (c.modifiers.oneLine_source.append (hname _ List.mem_cons_self)).append
    (oneLine_paramsSource hparams)
  exact c.writes.lines
    ((Inline.concluded hfront (.of_all rfl) (by decide)).append (Block.inline hbody).toTail).line

namespace Member

theorem lines_gap (previousIsField : Option Bool) (m : Member) :
    Lines fun _ => gap previousIsField m := by
  unfold gap
  split
  next => exact .nil
  next => exact .blank

mutual

/-- A member takes up whole lines. -/
theorem lines : ∀ {m : Member}, m.outline.Unbroken → Lines (written m.write)
  | .field _, h => FieldDecl.lines (Outline.Unbroken.only h)
  | .method _, h => MethodDecl.lines (Outline.Unbroken.only h)
  | .constructor _, h => ConstructorDecl.lines (Outline.Unbroken.only h)
  | .type _, h => lines_type (Outline.Unbroken.only h)

theorem lines_type : ∀ {t : TypeDecl}, t.outline.Unbroken → Lines (written t.write)
  | ⟨kind, modifiers, name, superclass, interfaces, members⟩, h => by
    simp only [TypeDecl.outline, Outline.unbroken_node, Outline.allUnbroken_append] at h
    obtain ⟨⟨⟨hsuperclass, hinterfaces⟩, hmembers⟩, hname⟩ := h
    have hheader := TypeDecl.oneLine_header kind modifiers (hname name List.mem_cons_self)
      hsuperclass hinterfaces
    exact (writes_type kind modifiers name superclass interfaces (appends_all none members)).lines
      ((lines_all none hmembers).enclosed hheader (append_ne_empty (by decide))).line

theorem lines_all : ∀ (previousIsField : Option Bool) {members : List Member},
    Outline.AllUnbroken (outlines members) → Lines (written (writeAll previousIsField members))
  | _, [], _ => .nil
  | previousIsField, m :: rest, h => by
    obtain ⟨hm, hrest⟩ := (Outline.allUnbroken_cons _ _).mp h
    exact (writes_cons previousIsField (appends m) (appends_all (some m.isField) rest)).lines
      (((lines_gap previousIsField m).append (lines hm)).append (lines_all (some m.isField) hrest))

end

end Member

/-- What is laid out in whole lines is its text at the margin, indented. -/
theorem Appends.indented {f : Page → Page} (hf : Appends f) (hlines : Lines (written f)) (p : Page) :
    (f p).depth = p.depth ∧ (f p).text =
      p.text ++ String.ofList (indentLines p.depth (f {}).text.toList) := by
  refine ⟨(hf p).1, String.toList_inj.mp ?_⟩
  rw [(hf p).2, String.toList_append, String.toList_ofList, ← shift_true]
  exact congrArg (p.text.toList ++ ·) (hlines.shifted p.depth 0)

/--
Writing a statement or a member leaves the depth as it was and adds the text that the node has at the
margin, with the indentation of the depth before each line that is not empty.
-/
theorem Page.write_indented (p : Page) :
    (∀ s : Stmt, s.outline.Unbroken → (p.write s).depth = p.depth ∧ (p.write s).text =
      p.text ++ String.ofList (indentLines p.depth (source s).toList)) ∧
    ∀ m : Member, m.outline.Unbroken → (p.write m).depth = p.depth ∧ (p.write m).text =
      p.text ++ String.ofList (indentLines p.depth (source m).toList) :=
  ⟨fun s h => s.writes_line.appends.indented (Stmt.lines h) p,
    fun m h => m.appends.indented (Member.lines h) p⟩

/-- A loop with a block before it, and a nested type with a blank line between its members. -/
theorem Page.write_indented_tally :
    let page : Page := { text := "class Board \x7b\n", depth := 1 }
    let reset : Stmt := .expr (.callOn (.ident "t") "reset" [.literal (.double "0.5")])
    let loop : Stmt :=
      .forLoop [.block [reset]] none [] (.ifElse (.ident "idle") .breakOut (some reset))
    let tally : Member := .type { name := "Tally", members :=
      [.field (.single {} (.plain "int") "count"),
        .method { returnType := .void, name := "run", body := some [loop] }] }
    (loop.outline.Unbroken ∧ (page.write loop).depth = 1 ∧ (page.write loop).text =
      page.text ++ String.ofList (indentLines 1 (source loop).toList)) ∧
    tally.outline.Unbroken ∧ (page.write tally).depth = 1 ∧ (page.write tally).text =
      page.text ++ String.ofList (indentLines 1 (source tally).toList) := by
  intro page reset loop tally
  have hloop : loop.outline.Unbroken := by decide
  have htally : tally.outline.Unbroken := by decide
  exact ⟨⟨hloop, (page.write_indented).1 loop hloop⟩, htally, (page.write_indented).2 tally htally⟩

end VersionWeave
