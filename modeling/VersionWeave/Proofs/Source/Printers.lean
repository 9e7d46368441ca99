import VersionWeave.Tree.Source

namespace VersionWeave

/-- The indentation of a depth. -/
def spaces (depth : Nat) : List Char :=
  List.replicate (4 * depth) ' '

theorem toList_pad (depth : Nat) : (pad depth).toList = spaces depth :=
  String.toList_ofList

/-- What a printer writes on an empty page. -/
def written (f : Page → Page) (depth : Nat) : List Char :=
  (f { depth }).text.toList

/-- A printer leaves the depth as it was, and adds a text that depends on nothing but the depth. -/
def Writes (f : Page → Page) (text : Nat → List Char) : Prop :=
  ∀ p : Page, (f p).depth = p.depth ∧ (f p).text.toList = p.text.toList ++ text p.depth

/-- A printer that writes something, be it what it may. -/
def Appends (f : Page → Page) : Prop :=
  Writes f (written f)

namespace Writes

variable {f g : Page → Page} {t u : Nat → List Char}

theorem written_eq (h : Writes f t) (depth : Nat) : written f depth = t depth :=
  (h { depth }).2

theorem appends (h : Writes f t) : Appends f := fun p =>
  ⟨(h p).1, by rw [(h p).2, h.written_eq]⟩

theorem nothing : Writes (fun p => p) fun _ => [] := fun _ => ⟨rfl, (List.append_nil _).symm⟩

theorem token (text : String) : Writes (fun p => p.token text) fun _ => text.toList := fun _ =>
  ⟨rfl, String.toList_append⟩

theorem newline : Writes Page.newline fun _ => ['\n'] := token "\n"

theorem addIndent : Writes Page.addIndent spaces := fun p =>
  ⟨rfl, by rw [Page.addIndent, (token _ p).2, toList_pad]⟩

/-- One printer after another. -/
theorem comp (hf : Writes f t) (hg : Writes g u) :
    Writes (fun p => g (f p)) fun k => t k ++ u k := fun p =>
  ⟨(hg (f p)).1.trans (hf p).1, by rw [(hg (f p)).2, (hf p).1, (hf p).2, List.append_assoc]⟩

/-- What is written one level deeper, with the level taken back afterwards. -/
theorem deeper (hf : Writes f t) : Writes (fun p => (f p.indent).dedent) fun k => t (k + 1) :=
  fun p => ⟨congrArg (· - 1) (hf p.indent).1, (hf p.indent).2⟩

/-- A line of its own. -/
theorem line (hf : Writes f t) :
    Writes (fun p => (f p.addIndent).newline) fun k => spaces k ++ t k ++ ['\n'] :=
  (addIndent.comp hf).comp newline

/-- Lines one level deeper, between an opening text and a brace. -/
theorem enclosed (hf : Writes f t) (opening : String) :
    Writes (fun p => (f (p.token opening).newline.indent).dedent.addIndent.token "\x7d") fun k =>
      opening.toList ++ ['\n'] ++ t (k + 1) ++ spaces k ++ ['}'] :=
  ((((token opening).comp newline).comp hf.deeper).comp addIndent).comp (token "\x7d")

end Writes

namespace Stmt

/-- The text of the body of a control statement. -/
def attached (body : Stmt) (text : Nat → List Char) (k : Nat) : List Char :=
  if body.isBlock then [' '] ++ text k else ['\n'] ++ (spaces (k + 1) ++ text (k + 1))

/-- The text of an else and of what belongs to it. -/
def otherwise (afterBlock : Bool) (s : Stmt) (text : Nat → List Char) (k : Nat) : List Char :=
  (if afterBlock then [' '] else ['\n'] ++ spaces k) ++ "else".toList
    ++ (if s.isIf then [' '] ++ text k else attached s text k)

/-- The header of a loop. -/
def loopHeader (init : String) (cond : Option Expr) (update : List Expr) : String :=
  "for (" ++ init ++ ";" ++ cond.elim "" (" " ++ ·.source) ++ ";"
    ++ (if update.isEmpty then "" else " " ++ commas (update.map Expr.source)) ++ ")"

variable {f g : Page → Page} {t u : Nat → List Char}

theorem writes_attach (hf : Writes f t) (body : Stmt) :
    Writes (attach body f) (attached body t) := by
  unfold attach attached
  split
  next => exact (Writes.token " ").comp hf
  next => exact Writes.newline.comp (Writes.addIndent.comp hf).deeper

theorem writes_loop (hf : Writes f t) (init : String) (cond : Option Expr) (update : List Expr)
    (body : Stmt) : Writes (writeLoop init cond update body f) fun k =>
      (loopHeader init cond update).toList ++ attached body t k :=
  (Writes.token (loopHeader init cond update)).comp (writes_attach hf body)

section

variable {s body thenBranch : Stmt} {stmts init : List Stmt}

theorem writes_block (h : Writes (writeAll stmts) t) : Writes (block stmts).writeInline fun k =>
    "\x7b".toList ++ ['\n'] ++ t (k + 1) ++ spaces k ++ ['}'] :=
  h.enclosed "\x7b"

theorem writes_ifElse (cond : Expr) {elseBranch : Option Stmt} (ht : Writes thenBranch.writeInline t)
    (he : Writes (writeElse thenBranch.isBlock elseBranch) u) :
    Writes (ifElse cond thenBranch elseBranch).writeInline fun k =>
      ("if (" ++ cond.source ++ ")").toList ++ attached thenBranch t k ++ u k :=
  ((Writes.token ("if (" ++ cond.source ++ ")")).comp (writes_attach ht thenBranch)).comp he

theorem writes_else (afterBlock : Bool) (h : Writes s.writeInline t) :
    Writes (writeElse afterBlock (some s)) (otherwise afterBlock s t) := by
  have hplace : Writes (fun p => if afterBlock then p.token " " else p.newline.addIndent) fun k =>
      if afterBlock then [' '] else ['\n'] ++ spaces k := by
    cases afterBlock with
    | true => exact Writes.token " "
    | false => exact Writes.newline.comp Writes.addIndent
  have hbranch : Writes (fun p => if s.isIf then s.writeInline (p.token " ")
      else attach s s.writeInline p) fun k => if s.isIf then [' '] ++ t k else attached s t k := by
    cases s.isIf with
    | true => exact (Writes.token " ").comp h
    | false => exact writes_attach h s
  exact (hplace.comp (Writes.token "else")).comp hbranch

theorem writes_while (cond : Expr) (h : Writes body.writeInline t) :
    Writes (whileLoop cond body).writeInline fun k =>
      ("while (" ++ cond.source ++ ")").toList ++ attached body t k :=
  (Writes.token ("while (" ++ cond.source ++ ")")).comp (writes_attach h body)

theorem writes_for (cond : Option Expr) (update : List Expr) (hfits : fitsHeader init = true)
    (h : Writes body.writeInline t) : Writes (forLoop init cond update body).writeInline fun k =>
      (loopHeader (commas (init.map headerSource)) cond update).toList ++ attached body t k := by
  have hloop := writes_loop h (commas (init.map headerSource)) cond update body
  intro p
  rw [writeInline, if_pos hfits]
  exact hloop p

/-- What a header cannot hold stands before the loop. -/
theorem writes_for_hoisted (cond : Option Expr) (update : List Expr)
    (hfits : ¬ fitsHeader init = true) (hinit : Writes (writeAll init) u)
    (h : Writes body.writeInline t) : Writes (forLoop init cond update body).writeInline fun k =>
      "\x7b".toList ++ ['\n'] ++ (u (k + 1) ++ (spaces (k + 1)
        ++ ((loopHeader "" cond update).toList ++ attached body t (k + 1)) ++ ['\n']))
        ++ spaces k ++ ['}'] := by
  have hloop := (hinit.comp (writes_loop h "" cond update body).line).enclosed "\x7b"
  intro p
  rw [writeInline, if_neg hfits]
  exact hloop p

theorem writes_all_cons (h : Writes s.writeInline t) (hstmts : Writes (writeAll stmts) u) :
    Writes (writeAll (s :: stmts)) fun k => spaces k ++ t k ++ ['\n'] ++ u k :=
  h.line.comp hstmts

theorem writes_switch (selector : Expr) {cases : List SwitchCase}
    (h : Writes (SwitchCase.writeAll cases) t) : Writes (switch selector cases).writeInline fun k =>
      ("switch (" ++ selector.source ++ ") \x7b").toList ++ ['\n'] ++ t (k + 1) ++ spaces k ++ ['}'] :=
  h.enclosed ("switch (" ++ selector.source ++ ") \x7b")

/-- The lines of the labels of an arm. -/
def labelLines (labels : List Expr) (k : Nat) : List Char :=
  (if labels.isEmpty then spaces k ++ "default:".toList ++ ['\n'] else [])
    ++ labels.flatMap fun label => spaces k ++ ("case " ++ label.source ++ ":").toList ++ ['\n']

theorem writes_labels (labels : List Expr) :
    Writes (fun p => labels.foldl SwitchCase.writeLabel p) fun k =>
      labels.flatMap fun label => spaces k ++ ("case " ++ label.source ++ ":").toList ++ ['\n'] := by
  induction labels with
  | nil => exact Writes.nothing
  | cons label rest ih => exact (Writes.token ("case " ++ label.source ++ ":")).line.comp ih

theorem writes_case (labels : List Expr) (h : Writes (writeAll stmts) t) :
    Writes (SwitchCase.mk labels stmts).write fun k => labelLines labels k ++ t (k + 1) := by
  have hdefault : Writes (fun p => if labels.isEmpty then (p.addIndent.token "default:").newline
      else p) fun k => if labels.isEmpty then spaces k ++ "default:".toList ++ ['\n'] else [] := by
    cases labels.isEmpty with
    | true => exact (Writes.token "default:").line
    | false => exact Writes.nothing
  exact (hdefault.comp (writes_labels labels)).comp h.deeper

end

mutual

/-- Every statement is added to what is there, at the depth that is there. -/
theorem appends : ∀ s : Stmt, Appends s.writeInline
  | .expr e => (Writes.token (e.source ++ ";")).appends
  | .vars v => (Writes.token (v.source ++ ";")).appends
  | .block stmts => (writes_block (appends_all stmts)).appends
  | .ifElse cond thenBranch elseBranch =>
    (writes_ifElse cond (appends thenBranch) (appends_else _ elseBranch)).appends
  | .whileLoop cond body => (writes_while cond (appends body)).appends
  | .forLoop init cond update body => by
    by_cases hfits : fitsHeader init = true
    · exact (writes_for cond update hfits (appends body)).appends
    · exact (writes_for_hoisted cond update hfits (appends_all init) (appends body)).appends
  | .ret value => (Writes.token ("return" ++ value.elim "" (" " ++ ·.source) ++ ";")).appends
  | .switch selector cases => (writes_switch selector (appends_cases cases)).appends
  | .breakOut => (Writes.token "break;").appends
  | .continueOn => (Writes.token "continue;").appends
  | .throw e => (Writes.token ("throw " ++ e.source ++ ";")).appends
  | .empty => (Writes.token ";").appends

theorem appends_else (afterBlock : Bool) : ∀ elseBranch : Option Stmt,
    Appends (writeElse afterBlock elseBranch)
  | none => Writes.nothing.appends
  | some s => (writes_else afterBlock (appends s)).appends

theorem appends_all : ∀ stmts : List Stmt, Appends (writeAll stmts)
  | [] => Writes.nothing.appends
  | s :: rest => (writes_all_cons (appends s) (appends_all rest)).appends

theorem appends_cases : ∀ cases : List SwitchCase, Appends (SwitchCase.writeAll cases)
  | [] => Writes.nothing.appends
  | c :: rest => ((appends_case c).comp (appends_cases rest)).appends

theorem appends_case : ∀ c : SwitchCase, Appends c.write
  | ⟨labels, body⟩ => (writes_case labels (appends_all body)).appends

end

/-- A statement on a line of its own. -/
theorem writes_line (s : Stmt) :
    Writes s.write fun k => spaces k ++ written s.writeInline k ++ ['\n'] :=
  (appends s).line

end Stmt

theorem FieldDecl.writes (d : FieldDecl) : Writes d.write fun k =>
    spaces k ++ (d.modifiers.source ++ d.ty.source ++ " "
      ++ commas (d.declarators.map Declarator.source) ++ ";").toList ++ ['\n'] :=
  (Writes.token _).line

theorem MethodDecl.writes (m : MethodDecl) : Writes m.write fun k =>
    spaces k ++ ((m.modifiers.source ++ m.returnType.source ++ " " ++ m.name
      ++ paramsSource m.params).toList ++ m.body.elim [';'] fun body =>
        [' '] ++ written (Block.write body) k) ++ ['\n'] := by
  obtain ⟨modifiers, returnType, name, params, body⟩ := m
  cases body with
  | none => exact ((Writes.token _).comp (Writes.token ";")).line
  | some body =>
    exact ((Writes.token _).comp ((Writes.token " ").comp (Stmt.appends (.block body)))).line

theorem ConstructorDecl.writes (c : ConstructorDecl) : Writes c.write fun k =>
    spaces k ++ ((c.modifiers.source ++ c.name ++ paramsSource c.params ++ " ").toList
      ++ written (Block.write c.body) k) ++ ['\n'] :=
  ((Writes.token _).comp (Stmt.appends (.block c.body))).line

namespace Member

/-- The blank line before a member, where there is one. -/
def gap (previousIsField : Option Bool) (m : Member) : List Char :=
  if previousIsField.elim true fun wasField => wasField && m.isField then [] else ['\n']

theorem writes_cons {t u : Nat → List Char} (previousIsField : Option Bool) {m : Member}
    {rest : List Member} (hm : Writes m.write t) (hrest : Writes (writeAll (some m.isField) rest) u) :
    Writes (writeAll previousIsField (m :: rest)) fun k => gap previousIsField m ++ t k ++ u k := by
  have hgap : Writes (fun p => if previousIsField.elim true fun wasField => wasField && m.isField
      then p else p.newline) fun _ => gap previousIsField m := by
    unfold gap
    cases previousIsField.elim true fun wasField => wasField && m.isField with
    | true => exact Writes.nothing
    | false => exact Writes.newline
  exact (hgap.comp hm).comp hrest

theorem writes_type {t : Nat → List Char} (kind : TypeKind) (modifiers : Modifiers) (name : String)
    (superclass : Option TypeRef) (interfaces : List TypeRef) {members : List Member}
    (h : Writes (writeAll none members) t) :
    Writes (TypeDecl.mk kind modifiers name superclass interfaces members).write fun k =>
      spaces k ++ ((TypeDecl.header kind modifiers name superclass interfaces).toList ++ ['\n']
        ++ t (k + 1) ++ spaces k ++ ['}']) ++ ['\n'] :=
  (h.enclosed (TypeDecl.header kind modifiers name superclass interfaces)).line

mutual

theorem appends : ∀ m : Member, Appends m.write
  | .field d => d.writes.appends
  | .method m => m.writes.appends
  | .constructor c => c.writes.appends
  | .type t => appends_type t

theorem appends_type : ∀ t : TypeDecl, Appends t.write
  | ⟨kind, modifiers, name, superclass, interfaces, members⟩ =>
    (writes_type kind modifiers name superclass interfaces (appends_all none members)).appends

theorem appends_all : ∀ (previousIsField : Option Bool) (members : List Member),
    Appends (writeAll previousIsField members)
  | _, [] => Writes.nothing.appends
  | previousIsField, m :: rest =>
    (writes_cons previousIsField (appends m) (appends_all (some m.isField) rest)).appends

end

end Member

end VersionWeave
