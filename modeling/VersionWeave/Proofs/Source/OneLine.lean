import VersionWeave.Proofs.Json.Scalars
import VersionWeave.Proofs.Source.Escapes
import VersionWeave.Proofs.Tree.Nodes

namespace VersionWeave

/-- A text without a line break. -/
def OneLine (text : String) : Prop :=
  '\n' ∉ text.toList

instance (text : String) : Decidable (OneLine text) :=
  inferInstanceAs (Decidable ('\n' ∉ text.toList))

namespace OneLine

theorem of_all {text : String} (h : text.toList.all (· ≠ '\n') = true) : OneLine text := fun hmem =>
  absurd rfl (of_decide_eq_true (List.all_eq_true.mp h _ hmem))

theorem append {a b : String} (ha : OneLine a) (hb : OneLine b) : OneLine (a ++ b) := by
  unfold OneLine
  rw [String.toList_append, List.mem_append]
  exact not_or.mpr ⟨ha, hb⟩

theorem commas {items : List String} (h : ∀ x ∈ items, OneLine x) : OneLine (commas items) := by
  unfold VersionWeave.commas
  induction items with
  | nil => exact .of_all rfl
  | cons x rest ih =>
    obtain ⟨hx, hrest⟩ := List.forall_mem_cons.mp h
    cases rest with
    | nil =>
      rw [String.intercalate_singleton]
      exact hx
    | cons y rest =>
      rw [String.intercalate_cons_cons]
      exact (hx.append (.of_all rfl)).append (ih hrest)

theorem join {items : List String} (h : ∀ x ∈ items, OneLine x) : OneLine (String.join items) := by
  unfold OneLine
  rw [String.toList_join, List.mem_flatMap]
  rintro ⟨x, hx, hmem⟩
  exact h x hx hmem

theorem elim {α : Type} (o : Option α) {f : α → String} (h : ∀ a ∈ o, OneLine (f a)) :
    OneLine (o.elim "" f) := by
  cases o with
  | none => exact .of_all rfl
  | some a => exact h a rfl

theorem ite (c : Prop) [Decidable c] {a b : String} (ha : OneLine a) (hb : OneLine b) :
    OneLine (if c then a else b) := by
  split
  · exact ha
  · exact hb

theorem parenthesize {least level : Nat} {text : String} (h : OneLine text) :
    OneLine (parenthesize least level text) :=
  .ite _ ((OneLine.append (.of_all rfl) h).append (.of_all rfl)) h

end OneLine

/-- The texts that a node is written with as they are: its names, or a floating-point literal. -/
def Node.texts : Node → List String
  | .typeDecl t => [t.name]
  | .fieldDecl f => f.declarators.map Declarator.name
  | .methodDecl m => [m.name]
  | .constructorDecl c => [c.name]
  | .param p => [p.name]
  | .localVars v => v.declarators.map Declarator.name
  | .expr (.ident n) => [n]
  | .expr (.literal (.float text)) | .expr (.literal (.double text)) => [text]
  | .call _ name _ => [name]
  | .fieldAccess _ name => [name]
  | .typeRef t => [t.name]
  | _ => []

def Node.Unbroken (n : Node) : Prop :=
  ∀ text ∈ n.texts, OneLine text

namespace Outline

/-- No name and no floating-point literal in an outline has a line break in it. -/
def Unbroken (o : Outline) : Prop := ∀ n ∈ o.nodes, n.Unbroken

instance (o : Outline) : Decidable o.Unbroken :=
  inferInstanceAs (Decidable (∀ n ∈ o.nodes, ∀ text ∈ n.texts, OneLine text))

def AllUnbroken (os : List Outline) : Prop := ∀ n ∈ Outline.allNodes os, n.Unbroken

@[simp] theorem unbroken_node (n : Node) (children : List Outline) :
    (Outline.node n children).Unbroken ↔ AllUnbroken children ∧ n.Unbroken := by
  simp only [Unbroken, AllUnbroken, Outline.nodes, List.forall_mem_append, List.forall_mem_singleton]

@[simp] theorem allUnbroken_nil : AllUnbroken [] := by simp [AllUnbroken, Outline.allNodes]

@[simp] theorem allUnbroken_cons (o : Outline) (os : List Outline) :
    AllUnbroken (o :: os) ↔ o.Unbroken ∧ AllUnbroken os := by
  simp only [Unbroken, AllUnbroken, Outline.allNodes, List.forall_mem_append]

@[simp] theorem allUnbroken_append (os ps : List Outline) :
    AllUnbroken (os ++ ps) ↔ AllUnbroken os ∧ AllUnbroken ps := by
  simp only [AllUnbroken, Outline.allNodes_append, List.forall_mem_append]

theorem Unbroken.only {n : Node} {o : Outline} (h : (Outline.node n [o]).Unbroken) : o.Unbroken :=
  ((allUnbroken_cons o []).mp ((unbroken_node n [o]).mp h).1).1

theorem allUnbroken_iff {os : List Outline} : AllUnbroken os ↔ ∀ o ∈ os, o.Unbroken := by
  induction os with
  | nil => simp
  | cons o rest ih => simp [ih]

end Outline

namespace TypeRef

mutual

theorem oneLine_source : ∀ {t : TypeRef}, t.outline.Unbroken → OneLine t.source
  | ⟨name, args, dims⟩, h => by
    obtain ⟨hargs, hname⟩ := (Outline.unbroken_node _ _).mp h
    have hsources : OneLine (commas (sources args)) := .commas (oneLine_sources hargs)
    rw [source]
    refine OneLine.append (OneLine.append (hname name List.mem_cons_self) (.ite _ ?_ ?_)) (.join ?_)
    · exact .of_all rfl
    · exact (OneLine.append (.of_all rfl) hsources).append (.of_all rfl)
    · intro x hx
      rw [List.eq_of_mem_replicate hx]
      exact .of_all rfl

theorem oneLine_sources : ∀ {ts : List TypeRef}, Outline.AllUnbroken (outlines ts) →
    ∀ x ∈ sources ts, OneLine x
  | [], _ => fun _ hx => absurd hx List.not_mem_nil
  | t :: rest, h => by
    obtain ⟨ht, hrest⟩ := (Outline.allUnbroken_cons _ _).mp h
    exact List.forall_mem_cons.mpr ⟨oneLine_source ht, oneLine_sources hrest⟩

end

end TypeRef

theorem notMem_escapeQuoted {quote : Char} (hquote : quote ≠ '\n') (c : Char) :
    '\n' ∉ escapeQuoted quote c := by
  rcases Escape.escapeQuoted_spec quote c with ⟨hc, -, -, hbreak, -⟩ | ⟨d, hd, hc⟩
  · rw [hc, List.mem_singleton]
    exact Ne.symm hbreak
  · rw [hc, List.mem_cons, List.mem_singleton]
    rintro (h | rfl)
    · cases h
    · simp [Escape.pairs, hquote.symm] at hd

theorem oneLine_quoted {quote : Char} (hquote : quote ≠ '\n') (text : List Char) :
    OneLine (quoted quote text) := by
  unfold OneLine quoted
  rw [String.toList_ofList, List.cons_append, List.mem_cons, List.mem_append, List.mem_flatMap,
    List.mem_singleton]
  rintro (h | ⟨c, -, hc⟩ | h)
  · exact hquote h.symm
  · exact notMem_escapeQuoted hquote c hc
  · exact hquote h.symm

theorem oneLine_repr (i : Int) : OneLine i.repr := by
  have hnat : ∀ n : Nat, OneLine n.repr := by
    intro n hmem
    rw [Nat.toList_repr] at hmem
    exact absurd (Json.isDigit_of_mem_toDigits hmem) (by decide)
  cases i with
  | ofNat n => exact hnat n
  | negSucc n => exact OneLine.append (.of_all rfl) (hnat (n + 1))

theorem Literal.oneLine_source {l : Literal} (h : (Node.expr (.literal l)).Unbroken) :
    OneLine l.source := by
  cases l with
  | int i => exact oneLine_repr _
  | long i => exact (oneLine_repr _).append (.of_all rfl)
  | float text => exact h text List.mem_cons_self
  | double text => exact h text List.mem_cons_self
  | bool b => cases b <;> exact .of_all rfl
  | char c => exact oneLine_quoted (by decide) _
  | str s => exact oneLine_quoted (by decide) _
  | null => exact .of_all rfl

theorem BinaryOp.oneLine_symbol (op : BinaryOp) : OneLine op.symbol := by
  cases op <;> exact .of_all rfl

theorem AssignOp.oneLine_symbol (op : AssignOp) : OneLine op.symbol := by
  cases op <;> exact .of_all rfl

theorem UnaryOp.oneLine_symbol (op : UnaryOp) : OneLine op.symbol := by
  cases op <;> exact .of_all rfl

namespace Expr

/-- Arguments in parentheses. -/
theorem oneLine_applied {front : String} {args : List String} (hfront : OneLine front)
    (hargs : ∀ x ∈ args, OneLine x) : OneLine (front ++ "(" ++ commas args ++ ")") :=
  ((hfront.append (.of_all rfl)).append (.commas hargs)).append (.of_all rfl)

/-- A symbol with blanks around it, between operands. -/
theorem oneLine_joined {left symbol right : String} (hleft : OneLine left) (hsymbol : OneLine symbol)
    (hright : OneLine right) : OneLine (left ++ " " ++ symbol ++ " " ++ right) :=
  (((hleft.append (.of_all rfl)).append hsymbol).append (.of_all rfl)).append hright

mutual

theorem oneLine_sourceAt : ∀ {e : Expr}, e.outline.Unbroken → ∀ least, OneLine (e.sourceAt least)
  | .literal l, h, least => .parenthesize (Literal.oneLine_source ((Outline.unbroken_node _ _).mp h).2)
  | .ident n, h, least =>
    .parenthesize (((Outline.unbroken_node _ _).mp h).2 n List.mem_cons_self)
  | .this, _, least => .parenthesize (.of_all rfl)
  | .field receiver name, h, least => by
    simp only [outline, Outline.unbroken_node, Outline.allUnbroken_cons] at h
    obtain ⟨⟨⟨⟨hreceiver, -⟩, hname⟩, -⟩, -⟩ := h
    exact .parenthesize (((oneLine_sourceAt hreceiver _).append (.of_all rfl)).append
      (hname name List.mem_cons_self))
  | .call receiver name args, h, least => by
    simp only [outline, Outline.unbroken_node, Outline.allUnbroken_cons,
      Outline.allUnbroken_append] at h
    obtain ⟨⟨⟨⟨hreceiver, hargs⟩, hname⟩, -⟩, -⟩ := h
    exact .parenthesize (oneLine_applied
      ((oneLine_receiverSource hreceiver).append (hname name List.mem_cons_self))
      (oneLine_sources hargs))
  | .create ty args, h, least => by
    simp only [outline, Outline.unbroken_node, Outline.allUnbroken_cons] at h
    obtain ⟨⟨hty, hargs⟩, -⟩ := h
    exact .parenthesize (oneLine_applied (OneLine.append (.of_all rfl) (TypeRef.oneLine_source hty))
      (oneLine_sources hargs))
  | .assign target op value, h, least => by
    simp only [outline, Outline.unbroken_node, Outline.allUnbroken_cons] at h
    obtain ⟨⟨htarget, hvalue, -⟩, -⟩ := h
    exact .parenthesize (oneLine_joined (oneLine_sourceAt htarget _) op.oneLine_symbol
      (oneLine_sourceAt hvalue _))
  | .binary op lhs rhs, h, least => by
    simp only [outline, Outline.unbroken_node, Outline.allUnbroken_cons] at h
    obtain ⟨⟨hlhs, hrhs, -⟩, -⟩ := h
    exact .parenthesize (oneLine_joined (oneLine_sourceAt hlhs _) op.oneLine_symbol
      (oneLine_sourceAt hrhs _))
  | .unary op operand, h, least => by
    simp only [outline, Outline.unbroken_node, Outline.allUnbroken_cons] at h
    obtain ⟨⟨hoperand, -⟩, -⟩ := h
    exact .parenthesize (.ite _ ((oneLine_sourceAt hoperand _).append op.oneLine_symbol)
      (op.oneLine_symbol.append (oneLine_sourceAt hoperand _)))
  | .cast ty operand, h, least => by
    simp only [outline, Outline.unbroken_node, Outline.allUnbroken_cons] at h
    obtain ⟨⟨hty, hoperand, -⟩, -⟩ := h
    exact .parenthesize (((OneLine.append (.of_all rfl) (TypeRef.oneLine_source hty)).append
      (.of_all rfl)).append (oneLine_sourceAt hoperand _))

theorem oneLine_receiverSource : ∀ {receiver : Option Expr},
    Outline.AllUnbroken (optionOutline receiver) → OneLine (receiverSource receiver)
  | none, _ => .of_all rfl
  | some _, h => (oneLine_sourceAt ((Outline.allUnbroken_cons _ _).mp h).1 _).append (.of_all rfl)

theorem oneLine_sources : ∀ {es : List Expr}, Outline.AllUnbroken (outlines es) →
    ∀ x ∈ sources es, OneLine x
  | [], _ => fun _ hx => absurd hx List.not_mem_nil
  | e :: rest, h => by
    obtain ⟨he, hrest⟩ := (Outline.allUnbroken_cons _ _).mp h
    exact List.forall_mem_cons.mpr ⟨oneLine_sourceAt he _, oneLine_sources hrest⟩

end

theorem oneLine_source {e : Expr} (h : e.outline.Unbroken) : OneLine e.source :=
  oneLine_sourceAt h _

theorem oneLine_optionSource {value : Option Expr} (h : Outline.AllUnbroken (optionOutline value))
    {front : String} (hfront : OneLine front) : OneLine (value.elim "" (front ++ ·.source)) := by
  cases value with
  | none => exact .of_all rfl
  | some e => exact hfront.append (oneLine_source ((Outline.allUnbroken_cons _ _).mp h).1)

theorem oneLine_map_source {es : List Expr} (h : Outline.AllUnbroken (outlines es)) :
    ∀ x ∈ es.map source, OneLine x := by
  induction es with
  | nil => exact fun _ hx => absurd hx List.not_mem_nil
  | cons e rest ih =>
    obtain ⟨he, hrest⟩ := (Outline.allUnbroken_cons _ _).mp h
    exact List.forall_mem_cons.mpr ⟨oneLine_source he, ih hrest⟩

end Expr

theorem TypeRef.oneLine_map_source {ts : List TypeRef} (h : Outline.AllUnbroken (outlines ts)) :
    ∀ x ∈ ts.map source, OneLine x := by
  induction ts with
  | nil => exact fun _ hx => absurd hx List.not_mem_nil
  | cons t rest ih =>
    obtain ⟨ht, hrest⟩ := (Outline.allUnbroken_cons _ _).mp h
    exact List.forall_mem_cons.mpr ⟨oneLine_source ht, ih hrest⟩

theorem Declarator.oneLine_sources {ds : List Declarator}
    (hnames : ∀ x ∈ ds.map Declarator.name, OneLine x)
    (hinits : Outline.AllUnbroken (Declarator.outlines ds)) :
    OneLine (commas (ds.map Declarator.source)) := by
  refine .commas ?_
  induction ds with
  | nil => exact fun _ hx => absurd hx List.not_mem_nil
  | cons d rest ih =>
    obtain ⟨hname, hrest⟩ := List.forall_mem_cons.mp hnames
    obtain ⟨hinit, hmore⟩ := (Outline.allUnbroken_append _ _).mp hinits
    exact List.forall_mem_cons.mpr
      ⟨hname.append (Expr.oneLine_optionSource hinit (.of_all rfl)), ih hrest hmore⟩

theorem LocalVars.oneLine_source {v : LocalVars} (h : v.outline.Unbroken) : OneLine v.source := by
  obtain ⟨hchildren, hnames⟩ := (Outline.unbroken_node _ _).mp h
  obtain ⟨hty, hinits⟩ := (Outline.allUnbroken_cons _ _).mp hchildren
  exact ((TypeRef.oneLine_source hty).append (.of_all rfl)).append
    (Declarator.oneLine_sources hnames hinits)

namespace Stmt

theorem oneLine_headerSource {s : Stmt} (h : s.outline.Unbroken) : OneLine s.headerSource := by
  cases s with
  | expr e => exact Expr.oneLine_source (Outline.Unbroken.only h)
  | vars v => exact LocalVars.oneLine_source (Outline.Unbroken.only h)
  | _ => exact .of_all rfl

theorem oneLine_init {init : List Stmt} (h : Outline.AllUnbroken (outlines init)) :
    OneLine (commas (init.map headerSource)) := by
  refine .commas ?_
  induction init with
  | nil => exact fun _ hx => absurd hx List.not_mem_nil
  | cons s rest ih =>
    obtain ⟨hs, hrest⟩ := (Outline.allUnbroken_cons _ _).mp h
    exact List.forall_mem_cons.mpr ⟨oneLine_headerSource hs, ih hrest⟩

end Stmt

theorem Modifiers.oneLine_source (m : Modifiers) : OneLine m.source := by
  have hvisibility : OneLine (m.visibility.keyword?.elim "" (· ++ " ")) := by
    cases m.visibility <;> exact .of_all rfl
  exact ((hvisibility.append (.ite _ (.of_all rfl) (.of_all rfl))).append
    (.ite _ (.of_all rfl) (.of_all rfl))).append (.ite _ (.of_all rfl) (.of_all rfl))

theorem oneLine_paramsSource {params : List Param}
    (h : Outline.AllUnbroken (params.map Param.outline)) : OneLine (paramsSource params) := by
  have hparams : ∀ x ∈ params.map Param.source, OneLine x := by
    intro x hx
    obtain ⟨p, hp, rfl⟩ := List.mem_map.mp hx
    have hparam := Outline.allUnbroken_iff.mp h p.outline (List.mem_map_of_mem hp)
    obtain ⟨hty, hname⟩ := (Outline.unbroken_node _ _).mp hparam
    exact ((TypeRef.oneLine_source ((Outline.allUnbroken_cons _ _).mp hty).1).append
      (.of_all rfl)).append (hname _ List.mem_cons_self)
  exact (OneLine.append (.of_all rfl) (.commas hparams)).append (.of_all rfl)

theorem TypeDecl.oneLine_header (kind : TypeKind) (modifiers : Modifiers) {name : String}
    {superclass : Option TypeRef} {interfaces : List TypeRef} (hname : OneLine name)
    (hsuperclass : Outline.AllUnbroken (superclass.toList.map TypeRef.outline))
    (hinterfaces : Outline.AllUnbroken (TypeRef.outlines interfaces)) :
    OneLine (header kind modifiers name superclass interfaces) := by
  have hkeyword : OneLine kind.keyword := by cases kind <;> exact .of_all rfl
  have hextends : OneLine (superclass.elim "" (" extends " ++ ·.source)) := by
    refine .elim _ fun t ht => OneLine.append (.of_all rfl) (TypeRef.oneLine_source ?_)
    cases ht
    exact ((Outline.allUnbroken_cons _ _).mp hsuperclass).1
  have himplements : OneLine (if interfaces.isEmpty then ""
      else " implements " ++ commas (interfaces.map TypeRef.source)) :=
    .ite _ (.of_all rfl) (OneLine.append (.of_all rfl)
      (.commas (TypeRef.oneLine_map_source hinterfaces)))
  exact ((((modifiers.oneLine_source.append hkeyword).append hname).append hextends).append
    himplements).append (.of_all rfl)

end VersionWeave
