import VersionWeave.Proofs.Json.Recovers
import VersionWeave.Tree.OfJson

namespace VersionWeave

open Json (Recovers)

theorem Json.recovers_str (s : String) : Recovers (fun _ => Json.str?) (.str s) s :=
  ⟨trivial, fun _ => rfl⟩

theorem Json.recovers_int64 (i : Int64) : Recovers (fun _ => Json.int64?) (.int i.toInt) i := by
  have hlow := i.le_toInt
  have hhigh := i.toInt_lt
  refine ⟨trivial, fun _ => ?_⟩
  rw [int64?, if_pos (by omega), Int64.ofInt_toInt]

theorem Json.uint32?_toNat (n : UInt32) : (Json.int n.toNat).uint32? = some n := by
  have hhigh := n.toNat_lt
  rw [uint32?, if_pos (by omega), Int.toNat_natCast, UInt32.ofNat_toNat]

theorem Visibility.recovers (v : Visibility) : Recovers ofJson? v.toJson v where
  plain := trivial
  read_eq _ := by cases v <;> rfl

theorem BinaryOp.recovers (op : BinaryOp) : Recovers ofJson? op.toJson op where
  plain := trivial
  read_eq _ := by cases op <;> rfl

theorem UnaryOp.recovers (op : UnaryOp) : Recovers ofJson? op.toJson op where
  plain := trivial
  read_eq _ := by cases op <;> rfl

theorem AssignOp.recovers (op : AssignOp) : Recovers ofJson? op.toJson op where
  plain := trivial
  read_eq _ := by cases op <;> rfl

theorem TypeKind.recovers (k : TypeKind) : Recovers ofJson? k.toJson k where
  plain := trivial
  read_eq _ := by cases k <;> rfl

theorem Modifiers.recovers (m : Modifiers) : Recovers ofJson? m.toJson m := by
  refine .record (by simp [m.visibility.recovers.plain]) fun d h => ?_
  simp only [List.forall_mem_cons] at h
  rw [ofJson?, Json.fields?_record _ (by simp)]
  simp [Fields.orElse, List.lookup_cons, m.visibility.recovers.read_eq h.1, Json.bool?]

namespace TypeRef

theorem recovers_list {ts : List TypeRef} (h : ∀ t ∈ ts, Recovers ofJson? t.toJson t) :
    Recovers listOfJson? (.arr (listToJson ts)) ts :=
  .items rfl (fun _ _ => rfl) (fun _ _ => rfl) h

mutual

theorem recovers : ∀ t : TypeRef, Recovers ofJson? t.toJson t
  | ⟨name, args, dims⟩ => by
    have hargs := recovers_list (recoversAll args)
    rw [toJson]
    -- Arguments and dimensions are members only where there are some: four shapes of one record.
    refine .record ?_ fun d h => ?_
    · by_cases hnone : args = [] <;> by_cases hdims : dims = 0 <;>
        simp [hnone, hdims, hargs.plain]
    · have hread : args ≠ [] → listOfJson? d (.arr (listToJson args)) = some args :=
        fun hne => hargs.read_eq (h ("args", _) (by simp [hne]))
      rw [ofJson?, Json.fields?_record _ (by split <;> split <;> simp)]
      by_cases hnone : args = [] <;> by_cases hdims : dims = 0 <;>
        simp [hnone, hdims, hread, Fields.need, Fields.orElse, List.lookup_cons, Json.str?,
          Json.uint32?_toNat]

theorem recoversAll : ∀ ts : List TypeRef, ∀ t ∈ ts, Recovers ofJson? t.toJson t
  | [] => by simp
  | t :: rest => List.forall_mem_cons.mpr ⟨recovers t, recoversAll rest⟩

end

end TypeRef

theorem Literal.recovers (l : Literal) : Recovers ofJson? l.toJson l := by
  cases l with
  | int i => exact .variant (Json.recovers_int64 i) fun _ => rfl
  | long i => exact .variant (Json.recovers_int64 i) fun _ => rfl
  | float text => exact .variant (Json.recovers_str text) fun _ => rfl
  | double text => exact .variant (Json.recovers_str text) fun _ => rfl
  | bool b => exact .variant (r := fun _ => Json.bool?) ⟨trivial, fun _ => rfl⟩ fun _ => rfl
  | char c =>
    refine .variant (r := fun _ => Json.char?) ⟨trivial, fun _ => ?_⟩ fun _ => rfl
    simp [Json.char?]
  | str s => exact .variant (Json.recovers_str s) fun _ => rfl
  | null => exact ⟨trivial, fun _ => rfl⟩

namespace Expr

theorem optionToJson_eq (o : Option Expr) : optionToJson o = Json.ofOption toJson o := by
  cases o <;> rfl

theorem toJson_ne_null (e : Expr) : e.toJson ≠ .null := by
  cases e <;> simp [toJson, Json.tagged, Json.record]

theorem recovers_list {es : List Expr} (h : ∀ e ∈ es, Recovers ofJson? e.toJson e) :
    Recovers listOfJson? (.arr (listToJson es)) es :=
  .items rfl (fun _ _ => rfl) (fun _ _ => rfl) h

theorem recovers_option {o : Option Expr} (h : ∀ e ∈ o, Recovers ofJson? e.toJson e) :
    Recovers (fun d => Json.nullable (ofJson? d)) (optionToJson o) o := by
  rw [optionToJson_eq]
  exact .option fun e he => ⟨h e he, e.toJson_ne_null⟩

section

variable {receiver target value lhs rhs operand : Expr} {args : List Expr} {o : Option Expr}

theorem recovers_field (hreceiver : Recovers ofJson? receiver.toJson receiver) (name : String) :
    Recovers ofJson? (toJson (.field receiver name)) (.field receiver name) := by
  rw [toJson]
  refine .variant (r := fieldOfJson?) (f := id) (.record (by simp [hreceiver.plain]) fun d h => ?_) fun d => by
    simp [Json.tagged, Json.record, ofJson?]
  simp only [List.forall_mem_cons] at h
  rw [fieldOfJson?, Json.fields?_record _ (by simp)]
  simp [Fields.need, List.lookup_cons, hreceiver.read_eq h.1, Json.str?]

theorem recovers_call (ho : ∀ e ∈ o, Recovers ofJson? e.toJson e) (name : String)
    (hargs : ∀ e ∈ args, Recovers ofJson? e.toJson e) :
    Recovers ofJson? (toJson (.call o name args)) (.call o name args) := by
  have ho := recovers_option ho
  have hargs := recovers_list hargs
  rw [toJson]
  refine .variant (r := callOfJson?) (f := id) (.record (by simp [ho.plain, hargs.plain]) fun d h => ?_)
    fun d => by simp [Json.tagged, Json.record, ofJson?]
  simp only [List.forall_mem_cons] at h
  rw [callOfJson?, Json.fields?_record _ (by simp)]
  simp [Fields.need, Fields.orElse, Fields.option, List.lookup_cons, ho.read_eq h.1, Json.str?,
    hargs.read_eq h.2.2.1]

theorem recovers_create (ty : TypeRef) (hargs : ∀ e ∈ args, Recovers ofJson? e.toJson e) :
    Recovers ofJson? (toJson (.create ty args)) (.create ty args) := by
  have hargs := recovers_list hargs
  rw [toJson]
  refine .variant (r := createOfJson?) (f := id) (.record (by simp [ty.recovers.plain, hargs.plain])
    fun d h => ?_) fun d => by simp [Json.tagged, Json.record, ofJson?]
  simp only [List.forall_mem_cons] at h
  rw [createOfJson?, Json.fields?_record _ (by simp)]
  simp [Fields.need, Fields.orElse, List.lookup_cons, ty.recovers.read_eq h.1, hargs.read_eq h.2.1]

theorem recovers_assign (htarget : Recovers ofJson? target.toJson target) (op : AssignOp)
    (hvalue : Recovers ofJson? value.toJson value) :
    Recovers ofJson? (toJson (.assign target op value)) (.assign target op value) := by
  rw [toJson]
  refine .variant (r := assignOfJson?) (f := id) (.record
    (by simp [htarget.plain, op.recovers.plain, hvalue.plain]) fun d h => ?_) fun d => by
      simp [Json.tagged, Json.record, ofJson?]
  simp only [List.forall_mem_cons] at h
  rw [assignOfJson?, Json.fields?_record _ (by simp)]
  simp [Fields.need, Fields.orElse, List.lookup_cons, htarget.read_eq h.1, op.recovers.read_eq h.2.1,
    hvalue.read_eq h.2.2.1]

theorem recovers_binary (op : BinaryOp) (hlhs : Recovers ofJson? lhs.toJson lhs)
    (hrhs : Recovers ofJson? rhs.toJson rhs) :
    Recovers ofJson? (toJson (.binary op lhs rhs)) (.binary op lhs rhs) := by
  rw [toJson]
  refine .variant (r := binaryOfJson?) (f := id) (.record
    (by simp [op.recovers.plain, hlhs.plain, hrhs.plain]) fun d h => ?_) fun d => by
      simp [Json.tagged, Json.record, ofJson?]
  simp only [List.forall_mem_cons] at h
  rw [binaryOfJson?, Json.fields?_record _ (by simp)]
  simp [Fields.need, List.lookup_cons, op.recovers.read_eq h.1, hlhs.read_eq h.2.1, hrhs.read_eq h.2.2.1]

theorem recovers_unary (op : UnaryOp) (hoperand : Recovers ofJson? operand.toJson operand) :
    Recovers ofJson? (toJson (.unary op operand)) (.unary op operand) := by
  rw [toJson]
  refine .variant (r := unaryOfJson?) (f := id) (.record (by simp [op.recovers.plain, hoperand.plain])
    fun d h => ?_) fun d => by simp [Json.tagged, Json.record, ofJson?]
  simp only [List.forall_mem_cons] at h
  rw [unaryOfJson?, Json.fields?_record _ (by simp)]
  simp [Fields.need, List.lookup_cons, op.recovers.read_eq h.1, hoperand.read_eq h.2.1]

theorem recovers_cast (ty : TypeRef) (hoperand : Recovers ofJson? operand.toJson operand) :
    Recovers ofJson? (toJson (.cast ty operand)) (.cast ty operand) := by
  rw [toJson]
  refine .variant (r := castOfJson?) (f := id) (.record (by simp [ty.recovers.plain, hoperand.plain])
    fun d h => ?_) fun d => by simp [Json.tagged, Json.record, ofJson?]
  simp only [List.forall_mem_cons] at h
  rw [castOfJson?, Json.fields?_record _ (by simp)]
  simp [Fields.need, List.lookup_cons, ty.recovers.read_eq h.1, hoperand.read_eq h.2.1]

end

mutual

theorem recovers : ∀ e : Expr, Recovers ofJson? e.toJson e
  | .literal l => .variant l.recovers fun d => by simp [Json.tagged, Json.record, ofJson?]
  | .ident n => .variant (Json.recovers_str n) fun d => by simp [Json.tagged, Json.record, ofJson?]
  | .this => ⟨trivial, fun _ => by simp [toJson, ofJson?]⟩
  | .field receiver name => recovers_field (recovers receiver) name
  | .call receiver name args => recovers_call (recoversOption receiver) name (recoversAll args)
  | .create ty args => recovers_create ty (recoversAll args)
  | .assign target op value => recovers_assign (recovers target) op (recovers value)
  | .binary op lhs rhs => recovers_binary op (recovers lhs) (recovers rhs)
  | .unary op operand => recovers_unary op (recovers operand)
  | .cast ty operand => recovers_cast ty (recovers operand)

theorem recoversOption : ∀ o : Option Expr, ∀ e ∈ o, Recovers ofJson? e.toJson e
  | none => by simp
  | some e => by simpa using recovers e

theorem recoversAll : ∀ es : List Expr, ∀ e ∈ es, Recovers ofJson? e.toJson e
  | [] => by simp
  | e :: rest => List.forall_mem_cons.mpr ⟨recovers e, recoversAll rest⟩

end

end Expr

theorem Declarator.recovers (v : Declarator) : Recovers ofJson? v.toJson v := by
  have hinit := Expr.recovers_option (Expr.recoversOption v.init)
  refine .record (by simp [hinit.plain]) fun d h => ?_
  simp only [List.forall_mem_cons] at h
  rw [ofJson?, Json.fields?_record _ (by simp)]
  simp [Fields.need, Fields.orElse, Fields.option, List.lookup_cons, Json.str?, hinit.read_eq h.2.1]

theorem LocalVars.recovers (v : LocalVars) : Recovers ofJson? v.toJson v := by
  have hvars := Recovers.list fun x (_ : x ∈ v.declarators) => x.recovers
  refine .record (by simp [v.ty.recovers.plain, Json.ofList, hvars.plain]) fun d h => ?_
  simp only [List.forall_mem_cons] at h
  rw [ofJson?, Json.fields?_record _ (by simp)]
  simp [Fields.need, List.lookup_cons, v.ty.recovers.read_eq h.1, Json.ofList, hvars.read_eq h.2.1]

namespace Stmt

theorem optionToJson_eq (o : Option Stmt) : optionToJson o = Json.ofOption toJson o := by
  cases o <;> rfl

theorem toJson_ne_null (s : Stmt) : s.toJson ≠ .null := by
  cases s <;> simp [toJson, Json.tagged, Json.record]

theorem recovers_list {ss : List Stmt} (h : ∀ s ∈ ss, Recovers ofJson? s.toJson s) :
    Recovers listOfJson? (.arr (listToJson ss)) ss :=
  .items rfl (fun _ _ => rfl) (fun _ _ => rfl) h

section

variable {cond : Expr} {thenBranch body : Stmt} {elseBranch : Option Stmt} {stmts init : List Stmt}
  {cases : List SwitchCase}

theorem recovers_body (h : ∀ s ∈ stmts, Recovers ofJson? s.toJson s) :
    Recovers blockOfJson? (.record [("stmts", .arr (listToJson stmts))]) stmts := by
  have hstmts := recovers_list h
  refine .record (by simp [hstmts.plain]) fun d h => ?_
  simp only [List.forall_mem_cons] at h
  rw [blockOfJson?, Json.fields?_record _ (by simp)]
  simp [Fields.need, hstmts.read_eq h.1]

theorem recovers_ifElse (cond : Expr) (hthen : Recovers ofJson? thenBranch.toJson thenBranch)
    (helse : ∀ s ∈ elseBranch, Recovers ofJson? s.toJson s) :
    Recovers ofJson? (toJson (.ifElse cond thenBranch elseBranch))
      (.ifElse cond thenBranch elseBranch) := by
  have helse : Recovers (fun d => Json.nullable (ofJson? d)) (optionToJson elseBranch) elseBranch := by
    rw [optionToJson_eq]
    exact .option fun s hs => ⟨helse s hs, s.toJson_ne_null⟩
  rw [toJson]
  refine .variant (r := ifOfJson?) (f := id) (.record
    (by simp [cond.recovers.plain, hthen.plain, helse.plain]) fun d h => ?_) fun d => by
      simp [Json.tagged, Json.record, ofJson?]
  simp only [List.forall_mem_cons] at h
  rw [ifOfJson?, Json.fields?_record _ (by simp)]
  simp [Fields.need, Fields.orElse, Fields.option, List.lookup_cons, cond.recovers.read_eq h.1,
    hthen.read_eq h.2.1, helse.read_eq h.2.2.1]

theorem recovers_whileLoop (cond : Expr) (hbody : Recovers ofJson? body.toJson body) :
    Recovers ofJson? (toJson (.whileLoop cond body)) (.whileLoop cond body) := by
  rw [toJson]
  refine .variant (r := whileOfJson?) (f := id) (.record (by simp [cond.recovers.plain, hbody.plain])
    fun d h => ?_) fun d => by simp [Json.tagged, Json.record, ofJson?]
  simp only [List.forall_mem_cons] at h
  rw [whileOfJson?, Json.fields?_record _ (by simp)]
  simp [Fields.need, List.lookup_cons, cond.recovers.read_eq h.1, hbody.read_eq h.2.1]

theorem recovers_forLoop (hinit : ∀ s ∈ init, Recovers ofJson? s.toJson s) (cond : Option Expr)
    (update : List Expr) (hbody : Recovers ofJson? body.toJson body) :
    Recovers ofJson? (toJson (.forLoop init cond update body)) (.forLoop init cond update body) := by
  have hinit := recovers_list hinit
  have hcond := Expr.recovers_option (Expr.recoversOption cond)
  have hupdate := Expr.recovers_list (Expr.recoversAll update)
  rw [toJson]
  refine .variant (r := forOfJson?) (f := id) (.record
    (by simp [hinit.plain, hcond.plain, hupdate.plain, hbody.plain]) fun d h => ?_) fun d => by
      simp [Json.tagged, Json.record, ofJson?]
  simp only [List.forall_mem_cons] at h
  rw [forOfJson?, Json.fields?_record _ (by simp)]
  simp [Fields.need, Fields.orElse, Fields.option, List.lookup_cons, hinit.read_eq h.1,
    hcond.read_eq h.2.1, hupdate.read_eq h.2.2.1, hbody.read_eq h.2.2.2.1]

theorem recovers_switch (selector : Expr)
    (hcases : ∀ c ∈ cases, Recovers SwitchCase.ofJson? c.toJson c) :
    Recovers ofJson? (toJson (.switch selector cases)) (.switch selector cases) := by
  have hcases : Recovers SwitchCase.listOfJson? (.arr (SwitchCase.listToJson cases)) cases :=
    .items rfl (fun _ _ => rfl) (fun _ _ => rfl) hcases
  rw [toJson]
  refine .variant (r := switchOfJson?) (f := id) (.record (by simp [selector.recovers.plain, hcases.plain])
    fun d h => ?_) fun d => by simp [Json.tagged, Json.record, ofJson?]
  simp only [List.forall_mem_cons] at h
  rw [switchOfJson?, Json.fields?_record _ (by simp)]
  simp [Fields.need, List.lookup_cons, selector.recovers.read_eq h.1, hcases.read_eq h.2.1]

end

end Stmt

mutual

theorem Stmt.recovers : ∀ s : Stmt, Recovers Stmt.ofJson? s.toJson s
  | .expr e => .variant e.recovers fun d => by simp [Json.tagged, Json.record, Stmt.ofJson?]
  | .vars v => .variant v.recovers fun d => by simp [Json.tagged, Json.record, Stmt.ofJson?]
  | .block stmts => .variant (Stmt.recovers_body (Stmt.recoversAll stmts)) fun d => by
    simp [Json.tagged, Json.record, Stmt.ofJson?]
  | .ifElse cond thenBranch elseBranch =>
    Stmt.recovers_ifElse cond (Stmt.recovers thenBranch) (Stmt.recoversOption elseBranch)
  | .whileLoop cond body => Stmt.recovers_whileLoop cond (Stmt.recovers body)
  | .forLoop init cond update body =>
    Stmt.recovers_forLoop (Stmt.recoversAll init) cond update (Stmt.recovers body)
  | .ret value => .variant (Expr.recovers_option (Expr.recoversOption value)) fun d => by
    simp [Json.tagged, Json.record, Stmt.ofJson?]
  | .switch selector cases => Stmt.recovers_switch selector (SwitchCase.recoversAll cases)
  | .breakOut => ⟨trivial, fun _ => by simp [Stmt.toJson, Stmt.ofJson?, Stmt.ofTag?]⟩
  | .continueOn => ⟨trivial, fun _ => by simp [Stmt.toJson, Stmt.ofJson?, Stmt.ofTag?]⟩
  | .throw e => .variant e.recovers fun d => by simp [Json.tagged, Json.record, Stmt.ofJson?]
  | .empty => ⟨trivial, fun _ => by simp [Stmt.toJson, Stmt.ofJson?, Stmt.ofTag?]⟩

theorem Stmt.recoversOption : ∀ o : Option Stmt, ∀ s ∈ o, Recovers Stmt.ofJson? s.toJson s
  | none => by simp
  | some s => by simpa using Stmt.recovers s

theorem Stmt.recoversAll : ∀ ss : List Stmt, ∀ s ∈ ss, Recovers Stmt.ofJson? s.toJson s
  | [] => by simp
  | s :: rest => List.forall_mem_cons.mpr ⟨Stmt.recovers s, Stmt.recoversAll rest⟩

theorem SwitchCase.recovers : ∀ c : SwitchCase, Recovers SwitchCase.ofJson? c.toJson c
  | ⟨labels, body⟩ => by
    have hlabels := Expr.recovers_list (Expr.recoversAll labels)
    have hbody := Stmt.recovers_list (Stmt.recoversAll body)
    rw [SwitchCase.toJson]
    refine .record (by simp [hlabels.plain, hbody.plain]) fun d h => ?_
    simp only [List.forall_mem_cons] at h
    rw [SwitchCase.ofJson?, Json.fields?_record _ (by simp)]
    simp [Fields.orElse, List.lookup_cons, hlabels.read_eq h.1, hbody.read_eq h.2.1]

theorem SwitchCase.recoversAll : ∀ cs : List SwitchCase, ∀ c ∈ cs,
    Recovers SwitchCase.ofJson? c.toJson c
  | [] => by simp
  | c :: rest => List.forall_mem_cons.mpr ⟨SwitchCase.recovers c, SwitchCase.recoversAll rest⟩

end

theorem Block.recovers (b : Block) : Recovers Block.ofJson? (Block.toJson b) b :=
  Stmt.recovers_body (Stmt.recoversAll b)

theorem FieldDecl.recovers (f : FieldDecl) : Recovers ofJson? f.toJson f := by
  have hvars := Recovers.list fun x (_ : x ∈ f.declarators) => x.recovers
  refine .record (by simp [f.modifiers.recovers.plain, f.ty.recovers.plain, Json.ofList, hvars.plain])
    fun d h => ?_
  simp only [List.forall_mem_cons] at h
  rw [ofJson?, Json.fields?_record _ (by simp)]
  simp [Fields.need, Fields.orElse, List.lookup_cons, f.modifiers.recovers.read_eq h.1,
    f.ty.recovers.read_eq h.2.1, Json.ofList, hvars.read_eq h.2.2.1]

theorem Param.recovers (p : Param) : Recovers ofJson? p.toJson p := by
  refine .record (by simp [p.ty.recovers.plain]) fun d h => ?_
  simp only [List.forall_mem_cons] at h
  rw [ofJson?, Json.fields?_record _ (by simp)]
  simp [Fields.need, List.lookup_cons, p.ty.recovers.read_eq h.1, Json.str?]

theorem MethodDecl.recovers (m : MethodDecl) : Recovers ofJson? m.toJson m := by
  have hparams := Recovers.list fun x (_ : x ∈ m.params) => x.recovers
  have hbody := Recovers.option fun b (_ : b ∈ m.body) =>
    ⟨Block.recovers b, by simp [Block.toJson, Json.record]⟩
  refine .record (by simp [m.modifiers.recovers.plain, m.returnType.recovers.plain, Json.ofList,
    hparams.plain, hbody.plain]) fun d h => ?_
  simp only [List.forall_mem_cons] at h
  rw [ofJson?, Json.fields?_record _ (by simp)]
  simp [Fields.need, Fields.orElse, Fields.option, List.lookup_cons, m.modifiers.recovers.read_eq h.1,
    m.returnType.recovers.read_eq h.2.1, Json.str?, Json.ofList, hparams.read_eq h.2.2.2.1,
    hbody.read_eq h.2.2.2.2.1]

theorem ConstructorDecl.recovers (c : ConstructorDecl) : Recovers ofJson? c.toJson c := by
  have hparams := Recovers.list fun x (_ : x ∈ c.params) => x.recovers
  have hbody := Block.recovers c.body
  refine .record (by simp [c.modifiers.recovers.plain, Json.ofList, hparams.plain, hbody.plain])
    fun d h => ?_
  simp only [List.forall_mem_cons] at h
  rw [ofJson?, Json.fields?_record _ (by simp)]
  simp [Fields.need, Fields.orElse, List.lookup_cons, c.modifiers.recovers.read_eq h.1, Json.str?,
    Json.ofList, hparams.read_eq h.2.2.1, hbody.read_eq h.2.2.2.1]

theorem TypeRef.toJson_ne_null (t : TypeRef) : t.toJson ≠ .null := by
  cases t
  simp [toJson, Json.record]

mutual

theorem Member.recovers : ∀ m : Member, Recovers Member.ofJson? m.toJson m
  | .field f => .variant f.recovers fun d => by simp [Json.tagged, Json.record, Member.ofJson?]
  | .method m => .variant m.recovers fun d => by simp [Json.tagged, Json.record, Member.ofJson?]
  | .constructor c => .variant c.recovers fun d => by simp [Json.tagged, Json.record, Member.ofJson?]
  | .type t => .variant (TypeDecl.recovers t) fun d => by
    simp [Json.tagged, Json.record, Member.ofJson?]

theorem TypeDecl.recovers : ∀ t : TypeDecl, Recovers TypeDecl.ofJson? t.toJson t
  | ⟨kind, modifiers, name, superclass, interfaces, members⟩ => by
    have hsuper := Recovers.option fun t (_ : t ∈ superclass) => ⟨t.recovers, t.toJson_ne_null⟩
    have hinterfaces := TypeRef.recovers_list (TypeRef.recoversAll interfaces)
    have hmembers : Recovers Member.listOfJson? (.arr (Member.listToJson members)) members :=
      .items rfl (fun _ _ => rfl) (fun _ _ => rfl) (Member.recoversAll members)
    rw [TypeDecl.toJson]
    refine .record (by simp [kind.recovers.plain, modifiers.recovers.plain, hsuper.plain,
      hinterfaces.plain, hmembers.plain]) fun d h => ?_
    simp only [List.forall_mem_cons] at h
    rw [TypeDecl.ofJson?, Json.fields?_record _ (by simp)]
    simp [Fields.need, Fields.orElse, Fields.option, List.lookup_cons, kind.recovers.read_eq h.1,
      modifiers.recovers.read_eq h.2.1, Json.str?, hsuper.read_eq h.2.2.2.1,
      hinterfaces.read_eq h.2.2.2.2.1, hmembers.read_eq h.2.2.2.2.2.1]

theorem Member.recoversAll : ∀ ms : List Member, ∀ m ∈ ms, Recovers Member.ofJson? m.toJson m
  | [] => by simp
  | m :: rest => List.forall_mem_cons.mpr ⟨Member.recovers m, Member.recoversAll rest⟩

end

theorem CompilationUnit.recovers (u : CompilationUnit) : Recovers ofJson? u.toJson u := by
  have hpackage := Recovers.option fun s (_ : s ∈ u.package) => ⟨Json.recovers_str s, by simp⟩
  have himports := Recovers.list fun s (_ : s ∈ u.imports) => Json.recovers_str s
  have htypes := Recovers.list fun t (_ : t ∈ u.types) => t.recovers
  refine .record (by simp [hpackage.plain, Json.ofList, himports.plain, htypes.plain]) fun d h => ?_
  simp only [List.forall_mem_cons] at h
  rw [ofJson?, Json.fields?_record _ (by simp)]
  simp [Fields.orElse, Fields.option, List.lookup_cons, hpackage.read_eq h.1, Json.ofList,
    himports.read_eq h.2.1, htypes.read_eq h.2.2.1]

/--
A unit is read back as it was written, from its compact text and from the one laid out over lines,
unless the text opens more brackets inside each other than a reader takes.
-/
theorem CompilationUnit.decode_written (u : CompilationUnit)
    (h : Json.nesting u.toJson.compact ≤ 127) :
    Json.decode? CompilationUnit.ofJson? u.toJson.compact = some u ∧
      Json.decode? CompilationUnit.ofJson? u.toJson.pretty = some u := by
  have hrecovers := u.recovers
  rw [Json.compact, Json.nesting_write Json.Style.blank_compact hrecovers.plain] at h
  have hread := hrecovers.read_eq h
  refine ⟨?_, ?_⟩
  · rw [Json.decode?, Json.compact, Json.parse?_write Json.Style.blank_compact hrecovers.plain]
    exact hread
  · rw [Json.decode?, Json.pretty, Json.parse?_write Json.Style.blank_pretty hrecovers.plain]
    exact hread

/-- Bounds of the numbers, characters to escape, bare variants, and what is left out or `null`. -/
def CompilationUnit.almanac : CompilationUnit where
  package := some "sky.\"\\\t\x01\x1f/é😀[\x7b"
  types := [{
    name := "Almanac__4294967295__"
    superclass := some { name := "Table", args := [.plain "Day", { name := "Sky", dims := 4294967295 }] }
    members := [
      .field
        { ty := .plain "long"
          declarators := [{ name := "first", init := some (.literal (.long (-9223372036854775808))) },
            { name := "last" }] },
      .constructor { modifiers := .pub, name := "Almanac__4294967295__" },
      .type
        { kind := .interfaceType, name := "Phase"
          members := [.method
            { returnType := .void, name := "wax"
              body := some [
                .forLoop [.vars { ty := .plain "char", declarators := [{ name := "c" }] }] none
                  [.unary .postInc (.ident "c")] (.block [.breakOut, .empty]),
                .switch (.cast (.plain "int") .this)
                  [{ labels := [.literal (.char '\x0d'), .literal .null], body := [.ret none] }, {}],
                .ifElse (.binary .ne (.call none "age" []) (.create (.plain "Age") [.literal (.bool true)]))
                  (.throw (.literal (.float "1.5f"))) (some .continueOn)] }] }] }]

theorem CompilationUnit.decode_written_almanac :
    Json.nesting almanac.toJson.compact = 20 ∧
      Json.decode? CompilationUnit.ofJson? almanac.toJson.compact = some almanac ∧
      Json.decode? CompilationUnit.ofJson? almanac.toJson.pretty = some almanac := by
  have hnesting : Json.nesting almanac.toJson.compact = 20 := by
    rw [Json.compact, Json.nesting_write Json.Style.blank_compact almanac.recovers.plain]
    decide +kernel
  exact ⟨hnesting, decode_written almanac (by rw [hnesting]; decide)⟩

end VersionWeave
