import VersionWeave.Proofs.Entries
import VersionWeave.Proofs.Meaning.Eval
import VersionWeave.Proofs.Unified.Nested
import VersionWeave.Unified.Accessor
import VersionWeave.Unified.Constructor
import VersionWeave.Unified.Skeleton

namespace VersionWeave

namespace Exec

variable {α β : Type}

theorem bind_ok {x : Exec α} {f : α → Exec β} {m m' : Memory} {a : α} (h : x m = .ok a m') :
    (x >>= f) m = f a m' := by
  change EStateM.bind x f m = _
  rw [EStateM.bind, h]

theorem bind_error {x : Exec α} {f : α → Exec β} {m m' : Memory} {e : Abort}
    (h : x m = .error e m') : (x >>= f) m = .error e m' := by
  change EStateM.bind x f m = _
  rw [EStateM.bind, h]

end Exec

variable {call : Calls} {env : Env} {m m' : Memory}

theorem Expr.eval_thisField (name : String) :
    (Expr.thisField name).eval call env m = .ok (m.fields env.self name) m := rfl

theorem Expr.eval_ident {name : String} {v : Value} (h : env.locals.get? name = some v) :
    (Expr.ident name).eval call env m = .ok v m := by
  rw [Expr.eval, h]
  rfl

theorem Expr.eval_field {receiver : Expr} {name : String} {id : Nat}
    (h : receiver.eval call env m = .ok (.object id) m') :
    (Expr.field receiver name).eval call env m = .ok (m'.fields id name) m' := by
  rw [Expr.eval, Exec.bind_ok h]
  rfl

theorem Expr.eval_create {ty : TypeRef} {args : List Expr} {values : List Value}
    (h : Expr.evalAll call env args m = .ok values m') :
    (Expr.create ty args).eval call env m =
      .ok (.object m'.objects.length) (m'.allocate ty.name) := by
  rw [Expr.eval, Exec.bind_ok h]
  rfl

theorem Stmt.exec_expr {e : Expr} {v : Value} (h : e.eval call env m = .ok v m') :
    (Stmt.expr e).exec call env m = .ok .next m' := by
  rw [Stmt.exec, Exec.bind_ok h]
  rfl

theorem Expr.eval_set {receiver value : Expr} {name : String} {id : Nat} {v : Value} {m₁ m₂ : Memory}
    (hr : receiver.eval call env m = .ok (.object id) m₁) (hv : value.eval call env m₁ = .ok v m₂) :
    (Expr.set (.field receiver name) value).eval call env m = .ok v (m₂.write id name v) := by
  have hplace : (Expr.field receiver name).evalPlace call env m = .ok (id, name) m₁ := by
    rw [Expr.evalPlace, Exec.bind_ok hr]
    rfl
  rw [Expr.set, Expr.eval, Exec.bind_ok hplace]
  exact Exec.bind_ok hv

theorem Stmt.exec_setThisField {name : String} {value : Expr} {v : Value}
    (h : value.eval call env m = .ok v m') :
    (Stmt.expr (.set (.thisField name) value)).exec call env m =
      .ok .next (m'.write env.self name v) :=
  Stmt.exec_expr (Expr.eval_set rfl h)

theorem Stmt.exec_return {e : Expr} {v : Value} (h : e.eval call env m = .ok v m') :
    (Stmt.ret (some e)).exec call env m = .ok (.returned v) m' := by
  rw [Stmt.exec, Exec.bind_ok h]
  rfl

theorem Stmt.execAll_return {x : Stmt} {rest : List Stmt} {v : Value}
    (h : x.exec call env m = .ok (.returned v) m') :
    Stmt.execAll call env (x :: rest) m = .ok (.returned v) m' := by
  rw [Stmt.execAll, Exec.bind_ok h]
  rfl

theorem Stmt.execAll_cons {x : Stmt} {rest : List Stmt} (h : x.exec call env m = .ok .next m') :
    Stmt.execAll call env (x :: rest) m = Stmt.execAll call env rest m' := by
  rw [Stmt.execAll, Exec.bind_ok h]

theorem Expr.eval_add {lhs rhs : Expr} {a b c : Value} (hl : lhs.eval call env m = .ok a m)
    (hr : rhs.eval call env m = .ok b m) (hc : a.add? b = some c) :
    (Expr.binary .add lhs rhs).eval call env m = .ok c m := by
  rw [Expr.eval, Exec.bind_ok hl, Exec.bind_ok hr, hc]
  rfl

theorem Expr.evalAll_cons {e : Expr} {rest : List Expr} {v : Value} {values : List Value}
    (he : e.eval call env m = .ok v m) (hrest : Expr.evalAll call env rest m = .ok values m) :
    Expr.evalAll call env (e :: rest) m = .ok (v :: values) m := by
  rw [Expr.evalAll, Exec.bind_ok he, Exec.bind_ok hrest]
  rfl

namespace SwitchCase

variable {starts : SwitchCase → Bool} {arm : SwitchCase} {rest : List SwitchCase}

theorem execAll_skip (h : starts arm = false) :
    SwitchCase.execAll call env starts false (arm :: rest) m =
      SwitchCase.execAll call env starts false rest m := by
  obtain ⟨labels, body⟩ := arm
  rw [SwitchCase.execAll, h]
  rfl

theorem execAll_break (h : starts arm = true)
    (hbody : Stmt.execAll call env arm.body m = .ok .broke m') :
    SwitchCase.execAll call env starts false (arm :: rest) m = .ok .broke m' := by
  obtain ⟨labels, body⟩ := arm
  rw [SwitchCase.execAll, h]
  exact Exec.bind_ok hbody

theorem execAll_abort {e : Abort} (h : starts arm = true)
    (hbody : Stmt.execAll call env arm.body m = .error e m') :
    SwitchCase.execAll call env starts false (arm :: rest) m = .error e m' := by
  obtain ⟨labels, body⟩ := arm
  rw [SwitchCase.execAll, h]
  exact Exec.bind_error hbody

end SwitchCase

section Bodies

variable {self : Nat} {v : Value} {e : Abort} {d : MethodDecl} {body : Block} {args : List Value}
  {selector : Expr} {arms : List SwitchCase}

theorem Stmt.exec_switch_break (hv : selector.eval call env m = .ok v m)
    (h : SwitchCase.execAll call env (SwitchCase.startsAt arms v) false arms m = .ok .broke m') :
    (Stmt.switch selector arms).exec call env m = .ok .next m' := by
  rw [Stmt.exec, Exec.bind_ok hv, Exec.bind_ok h]
  rfl

theorem Stmt.exec_switch_abort (hv : selector.eval call env m = .ok v m)
    (h : SwitchCase.execAll call env (SwitchCase.startsAt arms v) false arms m = .error e m') :
    (Stmt.switch selector arms).exec call env m = .error e m' := by
  rw [Stmt.exec, Exec.bind_ok hv, Exec.bind_error h]

theorem Env.enter_eq {params : List Param} (h : params.length = args.length) :
    Env.enter self params args m =
      .ok { self, locals := (params.map Param.name).zip args } m := by
  rw [Env.enter, if_pos h]
  rfl

variable (hbody : d.body = some body) (hlength : d.params.length = args.length)
include hbody hlength

theorem MethodDecl.invoke_next
    (h : Stmt.execAll call { self, locals := (d.params.map Param.name).zip args } body m =
      .ok .next m') : d.invoke call self args m = .ok .null m' := by
  rw [MethodDecl.invoke, Exec.bind_ok (Env.enter_eq hlength), hbody]
  exact Exec.bind_ok h

theorem MethodDecl.invoke_returned
    (h : Stmt.execAll call { self, locals := (d.params.map Param.name).zip args } body m =
      .ok (.returned v) m') : d.invoke call self args m = .ok v m' := by
  rw [MethodDecl.invoke, Exec.bind_ok (Env.enter_eq hlength), hbody]
  exact Exec.bind_ok h

theorem MethodDecl.invoke_abort
    (h : Stmt.execAll call { self, locals := (d.params.map Param.name).zip args } body m =
      .error e m') : d.invoke call self args m = .error e m' := by
  rw [MethodDecl.invoke, Exec.bind_ok (Env.enter_eq hlength), hbody,
    Exec.bind_ok (show Exec.ofOption (some body) m = .ok body m from rfl)]
  exact Exec.bind_error h

end Bodies

/-- An ordinal as the number that a switch call hands over. -/
def ordinalValue (n : UInt32) : Value := .int n.toNat

theorem toInt_ordinal (n : UInt32) : (Int64.ofNat n.toNat).toInt = n.toNat :=
  Int64.toInt_ofNat_of_lt (Nat.lt_trans n.toNat_lt (by decide))

theorem Literal.value?_ordinal (n : UInt32) :
    (Literal.int (Int64.ofNat n.toNat)).value? = some (ordinalValue n) :=
  congrArg (fun i => some (Value.int i)) (toInt_ordinal n)

theorem ordinalValue_inj {n k : UInt32} : ordinalValue n = ordinalValue k ↔ n = k := by
  rw [ordinalValue, ordinalValue, Value.int.injEq, Int.ofNat_inj, UInt32.toNat_inj]

namespace Memory

theorem fields_write (m : Memory) (id : Nat) (name : String) (v : Value) (i : Nat) (n : String) :
    (m.write id name v).fields i n = if i = id ∧ n = name then v else m.fields i n := rfl

/-- The memory after a version has become the active one. -/
def activate (m : Memory) (naming : Naming) (self : Nat) (n : UInt32) : Memory :=
  m.write self naming.activeField (m.fields self (naming.instanceField n))

end Memory

namespace Skeleton

variable (naming : Naming)

theorem matches_arm (n : UInt32) (v : Value) :
    (arm naming n).matches v = decide (ordinalValue n = v) := by
  simp [arm, SwitchCase.matches, Expr.int, Literal.value?_ordinal]

theorem matches_refusal (v : Value) : refusal.matches v = false := rfl

theorem execAll_arm (n : UInt32) :
    Stmt.execAll call env (arm naming n).body m = .ok .broke (m.activate naming env.self n) := by
  rw [arm, Stmt.execAll_cons (Stmt.exec_setThisField (Expr.eval_thisField _))]
  rfl

/-- The arms up to the one that matches are passed over, and that one ends the switch. -/
theorem execAll_arms {starts : SwitchCase → Bool} {n : UInt32} {ns : List UInt32}
    (rest : List SwitchCase) (hstarts : ∀ k, starts (arm naming k) = decide (k = n)) (hn : n ∈ ns) :
    SwitchCase.execAll call env starts false (ns.map (arm naming) ++ rest) m =
      .ok .broke (m.activate naming env.self n) := by
  induction ns with
  | nil => cases hn
  | cons k ks ih =>
    rw [List.map_cons, List.cons_append]
    by_cases hk : k = n
    · rw [hk]
      exact SwitchCase.execAll_break (by simp [hstarts]) (execAll_arm naming n)
    · rw [SwitchCase.execAll_skip (by simp [hstarts, hk])]
      exact ih ((List.mem_cons.mp hn).resolve_left (Ne.symm hk))

/-- Where no arm starts the switch, the default arm throws and writes nothing. -/
theorem execAll_refusal {starts : SwitchCase → Bool} (ns : List UInt32) {v : Value}
    (hversion : env.locals.get? "version" = some v)
    (hstarts : ∀ k ∈ ns, starts (arm naming k) = false) (hrefusal : starts refusal = true) :
    SwitchCase.execAll call env starts false (ns.map (arm naming) ++ [refusal]) m =
      .error (.thrown (.object m.objects.length)) (m.allocate "IllegalArgumentException") := by
  induction ns with
  | nil =>
    have hmessage : Expr.evalAll call env
        [.binary .add (.string "Unknown version: ") (.ident "version")] m =
          .ok [.str ("Unknown version: " ++ v.text)] m :=
      Expr.evalAll_cons (Expr.eval_add rfl (Expr.eval_ident hversion) rfl) rfl
    have hthrow : Stmt.execAll call env refusal.body m =
        .error (.thrown (.object m.objects.length)) (m.allocate "IllegalArgumentException") := by
      refine Exec.bind_error ?_
      rw [Stmt.exec, Exec.bind_ok (Expr.eval_create hmessage)]
      rfl
    exact SwitchCase.execAll_abort hrefusal hthrow
  | cons k ks ih =>
    obtain ⟨hk, hks⟩ := List.forall_mem_cons.mp hstarts
    rw [List.map_cons, List.cons_append, SwitchCase.execAll_skip hk]
    exact ih hks

variable {self : Nat} {ordinals : List UInt32}

/-- The switch operation with an ordinal it knows makes that version the active one. -/
theorem invoke_switchMethod {n : UInt32} (hn : n ∈ ordinals) :
    (switchMethod naming ordinals).invoke call self [ordinalValue n] m =
      .ok .null (m.activate naming self n) := by
  have hany : (ordinals.map (arm naming) ++ [refusal]).any (SwitchCase.matches (ordinalValue n)) =
      true := by
    refine List.any_eq_true.mpr ⟨arm naming n, ?_, by simp [matches_arm]⟩
    exact List.mem_append_left _ (List.mem_map.mpr ⟨n, hn, rfl⟩)
  have hstarts : ∀ k, SwitchCase.startsAt (ordinals.map (arm naming) ++ [refusal]) (ordinalValue n)
      (arm naming k) = decide (k = n) := by
    intro k
    simp only [SwitchCase.startsAt, hany, if_true, matches_arm, ordinalValue_inj]
  refine MethodDecl.invoke_next rfl rfl ?_
  rw [Stmt.execAll_cons (Stmt.exec_switch_break (Expr.eval_ident rfl)
    (execAll_arms naming [refusal] hstarts hn))]
  rfl

/-- With any other number it throws, and no field has changed. -/
theorem invoke_switchMethod_unknown {v : Value} (hv : ∀ n ∈ ordinals, ordinalValue n ≠ v) :
    (switchMethod naming ordinals).invoke call self [v] m =
      .error (.thrown (.object m.objects.length)) (m.allocate "IllegalArgumentException") := by
  have hany : (ordinals.map (arm naming) ++ [refusal]).any (SwitchCase.matches v) = false := by
    rw [List.any_eq_false]
    intro x hx
    rcases List.mem_append.mp hx with hx | hx
    · obtain ⟨n, hn, rfl⟩ := List.mem_map.mp hx
      simp [matches_arm, hv n hn]
    · rw [List.mem_singleton.mp hx, matches_refusal]
      exact Bool.false_ne_true
  have hstarts : ∀ x, SwitchCase.startsAt (ordinals.map (arm naming) ++ [refusal]) v x =
      x.labels.isEmpty := by
    intro x
    simp only [SwitchCase.startsAt, hany, Bool.false_eq_true, if_false]
  refine MethodDecl.invoke_abort rfl rfl (Exec.bind_error (Stmt.exec_switch_abort
    (Expr.eval_ident rfl) (execAll_refusal naming ordinals rfl (fun k _ => ?_) ?_)))
  · rw [hstarts]
    rfl
  · rw [hstarts]
    rfl

end Skeleton

namespace Accessor

variable {naming : Naming} {self : Nat} {n : UInt32} {field : String} {ty : TypeRef} {id : Nat}
  (hcall : ∀ m, call (.object self) naming.switchMethod [ordinalValue n] m =
    .ok .null (m.activate naming self n))
include hcall

theorem exec_switchTo (henv : env.self = self) :
    (switchTo naming n).exec call env m = .ok .next (m.activate naming self n) := by
  have hargs : Expr.evalAll call env [.int (Int64.ofNat n.toNat)] m = .ok [ordinalValue n] m := by
    refine Expr.evalAll_cons ?_ rfl
    rw [Expr.int, Expr.eval, Literal.value?_ordinal]
    rfl
  refine Stmt.exec_expr (v := .null) ?_
  rw [Naming.switchCall, Expr.callOn, Expr.eval,
    Exec.bind_ok (show Expr.evalReceiver call env (some .this) m = .ok (.object self) m by
      rw [← henv]; rfl), Exec.bind_ok hargs]
  exact hcall m

/-- A getter makes its version the active one and gives the field of that version's instance. -/
theorem invoke_getter (hid : (m.activate naming self n).fields self (naming.instanceField n) =
    .object id) : (getter naming field ty n).invoke call self [] m =
      .ok ((m.activate naming self n).fields id field) (m.activate naming self n) := by
  refine MethodDecl.invoke_returned rfl rfl ?_
  rw [Stmt.execAll_cons (exec_switchTo hcall rfl)]
  refine Stmt.execAll_return (Stmt.exec_return (Expr.eval_field ?_))
  rw [Expr.eval_thisField, hid]

/-- A setter makes its version the active one and writes the field of that version's instance. -/
theorem invoke_setter (hid : (m.activate naming self n).fields self (naming.instanceField n) =
    .object id) (v : Value) : (setter naming field ty n).invoke call self [v] m =
      .ok .null ((m.activate naming self n).write id field v) := by
  refine MethodDecl.invoke_next rfl rfl ?_
  have hset : ∀ env : Env, env.self = self → env.locals.get? "value" = some v →
      (Expr.set (place naming field n) (.ident "value")).eval call env (m.activate naming self n) =
        .ok v ((m.activate naming self n).write id field v) := by
    intro env hself hvalue
    refine Expr.eval_set ?_ (Expr.eval_ident hvalue)
    rw [Expr.eval_thisField, hself, hid]
  rw [Stmt.execAll_cons (exec_switchTo hcall rfl), Stmt.execAll_cons (Stmt.exec_expr (hset _ rfl rfl))]
  rfl

end Accessor

namespace Memory

variable (naming : Naming) (self : Nat)

/-- The memory after the instance of a version has been made. -/
def instantiate (m : Memory) (n : UInt32) : Memory :=
  (m.allocate (naming.implType n)).write self (naming.instanceField n) (.object m.objects.length)

def instantiateAll (ns : List UInt32) (m : Memory) : Memory :=
  ns.foldl (instantiate naming self) m

theorem objects_instantiateAll (ns : List UInt32) : ∀ m : Memory,
    (m.instantiateAll naming self ns).objects = m.objects ++ ns.map naming.implType := by
  induction ns with
  | nil => simp [instantiateAll]
  | cons n rest ih =>
    intro m
    refine (ih (m.instantiate naming self n)).trans ?_
    simp [instantiate, write, allocate]

/-- Only the fields of the new instances are written. -/
theorem fields_instantiateAll_of_ne {ns : List UInt32} {name : String}
    (h : ∀ n ∈ ns, name ≠ naming.instanceField n) (i : Nat) : ∀ m : Memory,
      (m.instantiateAll naming self ns).fields i name = m.fields i name := by
  induction ns with
  | nil => exact fun _ => rfl
  | cons n rest ih =>
    intro m
    obtain ⟨hn, hrest⟩ := List.forall_mem_cons.mp h
    refine (ih hrest (m.instantiate naming self n)).trans ?_
    rw [instantiate, fields_write, if_neg fun h => hn h.2]
    rfl

/-- The instances are the new objects, in the order of their versions. -/
theorem fields_instantiateAll {ns : List UInt32} (hnodup : ns.Nodup) : ∀ (m : Memory), ∀ n ∈ ns,
    (m.instantiateAll naming self ns).fields self (naming.instanceField n) =
      .object (m.objects.length + ns.idxOf n) := by
  induction ns with
  | nil => simp
  | cons k rest ih =>
    intro m
    obtain ⟨hk, hrest⟩ := List.nodup_cons.mp hnodup
    change ∀ n ∈ k :: rest, ((m.instantiate naming self k).instantiateAll naming self rest).fields
      self (naming.instanceField n) = _
    refine List.forall_mem_cons.mpr ⟨?_, fun n hn => ?_⟩
    · have hnew : ∀ n ∈ rest, naming.instanceField k ≠ naming.instanceField n := fun n hn h =>
        hk (Naming.instanceField_inj.mp h ▸ hn)
      rw [fields_instantiateAll_of_ne naming self hnew, instantiate, fields_write, if_pos ⟨rfl, rfl⟩,
        List.idxOf_cons_self]
      rfl
    · have hne : k ≠ n := fun h => hk (h ▸ hn)
      have hindex : (k :: rest).idxOf n = rest.idxOf n + 1 := by
        rw [List.idxOf_cons, beq_eq_false_iff_ne.mpr hne, cond_false]
      have hlength : (m.instantiate naming self k).objects.length = m.objects.length + 1 := by
        simp [instantiate, write, allocate]
      rw [ih hrest _ n hn, hindex, hlength, Nat.add_assoc, Nat.add_comm 1]

end Memory

theorem Expr.evalAll_idents {params : List Param}
    (h : ∀ p ∈ params, ∃ v, env.locals.get? p.name = some v) :
    ∃ values, Expr.evalAll call env (params.map fun p => .ident p.name) m = .ok values m := by
  induction params with
  | nil => exact ⟨[], rfl⟩
  | cons p rest ih =>
    obtain ⟨⟨v, hv⟩, hrest⟩ := List.forall_mem_cons.mp h
    obtain ⟨values, hvalues⟩ := ih hrest
    exact ⟨v :: values, Expr.evalAll_cons (Expr.eval_ident hv) hvalues⟩

theorem Entries.exists_get?_zip {params : List Param} : ∀ {args : List Value},
    params.length = args.length → ∀ p ∈ params,
      ∃ v, Entries.get? ((params.map Param.name).zip args) p.name = some v := by
  induction params with
  | nil => simp
  | cons q rest ih =>
    intro args hlength p hp
    cases args with
    | nil => cases hlength
    | cons a args =>
      rw [List.map_cons, List.zip_cons_cons, Entries.get?_cons]
      by_cases hname : q.name = p.name
      · exact ⟨a, if_pos hname⟩
      · rw [if_neg hname]
        have hmem : p ∈ rest := (List.mem_cons.mp hp).resolve_left fun h => hname (h ▸ rfl)
        exact ih (Nat.succ.inj hlength) p hmem

/-- An outer constructor makes every instance anew and activates the version that owns it. -/
theorem execAll_outerConstructor (naming : Naming) (name : String) {ordinals : List UInt32}
    {s : ConstructorSignature} (hparams : ∀ p ∈ s.params, ∃ v, env.locals.get? p.name = some v) :
    Stmt.execAll call env (outerConstructor naming name ordinals s).body m =
      .ok .next ((m.instantiateAll naming env.self ordinals).activate naming env.self s.owner) := by
  have hcreate : ∀ (n : UInt32) (m : Memory), (Stmt.expr (.set (.thisField (naming.instanceField n))
      (.create (.plain (naming.implType n))
        (if n = s.owner then s.params.map fun p => .ident p.name else [])))).exec call env m =
      .ok .next (m.instantiate naming env.self n) := by
    intro n m
    have hargs : ∃ values, Expr.evalAll call env
        (if n = s.owner then s.params.map fun p => .ident p.name else []) m = .ok values m := by
      split
      next => exact Expr.evalAll_idents hparams
      next => exact ⟨[], rfl⟩
    obtain ⟨values, hvalues⟩ := hargs
    exact Stmt.exec_setThisField (Expr.eval_create hvalues)
  have hall : ∀ (ns : List UInt32) (m : Memory),
      Stmt.execAll call env ((outerConstructor naming name ns s).body) m =
        .ok .next ((m.instantiateAll naming env.self ns).activate naming env.self s.owner) := by
    intro ns
    induction ns with
    | nil =>
      intro m
      rw [outerConstructor, List.map_nil, List.nil_append,
        Stmt.execAll_cons (Stmt.exec_setThisField (Expr.eval_thisField _))]
      rfl
    | cons n rest ih =>
      intro m
      exact (Stmt.execAll_cons (hcreate n m)).trans (ih _)
  exact hall ordinals m

end VersionWeave
