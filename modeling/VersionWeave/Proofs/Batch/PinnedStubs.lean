import VersionWeave.Proofs.Batch.OnePerUnit
import VersionWeave.Proofs.Pinning.Written
import VersionWeave.Proofs.Unified.Stubs

namespace VersionWeave

namespace Weaver

variable {w : Weaver} {table : SymbolTable} {base : String} {ts : List TypeDecl}
  {vs : List VersionDecl}

theorem writtenTypes_reviseMethod (t : TypeDecl) (d : MethodDecl) :
    (w.reviseMethod table t d).writtenTypes = signatureTypes w.marker d.params := by
  rw [MethodDecl.writtenTypes, params_reviseMethod, List.map_map]
  rfl

/-- After revision the versions declare a signature as often as before, with the same ordinals. -/
theorem filter_numberedMethods (w : Weaver) (table : SymbolTable) (base : String)
    (hsettled : ∀ t ∈ ts, ∀ d ∈ t.methods, ∀ p ∈ d.params, p.ty.Settled w.marker)
    (signature : Signature) :
    (numberedMethods (ts.filterMap fun t =>
        Group.version? w.marker base (w.reviseType table t))).filter
      (fun d => d.2.signature w.marker = signature) =
    (declaredMethods w.marker ts signature).filterMap fun d =>
      (Group.version? w.marker base (w.reviseType table d.1)).map fun v =>
        (v.ordinal, w.reviseMethod table d.1 d.2) := by
  induction ts with
  | nil => rfl
  | cons t rest ih =>
    obtain ⟨ht, hrest⟩ := List.forall_mem_cons.mp hsettled
    have hdeclared : declaredMethods w.marker (t :: rest) signature =
        (t.methods.filter fun d => d.signature w.marker = signature).map (t, ·)
          ++ declaredMethods w.marker rest signature := rfl
    rw [hdeclared, List.filterMap_append, ← ih hrest, List.filterMap_cons, List.filterMap_map]
    cases hv : Group.version? w.marker base (w.reviseType table t) with
    | none =>
      have hnone : (t.methods.filter fun d => d.signature w.marker = signature).filterMap
          (fun _ => (none : Option (UInt32 × MethodDecl))) = [] := by simp
      simp only [Function.comp_def, hv, Option.map_none, hnone, List.nil_append]
    | some v =>
      obtain ⟨-, hdecl⟩ := Group.version?_eq_some.mp hv
      have hsame : (t.methods.map (w.reviseMethod table t)).filter
            (fun d => d.signature w.marker = signature) =
          (t.methods.filter fun d => d.signature w.marker = signature).map
            (w.reviseMethod table t) := by
        rw [List.filter_map]
        refine congrArg (List.map _) (List.filter_congr fun d hd => ?_)
        rw [Function.comp_apply, signature_reviseMethod w table t (ht d hd)]
      have hcons : ∀ vs, numberedMethods (v :: vs) =
          (t.methods.map (w.reviseMethod table t)).map (v.ordinal, ·) ++ numberedMethods vs := by
        intro vs
        rw [← methods_reviseType, ← hdecl]
        rfl
      dsimp only
      rw [hcons, List.filter_append, List.filter_map]
      simp only [Function.comp_def, hv, Option.map_some, hsame, List.filterMap_eq_map', List.map_map]

theorem mem_numberedMethods
    (hperm : vs.Perm (ts.filterMap fun t => Group.version? w.marker base (w.reviseType table t)))
    {x : UInt32 × MethodDecl} (h : x ∈ numberedMethods vs) :
    ∃ t ∈ ts, ∃ d ∈ t.methods, x.2 = w.reviseMethod table t d := by
  obtain ⟨v, hv, hx⟩ := List.mem_flatMap.mp h
  obtain ⟨t, ht, hversion⟩ := List.mem_filterMap.mp (hperm.mem_iff.mp hv)
  obtain ⟨-, hdecl⟩ := Group.version?_eq_some.mp hversion
  rw [hdecl, methods_reviseType, List.map_map] at hx
  obtain ⟨d, hd, rfl⟩ := List.mem_map.mp hx
  exact ⟨t, ht, d, hd, rfl⟩

section

variable {outer t : TypeDecl} {d : MethodDecl} {n : UInt32} {name : String} {types : List String}
  (hunified : Group.Unified w.marker table w.options base vs outer)
  (hperm : vs.Perm (ts.filterMap fun t => Group.version? w.marker base (w.reviseType table t)))
  (hsettled : ∀ t ∈ ts, ∀ d ∈ t.methods, ∀ p ∈ d.params, p.ty.Settled w.marker)
  (hone : declaredMethods w.marker ts (name, types) = [(t, d)])
  (hversion : w.marker.parse t.name = ⟨base, .numbered n⟩)

include hperm hsettled hone hversion

/-- What is declared once before revision is declared once, by the same version, after it. -/
theorem group_eq_singleton :
    (numberedMethods vs).filter (fun d => d.2.signature w.marker = (name, types)) =
      [(n, w.reviseMethod table t d)] := by
  have hall := (hperm.flatMap_right fun v => v.decl.methods.map fun m => (v.ordinal, m)).filter
    fun d => d.2.signature w.marker = (name, types)
  have hsingle := filter_numberedMethods w table base hsettled (name, types)
  have hv : Group.version? w.marker base (w.reviseType table t) =
      some { ordinal := n, decl := w.reviseType table t } :=
    Group.version?_eq_some.mpr ⟨by rw [name_reviseType]; exact hversion, rfl⟩
  rw [hone] at hsingle
  simp only [List.filterMap_cons, hv, Option.map_some, List.filterMap_nil] at hsingle
  exact List.perm_singleton.mp (hsingle ▸ hall)

include hunified

/-- The stub of a signature that one version declares, if it has one, goes to that version. -/
theorem mem_methods_iff_of_declared (hname : w.options.naming.isOperation name = false) (stub : MethodDecl) :
    (stub ∈ outer.methods ∧ stub.name = name ∧ stub.writtenTypes = types) ↔
      d.modifiers.visibility ≠ .priv ∧ stub = Stub.forwarding (w.reviseMethod table t d)
        (.thisField (w.options.naming.instanceField n)) := by
  have hgroup := group_eq_singleton hperm hsettled hone hversion
  have hd := (mem_declaredMethods.mp (hone ▸ List.mem_singleton_self (t, d))).2.2
  have hsurfaced : Stub.surfaced [(n, w.reviseMethod table t d)] = true ↔
      d.modifiers.visibility ≠ .priv := by simp [Stub.surfaced]
  constructor
  · rintro ⟨hmem, hstubName, hstubTypes⟩
    obtain ⟨⟨signature, group⟩, hg, hstub⟩ := (hunified.mem_methods (hstubName ▸ hname)).mp hmem
    obtain ⟨first, others, hfirst, hs, rfl⟩ := Stub.exists_of_ofGroup? hstub
    obtain ⟨hall, -⟩ := mem_signatureGroups.mp hg
    -- the group is the one of the stub's own signature, since its first member is in it
    have hin : first ∈ group := by
      dsimp only at hfirst
      rw [hfirst]
      exact List.mem_cons_self
    obtain ⟨hin, hsignature⟩ := List.mem_filter.mp (hall ▸ hin)
    obtain ⟨t', ht', d', hd', hrevised⟩ := mem_numberedMethods hperm hin
    have hkey : signature = (name, types) := by
      rw [← of_decide_eq_true hsignature, hrevised,
        signature_reviseMethod w table t' (hsettled t' ht' d' hd'), ← hstubName, ← hstubTypes,
        Stub.writtenTypes_forwarding, hrevised, writtenTypes_reviseMethod]
      rfl
    rw [hkey, hgroup] at hall
    dsimp only at hs hfirst ⊢
    rw [hall] at hs hfirst ⊢
    obtain ⟨rfl, -⟩ := List.cons.inj hfirst
    exact ⟨hsurfaced.mp hs, rfl⟩
  · rintro ⟨hvisible, rfl⟩
    obtain ⟨hdName, hdTypes⟩ := Prod.mk.inj hd
    refine ⟨(hunified.mem_methods ?_).mpr ⟨((name, types), [(n, w.reviseMethod table t d)]),
      mem_signatureGroups.mpr ⟨hgroup.symm, by simp⟩, ?_⟩, hdName, ?_⟩
    · exact hdName ▸ hname
    · rw [Stub.ofGroup?, if_pos (hsurfaced.mpr hvisible)]
      rfl
    · rw [Stub.writtenTypes_forwarding, writtenTypes_reviseMethod, hdTypes]

end

/-- A call that no version alone declares is left as it is. -/
theorem run_pin_of_not_declared {units : List CompilationUnit} {s : Scope}
    (hs : s.Over (.build w.marker units) w.marker) {r name : String} {args : List Expr}
    {c : ClassInfo} (hc : s.versionedClass? r = some c)
    (hnone : ∀ t d n, declaredMethods w.marker (declarations w.marker units c.baseName)
      (name, args.map s.argumentType) = [(t, d)] → (w.marker.parse t.name).version ≠ .numbered n)
    (naming : Naming) {st : Pinning} (hst : st.scope = s) :
    (Pinning.pin naming (.expr (.call (some (.ident r)) name args))).run st =
      (.keep (.expr (.call (some (.ident r)) name args)), st) := by
  rw [Pinning.run_pin_eq_keep_iff, hst, Option.eq_none_iff_forall_ne_some]
  rintro ⟨receiver, n⟩ hpin
  obtain ⟨v, name', args', -, hx, rfl, -, -⟩ := Pinning.pin?_eq_some_iff.mp hpin
  cases hx
  obtain ⟨t, d, hdeclared, hn⟩ := (Pinning.pin?_call_iff hs hc n).mp hpin
  exact hnone t d n hdeclared hn

/--
Wherever a call on a variable of a versioned type stands, it is pinned just when one version alone
declares its signature. The pass then writes the call of the switch operation with this version's
ordinal right before it, and the unified type hands that signature on to the instance of this
version, unless the declaration is private. Any other call is left as it is.
-/
theorem pin_agrees_with_stub (w : Weaver) (units : List CompilationUnit) (base : String)
    (hone : OnePerUnit units) (hok : ∀ e ∈ (w.transform units).failures, e.baseName ≠ base)
    (hreserved : ∀ t ∈ declarations w.marker units base, ∀ d ∈ t.methods,
      w.options.naming.isOperation d.name = false)
    (hsettled : ∀ t ∈ declarations w.marker units base, ∀ d ∈ t.methods, ∀ p ∈ d.params,
      p.ty.Settled w.marker)
    {u : CompilationUnit} {s : Scope} {r name : String} {args : List Expr}
    (hplace : (s, .expr (.call (some (.ident r)) name args)) ∈
      Pinning.places w.options.naming (w.scope (w.symbols units)) u)
    {c : ClassInfo} (hc : s.versionedClass? r = some c) (hbase : c.baseName = base) (n : UInt32) :
    let types := args.map s.argumentType
    let declared := declaredMethods w.marker (declarations w.marker units base) (name, types)
    (Pinning.pin? s (.expr (.call (some (.ident r)) name args)) = some (.ident r, n) ↔
      ∃ t d, declared = [(t, d)] ∧ (w.marker.parse t.name).version = .numbered n) ∧
    (∀ t d, declared = [(t, d)] → (w.marker.parse t.name).version = .numbered n →
      Successive (w.pinUnit (w.symbols units) u).1.runs
        (.expr (.call (some (.ident r)) w.options.naming.switchMethod
          [.literal (.int (Int64.ofNat n.toNat))]))
        (.expr (.call (some (.ident r)) name args)) ∧
      ∃ unit outer, (w.transform units).unitsOf base = [unit] ∧ unit.types = [outer] ∧
        ((∃ m ∈ outer.methods, m.name = name ∧ m.writtenTypes = types) ↔
          d.modifiers.visibility ≠ .priv) ∧
        ∀ m ∈ outer.methods, m.name = name → m.writtenTypes = types →
          m.ForwardsTo (.thisField (w.options.naming.instanceField n))) ∧
    ((∀ t d k, declared = [(t, d)] → (w.marker.parse t.name).version ≠ .numbered k) →
      ∀ st : Pinning, st.scope = s →
        (Pinning.pin w.options.naming (.expr (.call (some (.ident r)) name args))).run st =
          (.keep (.expr (.call (some (.ident r)) name args)), st)) := by
  dsimp only
  have hs : s.Over (w.symbols units) w.marker :=
    Pinning.over_of_mem_places ⟨rfl, rfl⟩ hplace
  subst hbase
  refine ⟨Pinning.pin?_call_iff hs hc n, fun t d hdeclared hn => ⟨?_, ?_⟩,
    fun hnone st hst => run_pin_of_not_declared hs hc hnone _ hst⟩
  · rw [pinUnit_fst]
    have hpin := (Pinning.pin?_call_iff hs hc n).mpr ⟨t, d, hdeclared, hn⟩
    exact Pinning.successive_of_mem_places hpin hplace
  obtain ⟨unit, outer, vs, hunits, htypes, hunified, hperm, -⟩ :=
    unitsOf_transform hone (hs.versionedClass? hc).2.2 hok
  obtain ⟨ht, hd, hsignature⟩ := mem_declaredMethods.mp (hdeclared ▸ List.mem_singleton_self (t, d))
  have hversion : w.marker.parse t.name = ⟨c.baseName, .numbered n⟩ := by
    rw [← hn, ← of_decide_eq_true (List.mem_filter.mp ht).2]
    rfl
  have hname : w.options.naming.isOperation name = false :=
    (Prod.mk.inj hsignature).1 ▸ hreserved t ht d hd
  have hstub := mem_methods_iff_of_declared hunified hperm hsettled hdeclared hversion hname
  refine ⟨unit, outer, hunits, htypes, ⟨?_, fun hvisible => ?_⟩, fun m hm hmName hmTypes => ?_⟩
  · rintro ⟨m, hm⟩
    exact ((hstub m).mp hm).1
  · exact ⟨_, (hstub _).mpr ⟨hvisible, rfl⟩⟩
  · rw [((hstub m).mp ⟨hm, hmName, hmTypes⟩).2]
    exact Stub.forwarding_forwardsTo _ _

/-- One version keeps numbers and a level, the next keeps lines; the call can only mean the latter. -/
def journal : List CompilationUnit :=
  [{ types := [{ name := "Test__1__", members := [
      .field (.single .pub (.plain "int") "level"),
      .method
        { modifiers := .pub, returnType := .void, name := "log",
          params := [{ ty := .plain "int", name := "number" }] }] }] },
    { types := [{ name := "Test__2__", members := [
      .method
        { modifiers := .pub, returnType := .plain "Test__1__", name := "log",
          params := [{ ty := .plain "String", name := "line" }] }] }] },
    { types := [{ name := "Main", members := [
      .method
        { returnType := .void, name := "main", body := some [
            .vars { ty := .plain "Test__1__", declarators := [{ name := "t" }] },
            .expr (.callOn (.ident "t") "log" [.string "begin"]),
            .expr (.set (.field (.ident "t") "level") (.int 3))] }] }] }]

theorem pin_agrees_with_stub_journal : ∃ s, ∃ u ∈ journal,
    (s, .expr (.callOn (.ident "t") "log" [.string "begin"])) ∈
        Pinning.places {} (scope {} (symbols {} journal)) u ∧
      Pinning.pin? s (.expr (.callOn (.ident "t") "log" [.string "begin"])) = some (.ident "t", 2) ∧
      Successive (pinUnit {} (symbols {} journal) u).1.runs
        (.expr (.callOn (.ident "t") "__switchToVersion" [.int 2]))
        (.expr (.callOn (.ident "t") "log" [.string "begin"])) ∧
      ∃ unit outer, (transform {} journal).unitsOf "Test" = [unit] ∧ unit.types = [outer] ∧
        (∃ m ∈ outer.methods, m.name = "log" ∧ m.writtenTypes = ["String"]) ∧
        ∀ m ∈ outer.methods, m.name = "log" → m.writtenTypes = ["String"] →
          m.ForwardsTo (.thisField "v2_instance") := by
  have hplace : (_, .expr (.callOn (.ident "t") "log" [.string "begin"])) ∈
      Pinning.places {} (scope {} (symbols {} journal)) (journal.get ⟨2, by decide⟩) :=
    List.mem_cons_of_mem _ List.mem_cons_self
  have hsymbols : symbols {} journal = _ := SymbolTable.build_eq_foldl .standard journal
  obtain ⟨hpin, hwritten, -⟩ := pin_agrees_with_stub {} journal "Test" (by decide)
    (by decide +kernel) (by decide +kernel) (by decide +kernel) hplace (by rw [hsymbols]; rfl)
    (by rfl) 2
  obtain ⟨hsuccessive, unit, outer, hunits, htypes, hdeclares, hcalls⟩ :=
    hwritten _ _ rfl (by decide +kernel)
  refine ⟨_, _, List.get_mem _ _, hplace, hpin.mpr ⟨_, _, rfl, by decide +kernel⟩, hsuccessive, ?_⟩
  exact ⟨unit, outer, hunits, htypes, hdeclares.mpr (by decide), hcalls⟩

end Weaver

end VersionWeave
