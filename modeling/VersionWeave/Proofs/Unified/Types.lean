import Mathlib.Data.List.Nodup
import VersionWeave.Proofs.Tree.Types
import VersionWeave.Proofs.Unified.Stubs

namespace VersionWeave

/-- All types that generated code names of itself have the property. -/
structure Naming.Admits (naming : Naming) (P : TypeRef → Prop) : Prop where
  contract : P (.plain naming.behaviorInterface)
  impl : ∀ n, P (.plain (naming.implType n))
  void : P .void
  int : P (.plain "int")
  refusal : P (.plain "IllegalArgumentException")
  unsupported : P (.plain "UnsupportedOperationException")

variable {P : TypeRef → Prop} {naming : Naming}

theorem TypeDecl.types_append {t : TypeDecl} {members : List Member} (ht : t.outline.Types P)
    (hmembers : ∀ m ∈ members, m.outline.Types P) : (t.append members).outline.Types P := by
  obtain ⟨hsuper, hinterfaces, hold⟩ := t.types_iff.mp ht
  exact (TypeDecl.types_iff _).mpr
    ⟨hsuper, hinterfaces, List.forall_mem_append.mpr ⟨hold, hmembers⟩⟩

theorem Member.types_updateType? {name : String} {kind : TypeKind} {change : TypeDecl → TypeDecl}
    (hchange : ∀ t : TypeDecl, t.outline.Types P → (change t).outline.Types P) (ms : List Member) :
    ∀ {ms' : List Member}, updateType? name kind change ms = some ms' →
      (∀ m ∈ ms, m.outline.Types P) → ∀ m ∈ ms', m.outline.Types P := by
  induction ms with
  | nil => intro ms' h; cases h
  | cons m rest ih =>
    intro ms' h hall
    obtain ⟨hm, hrest⟩ := List.forall_mem_cons.mp hall
    unfold updateType? at h
    cases ht : m.type? name kind with
    | some t =>
      rw [ht] at h
      cases Option.some.inj h
      obtain ⟨rfl, -⟩ := type?_eq_some.mp ht
      refine List.forall_mem_cons.mpr ⟨?_, hrest⟩
      exact (Member.types_type _).mpr (hchange t ((Member.types_type t).mp hm))
    | none =>
      rw [ht] at h
      obtain ⟨rest', hrest', rfl⟩ := Option.map_eq_some_iff.mp h
      exact List.forall_mem_cons.mpr ⟨hm, ih hrest' hrest⟩

theorem TypeDecl.types_updateNested? {t t' : TypeDecl} {name : String} {kind : TypeKind}
    {change : TypeDecl → TypeDecl} (h : t.updateNested? name kind change = some t')
    (hchange : ∀ t : TypeDecl, t.outline.Types P → (change t).outline.Types P)
    (ht : t.outline.Types P) : t'.outline.Types P := by
  obtain ⟨members, hmembers, rfl⟩ := Option.map_eq_some_iff.mp h
  obtain ⟨hsuper, hinterfaces, hold⟩ := t.types_iff.mp ht
  exact (TypeDecl.types_iff _).mpr
    ⟨hsuper, hinterfaces, Member.types_updateType? hchange _ hmembers hold⟩

namespace Skeleton

theorem types_switchMethod (hn : naming.Admits P) (ordinals : List UInt32) :
    (switchMethod naming ordinals).outline.Types P := by
  have harms : ∀ ns : List UInt32,
      Outline.AllTypes P (SwitchCase.outlines (ns.map (arm naming) ++ [refusal])) := by
    intro ns
    induction ns with
    | nil =>
      simp [SwitchCase.outlines, refusal, Expr.outlines, Stmt.outlines, Stmt.outline, Expr.outline,
        Expr.string, Node.OnType, TypeRef.types_plain, hn.refusal]
    | cons n rest ih =>
      simp only [List.map_cons, List.cons_append]
      simp [SwitchCase.outlines, arm, Expr.int, Expr.set, Expr.thisField, Expr.outlines,
        Stmt.outlines, Stmt.outline, Expr.outline, Node.OnType, ih]
  refine (MethodDecl.types_iff _).mpr ⟨(TypeRef.types_plain _).mpr hn.void, ?_, ?_⟩
  · exact List.forall_mem_singleton.mpr ((TypeRef.types_plain _).mpr hn.int)
  · rintro b hb
    cases Option.some.inj hb
    simp [Stmt.outlines, Stmt.outline, Expr.outline, Node.OnType, harms]

theorem types_members (hn : naming.Admits P) (ordinals : List UInt32) :
    ∀ m ∈ members naming ordinals, m.outline.Types P := by
  have hfield : ∀ (modifiers : Modifiers) (ty : TypeRef) (name : String), ty.outline.Types P →
      (Member.field (.single modifiers ty name)).outline.Types P := by
    intro modifiers ty name hty
    simpa [FieldDecl.types_iff, FieldDecl.single, Declarator.outlines, Expr.optionOutline] using hty
  have hcontract : (TypeRef.plain naming.behaviorInterface).outline.Types P :=
    (TypeRef.types_plain _).mpr hn.contract
  have himpl : ∀ n, (TypeRef.plain (naming.implType n)).outline.Types P := fun n =>
    (TypeRef.types_plain _).mpr (hn.impl n)
  have hnested : ∀ n, (implementation naming n).outline.Types P := by
    intro n
    simp [TypeDecl.types_iff, implementation, hcontract]
  simp only [members, List.forall_mem_append, List.forall_mem_cons, List.forall_mem_map]
  refine ⟨⟨⟨⟨by simp [TypeDecl.types_iff, contract], by simp⟩, fun n _ => ?_⟩, fun n _ => ?_⟩, ?_, ?_, by simp⟩
  · exact (Member.types_type _).mpr (hnested n)
  · exact hfield _ _ _ (himpl n)
  · exact hfield _ _ _ hcontract
  · exact (Member.types_method _).mpr (types_switchMethod hn ordinals)

end Skeleton

namespace Merge

theorem types_absorb (name : String) {version target : TypeDecl} (hv : version.outline.Types P)
    (ht : target.outline.Types P) : (absorb name version target).outline.Types P := by
  obtain ⟨hsuper, hinterfaces, hmembers⟩ := version.types_iff.mp hv
  obtain ⟨hsuper', hinterfaces', hmembers'⟩ := target.types_iff.mp ht
  have hrenamed : ∀ m ∈ version.members.map (rename name), m.outline.Types P := by
    intro m hm
    obtain ⟨m', hm', rfl⟩ := List.mem_map.mp hm
    have htypes := hmembers m' hm'
    cases m' with
    | constructor c => simpa [rename, ConstructorDecl.types_iff] using htypes
    | _ => exact htypes
  have hmerged : (TypeDecl.outline
      { target with
        superclass := version.superclass.or target.superclass
        interfaces := target.interfaces ++ version.interfaces
        members := target.members ++ version.members.map (rename name) }).Types P := by
    refine (TypeDecl.types_iff _).mpr ⟨fun s hs => ?_, List.forall_mem_append.mpr
      ⟨hinterfaces', hinterfaces⟩, List.forall_mem_append.mpr ⟨hmembers', hrenamed⟩⟩
    rcases Option.or_eq_some_iff.mp hs with hs | ⟨-, hs⟩
    · exact hsuper s hs
    · exact hsuper' s hs
  unfold absorb
  dsimp only
  split
  next => exact hmerged
  next =>
    refine TypeDecl.types_append hmerged (List.forall_mem_singleton.mpr ?_)
    simp [ConstructorDecl.types_iff, emptyConstructor, Stmt.outlines]

end Merge

variable {marker : Marker} {base : String}

theorem TypeDecl.types_mergeVersions {vs : List VersionDecl} : ∀ {outer result : TypeDecl},
    mergeVersions naming base vs outer = .ok result → (∀ v ∈ vs, v.decl.outline.Types P) →
      outer.outline.Types P → result.outline.Types P := by
  induction vs with
  | nil => intro outer result h _ ht; cases h; exact ht
  | cons v rest ih =>
    intro outer result h hvs ht
    obtain ⟨next, hnext, h⟩ := mergeVersions_cons h
    obtain ⟨hv, hrest⟩ := List.forall_mem_cons.mp hvs
    exact ih h hrest (types_updateNested? hnext (fun _ => Merge.types_absorb _ hv) ht)

namespace Stub

theorem types_numberedParams {params : List Param} (h : ∀ p ∈ params, p.ty.outline.Types P) :
    ∀ p ∈ numberedParams params, p.ty.outline.Types P := by
  intro p hp
  obtain ⟨i, hi, rfl⟩ := List.mem_mapIdx.mp hp
  exact h params[i] (List.getElem_mem hi)

theorem types_forwarding {m : MethodDecl} (n : String) (hm : m.outline.Types P) :
    (forwarding m (.thisField n)).outline.Types P := by
  obtain ⟨hreturn, hparams, -⟩ := m.types_iff.mp hm
  have hargs : ∀ ps : List Param,
      Outline.AllTypes P (Expr.outlines (ps.map fun p => .ident p.name)) := by
    intro ps
    induction ps with
    | nil => exact Outline.allTypes_nil
    | cons p rest ih => simp [Expr.outlines, Expr.outline, Node.OnType, ih]
  refine (MethodDecl.types_iff _).mpr ⟨hreturn, types_numberedParams hparams, fun b hb => ?_⟩
  cases Option.some.inj hb
  split <;>
    simp [Stmt.outlines, Stmt.outline, Expr.callOn, Expr.thisField, Expr.outline, Expr.optionOutline,
      Node.OnType, hargs]

theorem types_bare {m : MethodDecl} (hm : m.outline.Types P) : (bare m).outline.Types P := by
  obtain ⟨hreturn, hparams, -⟩ := m.types_iff.mp hm
  exact (MethodDecl.types_iff _).mpr ⟨hreturn, types_numberedParams hparams, fun _ h => by cases h⟩

theorem types_unsupported (hn : naming.Admits P) {m : MethodDecl} (n : UInt32)
    (hm : m.outline.Types P) : (unsupported m n).outline.Types P := by
  obtain ⟨hreturn, hparams, -⟩ := m.types_iff.mp hm
  refine (MethodDecl.types_iff _).mpr ⟨hreturn, types_numberedParams hparams, fun b hb => ?_⟩
  cases Option.some.inj hb
  simp [Stmt.outlines, Stmt.outline, Expr.string, Expr.outline, Expr.outlines, Node.OnType,
    TypeRef.types_plain, hn.unsupported]

theorem types_exposeFirst? {signature : Signature} {ms ms' : List Member}
    (h : exposeFirst? marker signature ms = some ms') (hall : ∀ m ∈ ms, m.outline.Types P) :
    ∀ m ∈ ms', m.outline.Types P := by
  obtain ⟨before, m, after, rfl, -, rfl⟩ := exposeFirst?_eq_some h
  obtain ⟨hbefore, hall⟩ := List.forall_mem_append.mp hall
  obtain ⟨hm, hafter⟩ := List.forall_mem_cons.mp hall
  refine List.forall_mem_append.mpr ⟨hbefore, List.forall_mem_cons.mpr ⟨?_, hafter⟩⟩
  simpa [expose, MethodDecl.types_iff] using hm

theorem types_complete (hn : naming.Admits P) (signature : Signature) {template : MethodDecl}
    (n : UInt32) (htemplate : template.outline.Types P) {impl : TypeDecl} (h : impl.outline.Types P) :
    (complete marker signature template n impl).outline.Types P := by
  unfold complete
  cases hx : exposeFirst? marker signature impl.members with
  | some members =>
    obtain ⟨hsuper, hinterfaces, hmembers⟩ := impl.types_iff.mp h
    exact (TypeDecl.types_iff _).mpr ⟨hsuper, hinterfaces, types_exposeFirst? hx hmembers⟩
  | none =>
    refine TypeDecl.types_append h (List.forall_mem_singleton.mpr ?_)
    exact (Member.types_method _).mpr (types_unsupported hn n htemplate)

theorem types_completeAll (hn : naming.Admits P) {signature : Signature} {template : MethodDecl}
    (htemplate : template.outline.Types P) {vs : List VersionDecl} : ∀ {outer result : TypeDecl},
    completeAll marker naming base signature template vs outer = .ok result →
      outer.outline.Types P → result.outline.Types P := by
  induction vs with
  | nil => intro outer result h ht; cases h; exact ht
  | cons v rest ih =>
    intro outer result h ht
    unfold completeAll at h
    dsimp only at h
    split at h
    next => cases h
    next next hnext =>
      exact ih h (TypeDecl.types_updateNested? hnext
        (fun _ => types_complete hn signature v.ordinal htemplate) ht)

theorem types_share (hn : naming.Admits P) {vs : List VersionDecl} {signature : Signature}
    {template : MethodDecl} (htemplate : template.outline.Types P) {outer result : TypeDecl}
    (h : share marker naming base vs signature template outer = .ok result)
    (ht : outer.outline.Types P) : result.outline.Types P := by
  unfold share at h
  cases hx : extendContract naming base template outer with
  | error e => rw [hx] at h; cases h
  | ok next =>
    rw [hx] at h
    refine types_completeAll hn htemplate h ?_
    unfold extendContract at hx
    split at hx
    next => cases hx
    next next' hnext =>
      cases hx
      refine TypeDecl.types_updateNested? hnext (fun t ht => TypeDecl.types_append ht ?_) ht
      exact List.forall_mem_singleton.mpr ((Member.types_method _).mpr (types_bare htemplate))

theorem types_receiver (group : List (UInt32 × MethodDecl)) {m : MethodDecl}
    (hm : m.outline.Types P) : (forwarding m (receiver naming group)).outline.Types P := by
  unfold receiver
  split <;> exact types_forwarding _ hm

theorem types_addAll (hn : naming.Admits P) {vs : List VersionDecl}
    {groups : List (Signature × List (UInt32 × MethodDecl))} :
    ∀ {stubs : List Member} {outer result : TypeDecl},
      addAll marker naming base vs groups stubs outer = .ok result →
        (∀ g ∈ groups, ∀ d ∈ g.2, d.2.outline.Types P) → (∀ m ∈ stubs, m.outline.Types P) →
          outer.outline.Types P → result.outline.Types P := by
  induction groups with
  | nil =>
    intro stubs outer result h _ hstubs ht
    cases h
    exact TypeDecl.types_append ht hstubs
  | cons g rest ih =>
    intro stubs outer result h hgroups hstubs ht
    obtain ⟨hgroup, hrest⟩ := List.forall_mem_cons.mp hgroups
    rcases addAll_cons vs g.1 g.2 rest stubs outer with ⟨next, hnext, hstep⟩ | ⟨e, hstep⟩
    · have hstubs' : ∀ m ∈ stubs ++ (ofGroup? naming g.2).toList.map .method, m.outline.Types P := by
        refine List.forall_mem_append.mpr ⟨hstubs, fun m hm => ?_⟩
        obtain ⟨stub, hstub, rfl⟩ := List.mem_map.mp hm
        obtain ⟨d, others, hg, -, rfl⟩ := exists_of_ofGroup? (Option.mem_toList.mp hstub)
        exact (Member.types_method _).mpr (types_receiver _ (hgroup d (hg ▸ List.mem_cons_self)))
      refine ih (hstep.symm.trans h) hrest hstubs' ?_
      rcases hnext with rfl | ⟨d, hd, hshare⟩
      · exact ht
      · exact types_share hn (hgroup d hd) hshare ht
    · cases hstep.symm.trans h

end Stub

theorem TypeDecl.types_addStubs (hn : naming.Admits P) {vs : List VersionDecl}
    {outer result : TypeDecl} (h : outer.addStubs marker naming base vs = .ok result)
    (hvs : ∀ v ∈ vs, v.decl.outline.Types P) (ht : outer.outline.Types P) :
    result.outline.Types P := by
  refine Stub.types_addAll hn h (fun g hg d hd => ?_) (by simp) ht
  obtain ⟨hgroup, -⟩ := mem_signatureGroups.mp hg
  rw [hgroup] at hd
  obtain ⟨v, hv, hd⟩ := List.mem_flatMap.mp (List.mem_filter.mp hd).1
  obtain ⟨m, hm, rfl⟩ := List.mem_map.mp hd
  exact TypeDecl.types_of_mem_methods (hvs v hv) hm

theorem types_outerConstructor (hn : naming.Admits P) (name : String) (ordinals : List UInt32)
    {s : ConstructorSignature} (hs : ∀ p ∈ s.params, p.ty.outline.Types P) :
    (outerConstructor naming name ordinals s).outline.Types P := by
  have hidents : ∀ ps : List Param, Outline.AllTypes P
      (Expr.outlines (ps.map fun p => .ident p.name)) := by
    intro ps
    induction ps with
    | nil => exact Outline.allTypes_nil
    | cons p rest ih => simp [Expr.outlines, Expr.outline, Node.OnType, ih]
  have hargs : ∀ n, Outline.AllTypes P (Expr.outlines
      (if n = s.owner then s.params.map fun p => .ident p.name else [])) := by
    intro n
    split
    next => exact hidents s.params
    next => exact Outline.allTypes_nil
  refine (ConstructorDecl.types_iff _).mpr ⟨hs, ?_⟩
  simp [outerConstructor, Stmt.outlines_eq_map, Stmt.outline, Expr.set, Expr.thisField, Expr.outline,
    Node.OnType, TypeRef.types_plain, hn.impl, hargs]

theorem types_constructorSignatures {vs : List VersionDecl}
    (hvs : ∀ v ∈ vs, v.decl.outline.Types P) {s : ConstructorSignature}
    (hs : s ∈ constructorSignatures marker vs) : ∀ p ∈ s.params, p.ty.outline.Types P := by
  rcases mem_constructorSignatures.mp hs with h | ⟨-, v, -, rfl⟩
  · obtain ⟨v, hv, h⟩ := List.mem_flatMap.mp (List.mem_of_find?_eq_some h)
    obtain ⟨c, hc, rfl⟩ := List.mem_map.mp h
    exact (c.types_iff.mp (TypeDecl.types_of_mem_constructors (hvs v hv) hc)).1
  · simp

namespace Accessor

theorem types_declaredType? {vs : List VersionDecl} (hvs : ∀ v ∈ vs, v.decl.outline.Types P)
    {n : UInt32} {field : String} {ty : TypeRef} (h : declaredType? vs n field = some ty) :
    ty.outline.Types P := by
  obtain ⟨v, hv, h⟩ := Option.bind_eq_some_iff.mp h
  obtain ⟨f, hf, h⟩ := Option.bind_eq_some_iff.mp h
  cases Option.some.inj h
  have hfield := TypeDecl.types_of_mem_fields (hvs v (List.mem_of_find?_eq_some hv))
    (List.mem_of_find?_eq_some hf)
  exact (f.types_iff.mp hfield).1

/-- With each ordinal once, the type of a field is found in the version that declares it. -/
theorem declaredType?_isSome {vs : List VersionDecl} (hnodup : (vs.map VersionDecl.ordinal).Nodup)
    {v : VersionDecl} (hv : v ∈ vs) {f : FieldDecl} (hf : f ∈ v.decl.fields) {field : String}
    (hfield : field ∈ f.declarators.map Declarator.name) :
    (declaredType? vs v.ordinal field).isSome := by
  have hversion : vs.find? (fun x => x.ordinal = v.ordinal) = some v := by
    obtain ⟨x, hx⟩ := Option.isSome_iff_exists.mp
      (List.find?_isSome.mpr ⟨v, hv, decide_eq_true rfl⟩ :
        (vs.find? fun x => x.ordinal = v.ordinal).isSome)
    have hordinal : x.ordinal = v.ordinal := by simpa using List.find?_some hx
    rw [hx, List.inj_on_of_nodup_map hnodup (List.mem_of_find?_eq_some hx) hv hordinal]
  have hdeclared : (v.decl.fields.find? fun f => f.declarators.any fun d => d.name = field).isSome := by
    obtain ⟨d, hd, rfl⟩ := List.mem_map.mp hfield
    exact List.find?_isSome.mpr ⟨f, hf, List.any_eq_true.mpr ⟨d, hd, by simp⟩⟩
  obtain ⟨f', hf'⟩ := Option.isSome_iff_exists.mp hdeclared
  simp [declaredType?, hversion, hf']

/-- Accessors name no type but those of fields, if every owner of accessors is a version. -/
theorem types_members {options : Options} (hn : options.naming.Admits P) {table : SymbolTable}
    {vs : List VersionDecl} (hvs : ∀ v ∈ vs, v.decl.outline.Types P)
    (howned : ∀ owner, table.get? base = some owner → ∀ field n info,
      owner.accessorOwner? field = some (n, info) → (declaredType? vs n field).isSome) :
    ∀ m ∈ members options table base vs, m.outline.Types P := by
  intro m hm
  unfold members at hm
  split at hm
  next owner _ howner =>
    obtain ⟨field, -, hm⟩ := List.mem_flatMap.mp hm
    unfold pair at hm
    split at hm
    next => simp at hm
    next n info hbest =>
      obtain ⟨ty, hty⟩ := Option.isSome_iff_exists.mp (howned owner howner field n info hbest)
      have htype := types_declaredType? hvs hty
      have hvoid : TypeRef.void.outline.Types P := (TypeRef.types_plain _).mpr hn.void
      simp only [hty, Option.getD_some, List.mem_cons, List.not_mem_nil, or_false] at hm
      rcases hm with rfl | rfl
      · simp [MethodDecl.types_iff, getter, switchTo, place, Naming.switchCall, Expr.callOn, Expr.int,
          Expr.thisField, Stmt.outlines, Stmt.outline, Expr.outline, Expr.outlines,
          Expr.optionOutline, Node.OnType, htype]
      · simp [MethodDecl.types_iff, setter, switchTo, place, Naming.switchCall, Expr.callOn, Expr.int,
          Expr.set, Expr.thisField, Stmt.outlines, Stmt.outline, Expr.outline, Expr.outlines,
          Expr.optionOutline, Node.OnType, htype, hvoid]
  next => simp at hm

end Accessor

/-- A unified type names the types that its versions name, and those of generated code. -/
theorem Group.types_outer {options : Options} (hn : options.naming.Admits P) {table : SymbolTable}
    {vs : List VersionDecl} {outer : TypeDecl}
    (h : Group.outer marker table options base vs = .ok outer)
    (hvs : ∀ v ∈ vs, v.decl.outline.Types P)
    (howned : ∀ owner, table.get? base = some owner → ∀ field n info,
      owner.accessorOwner? field = some (n, info) → (Accessor.declaredType? vs n field).isSome) :
    outer.outline.Types P := by
  rcases outer_stages marker table options base vs with
    ⟨merged, stubbed, hmerge, hstubs, houter⟩ | ⟨e, he⟩
  · cases houter.symm.trans h
    have hempty : (emptyOuter base vs).outline.Types P := by
      cases vs <;> simp [emptyOuter, TypeDecl.types_iff]
    have hmerged := TypeDecl.types_mergeVersions hmerge hvs
      (TypeDecl.types_append hempty (Skeleton.types_members hn _))
    have hstubbed := TypeDecl.types_addStubs hn hstubs hvs hmerged
    refine TypeDecl.types_append (TypeDecl.types_append hstubbed fun m hm => ?_)
      (Accessor.types_members hn hvs howned)
    obtain ⟨s, hs, rfl⟩ := List.mem_map.mp hm
    exact (Member.types_constructor _).mpr
      (types_outerConstructor hn _ _ (types_constructorSignatures hvs hs))
  · cases he.symm.trans h

end VersionWeave
