import VersionWeave.Proofs.Batch.PinnedStubs
import VersionWeave.Proofs.FieldAccess.Owner

namespace VersionWeave

/-- The method calls the switch operation for a version on its own object, then takes one step. -/
def MethodDecl.Activates (m : MethodDecl) (naming : Naming) (n : UInt32) (step : Stmt) : Prop :=
  m.body = some [.expr (.call (some .this) naming.switchMethod
    [.literal (.int (Int64.ofNat n.toNat))]), step]

/--
The type has both accessors of a field, for a version that declares the field public: one returns
the field of the instance of this version, the other assigns its argument to it.
-/
structure TypeDecl.Accesses (outer : TypeDecl) (naming : Naming) (field : String) (n : UInt32) :
    Prop where
  getter : ∃ m ∈ outer.methods, m.name = naming.getter field ∧ m.modifiers.isPublic = true ∧
    m.params = [] ∧
    m.Activates naming n (.ret (some (.field (.field .this (naming.instanceField n)) field)))
  setter : ∃ m ∈ outer.methods, m.name = naming.setter field ∧ m.modifiers.isPublic = true ∧
    ∃ value, m.params = [value] ∧
      m.Activates naming n (.expr (.assign (.field (.field .this (naming.instanceField n)) field)
        .assign (.ident value.name)))
  field : ∃ impl, outer.nested? (naming.implType n) .classType = some impl ∧
    ∃ f ∈ impl.fields, f.modifiers.isPublic = true ∧ field ∈ f.declarators.map Declarator.name

namespace Accessor

variable (naming : Naming) (field : String) (ty : TypeRef) (n : UInt32)

theorem activates_getter : (getter naming field ty n).Activates naming n
    (.ret (some (.field (.field .this (naming.instanceField n)) field))) := rfl

theorem activates_setter : (setter naming field ty n).Activates naming n
    (.expr (.assign (.field (.field .this (naming.instanceField n)) field) .assign
      (.ident "value"))) := rfl

end Accessor

namespace Group.Unified

variable {marker : Marker} {table : SymbolTable} {options : Options} {base : String}
  {vs : List VersionDecl} {outer : TypeDecl} (h : Unified marker table options base vs outer)
include h

/-- The accessors of a field go to a version as soon as this version declares it public. -/
theorem accesses (hgenerate : options.generateAccessors = true) {owner : ClassInfo}
    (howner : table.get? base = some owner) {field : String} {info : FieldInfo} {v : VersionDecl}
    (hv : v ∈ vs) (hbest : owner.accessorOwner? field = some (v.ordinal, info))
    (hfield : ∃ f ∈ v.decl.fields, f.modifiers.isPublic = true ∧
      field ∈ f.declarators.map Declarator.name) :
    outer.Accesses options.naming field v.ordinal := by
  have hpair : ∀ m, m ∈ Accessor.pair options.naming owner vs field →
      m ∈ Accessor.members options table base vs := by
    intro m hm
    simp only [Accessor.members, hgenerate, howner]
    exact List.mem_flatMap.mpr ⟨field, ClassInfo.mem_keys_of_accessorOwner? hbest, hm⟩
  have hmem : ∀ d, .method d ∈ Accessor.pair options.naming owner vs field → d ∈ outer.methods := by
    intro d hd
    rw [h.methods]
    exact List.mem_cons_of_mem _ (List.mem_append_right _
      (List.mem_filterMap.mpr ⟨_, hpair _ hd, rfl⟩))
  have hboth : Accessor.pair options.naming owner vs field =
      let ty := (Accessor.declaredType? vs v.ordinal field).getD (.plain info.type)
      [.method (Accessor.getter options.naming field ty v.ordinal),
        .method (Accessor.setter options.naming field ty v.ordinal)] := by
    simp only [Accessor.pair, hbest]
  refine ⟨⟨_, hmem _ (hboth ▸ List.mem_cons_self), rfl, rfl, rfl, Accessor.activates_getter ..⟩,
    ⟨_, hmem _ (hboth ▸ List.mem_cons_of_mem _ List.mem_cons_self), rfl, rfl, _, rfl,
      Accessor.activates_setter ..⟩, ?_⟩
  obtain ⟨impl, himpl, hfields⟩ := Option.map_eq_some_iff.mp (h.implFields v hv)
  exact ⟨impl, himpl, hfields ▸ hfield⟩

end Group.Unified

namespace Weaver

variable {w : Weaver} {units : List CompilationUnit} {base : String}

/-- A declaration with an ordinal is among the versions of its base name, revised. -/
theorem mem_versions {table : SymbolTable} {vs : List VersionDecl} {t : TypeDecl} {n : UInt32}
    (hperm : vs.Perm ((declarations w.marker units base).filterMap fun t =>
      Group.version? w.marker base (w.reviseType table t)))
    (ht : t ∈ declarations w.marker units base)
    (hn : (w.marker.parse t.name).version = .numbered n) :
    { ordinal := n, decl := w.reviseType table t } ∈ vs := by
  refine hperm.mem_iff.mpr (List.mem_filterMap.mpr ⟨t, ht, Group.version?_eq_some.mpr ⟨?_, rfl⟩⟩)
  rw [name_reviseType, ← hn, ← of_decide_eq_true (List.mem_filter.mp ht).2]
  rfl

end Weaver

end VersionWeave
