import Mathlib.Data.List.Forall2
import VersionWeave.Proofs.Symbols

namespace VersionWeave

/-- The type that the last of the declarations of a name gives it. -/
def lastDeclared? (declared : List (String × TypeRef)) (name : String) : Option TypeRef :=
  (declared.filter fun d => d.1 = name).getLast?.map Prod.snd

/-- The entry says of a method what its declaration in a type says. -/
structure MethodInfo.Describes (marker : Marker) (t : TypeDecl) (m : MethodDecl)
    (info : MethodInfo) : Prop where
  name : info.name = m.name
  version : info.version = (marker.parse t.name).version
  returnType : info.returnType = (m.returnType.normalize marker).source
  parameterTypes : info.parameterTypes = m.params.map fun p => (p.ty.normalize marker).source
  isStatic : info.isStatic = m.modifiers.isStatic
  isPrivate : info.isPrivate = true ↔ m.modifiers.visibility = .priv
  nodup_variables : info.variableTypes.keys.Nodup
  /-- Parameters and locals have the type of their last declaration, and no other name has one. -/
  variableType? : ∀ x, info.variableType? x =
    (lastDeclared? m.declaredVars x).map fun ty => (ty.normalize marker).source

/-- The entry says of a field variable what its declaration in a type says. -/
structure FieldInfo.Describes (marker : Marker) (t : TypeDecl) (f : FieldDecl) (d : Declarator)
    (info : FieldInfo) : Prop where
  name : info.name = d.name
  type : info.type = (f.ty.normalize marker).source
  version : info.version = (marker.parse t.name).version
  isPublic : info.isPublic = true ↔ f.modifiers.visibility = .pub

/-- Under each name of an item, and no other, there is one entry for each item of that name. -/
structure Entries.Lists {α β : Type} (nameOf : β → String) (describes : β → α → Prop)
    (items : List β) (entries : Entries String (List α)) : Prop where
  nodup_keys : entries.keys.Nodup
  mem_keys : ∀ name, name ∈ entries.keys ↔ ∃ b ∈ items, nameOf b = name
  get? : ∀ name, List.Forall₂ describes (items.filter fun b => nameOf b = name)
    ((entries.get? name).getD [])

section

variable (marker : Marker) (units : List CompilationUnit) (base : String)

/-- The methods declared directly in the types of a base name, in source order. -/
def ownMethods : List (TypeDecl × MethodDecl) :=
  (declarations marker units base).flatMap fun t => t.methods.map (t, ·)

/-- The variables of the fields declared directly in the types of a base name. -/
def ownFields : List (TypeDecl × FieldDecl × Declarator) :=
  (declarations marker units base).flatMap fun t =>
    t.fields.flatMap fun f => f.declarators.map (t, f, ·)

/-- The class says what the top-level types of its base name say, and nothing else. -/
structure ClassInfo.Records (c : ClassInfo) : Prop where
  baseName : c.baseName = base
  isVersioned : c.isVersioned = true ↔
    ∃ t ∈ declarations marker units base, ∃ n, (marker.parse t.name).version = .numbered n
  methods : c.methods.Lists (fun d => d.2.name) (fun d info => info.Describes marker d.1 d.2)
    (ownMethods marker units base)
  fields : c.fields.Lists (fun d => d.2.2.name)
    (fun d info => info.Describes marker d.1 d.2.1 d.2.2) (ownFields marker units base)

end

/-- A method or a field, not a constructor or a nested type. -/
def Member.isIndexed : Member → Bool
  | .method _ | .field _ => true
  | .constructor _ | .type _ => false

/-- A type without its constructors and nested types. -/
def TypeDecl.indexed (t : TypeDecl) : TypeDecl :=
  { t with members := t.members.filter Member.isIndexed }

def CompilationUnit.indexed (u : CompilationUnit) : CompilationUnit :=
  { u with types := u.types.map TypeDecl.indexed }

theorem Entries.lists_collect {α β : Type} {nameOf : β → String} {describes : β → α → Prop}
    (entry : β → α) (h : ∀ b, describes b (entry b)) (items : List β) :
    (collect (items.map fun b => (nameOf b, entry b))).Lists nameOf describes items where
  nodup_keys := nodup_keys_collect _
  mem_keys name := by simp [mem_keys_collect]
  get? name := by
    rw [collect, getD_get?_foldl_push, List.filter_map, List.map_map]
    refine List.forall₂_map_right_iff.mpr (List.forall₂_same.mpr fun b _ => ?_)
    exact h b

theorem MethodDecl.info_describes (marker : Marker) (t : TypeDecl) (m : MethodDecl) :
    (m.info marker (marker.parse t.name).version).Describes marker t m where
  name := rfl
  version := rfl
  returnType := rfl
  parameterTypes := rfl
  isStatic := rfl
  isPrivate := by simp [MethodDecl.info]
  nodup_variables :=
    Entries.nodup_keys_foldl_alter Prod.fst (fun (d : String × String) _ => d.2) _ List.nodup_nil
  variableType? x := by
    rw [MethodInfo.variableType?, MethodDecl.info, Entries.get?_foldl_put, lastDeclared?,
      MethodDecl.declared, List.filter_map, List.getLast?_map, Option.map_map, Option.map_map]
    rfl

theorem FieldDecl.info_describes (marker : Marker) (t : TypeDecl) (f : FieldDecl) (d : Declarator) :
    FieldInfo.Describes marker t f d
      { name := d.name, type := f.ty.signature marker, version := (marker.parse t.name).version
        isPublic := f.modifiers.isPublic } where
  name := rfl
  type := rfl
  version := rfl
  isPublic := by simp [Modifiers.isPublic]

namespace ClassInfo

variable (marker : Marker) (units : List CompilationUnit) (base : String)

theorem lists_methods : (ofDeclarations marker base (declarations marker units base)).methods.Lists
    (fun d => d.2.name) (fun d info => info.Describes marker d.1 d.2)
    (ownMethods marker units base) := by
  have hmethods : (ofDeclarations marker base (declarations marker units base)).methods =
      Entries.collect ((ownMethods marker units base).map fun d =>
        (d.2.name, d.2.info marker (marker.parse d.1.name).version)) := by
    rw [methods_ofDeclarations, ownMethods, List.map_flatMap, List.map_flatMap]
    simp [TypeDecl.methodInfos, Function.comp_def, MethodDecl.info]
  rw [hmethods]
  exact Entries.lists_collect _ (fun d => d.2.info_describes marker d.1) _

theorem lists_fields : (ofDeclarations marker base (declarations marker units base)).fields.Lists
    (fun d => d.2.2.name) (fun d info => info.Describes marker d.1 d.2.1 d.2.2)
    (ownFields marker units base) := by
  have hfields : (ofDeclarations marker base (declarations marker units base)).fields =
      Entries.collect ((ownFields marker units base).map fun d =>
        (d.2.2.name,
          { name := d.2.2.name, type := d.2.1.ty.signature marker
            version := (marker.parse d.1.name).version, isPublic := d.2.1.modifiers.isPublic })) := by
    rw [fields_ofDeclarations, ownFields, List.map_flatMap, List.map_flatMap]
    simp [TypeDecl.fieldInfos, FieldDecl.infos, List.map_flatMap, Function.comp_def]
  rw [hfields]
  exact Entries.lists_collect _ (fun d => d.2.1.info_describes marker d.1 d.2.2) _

theorem records_ofDeclarations :
    (ofDeclarations marker base (declarations marker units base)).Records marker units base where
  baseName := baseName_ofDeclarations
  isVersioned := by
    have hnumbered : ∀ v : Version, v.isNumbered = true ↔ ∃ n, v = .numbered n := by
      intro v
      cases v <;> simp [Version.isNumbered, Version.ordinal?]
    simp only [isVersioned_ofDeclarations, List.any_eq_true, Marker.isVersioned, hnumbered]
  methods := lists_methods marker units base
  fields := lists_fields marker units base

/-- Constructors and nested types are passed over. -/
theorem addType_indexed (t : TypeDecl) (c : ClassInfo) :
    addType marker t.indexed c = addType marker t c := by
  have hall : ∀ (version : Version) (ms : List Member) (c : ClassInfo),
      (ms.filter Member.isIndexed).foldl (addMember marker version) c =
        ms.foldl (addMember marker version) c := by
    intro version ms
    induction ms with
    | nil => exact fun _ => rfl
    | cons m rest ih =>
      intro c
      cases m <;> simp [List.filter_cons, Member.isIndexed, addMember, ih]
  exact hall _ t.members _

end ClassInfo

namespace SymbolTable

theorem addUnit_indexed (marker : Marker) (table : SymbolTable) (u : CompilationUnit) :
    addUnit marker table u.indexed = addUnit marker table u := by
  have htype : ∀ (table : SymbolTable) (t : TypeDecl),
      addType marker table t.indexed = addType marker table t := by
    intro table t
    have hclass : ClassInfo.addType marker t.indexed = ClassInfo.addType marker t :=
      funext (ClassInfo.addType_indexed marker t)
    rw [addType, addType, hclass]
    rfl
  simp only [addUnit_eq_foldl, CompilationUnit.indexed, List.foldl_map, htype]

theorem nodup_keys_build (marker : Marker) (units : List CompilationUnit) :
    (build marker units).classes.keys.Nodup := by
  have hall : ∀ (ts : List TypeDecl) (table : SymbolTable), table.classes.keys.Nodup →
      (ts.foldl (addType marker) table).classes.keys.Nodup := by
    intro ts
    induction ts with
    | nil => exact fun _ h => h
    | cons t rest ih => exact fun table h => ih _ (Entries.nodup_keys_alter _ _ h)
  rw [build_eq_foldl]
  exact hall _ _ List.nodup_nil

theorem isSome_get?_build (marker : Marker) (units : List CompilationUnit) (base : String) :
    ((build marker units).get? base).isSome = true ↔
      ∃ u ∈ units, ∃ t ∈ u.types, marker.baseName t.name = base := by
  have hmem : declarations marker units base ≠ [] ↔
      ∃ u ∈ units, ∃ t ∈ u.types, marker.baseName t.name = base := by
    simp only [declarations, ne_eq, List.filter_eq_nil_iff, List.mem_flatMap, decide_eq_true_eq]
    grind
  rw [get?_build, ← hmem]
  cases declarations marker units base <;> simp

theorem build_eq_foldl_addUnit (marker : Marker) (units : List CompilationUnit) :
    build marker units = units.foldl (addUnit marker) {} := by
  have hadd : addUnit marker = fun table u => u.types.foldl (addType marker) table := by
    funext table u
    exact addUnit_eq_foldl marker table u
  rw [build_eq_foldl, List.foldl_flatMap, hadd]

/--
The table is exactly the declarations: a base name has an entry when a top-level type has it, and
the entry says what those types directly declare, in source order. Constructors and nested types
leave no trace, and units that come later only add. After any units the visitor has nothing in hand
but the table, so that no unit has a say in what another one adds.
-/
theorem build_exact (marker : Marker) (units : List CompilationUnit) :
    let table := build marker units
    table.classes.keys.Nodup ∧
      (∀ base, (table.get? base).isSome = true ↔
        ∃ u ∈ units, ∃ t ∈ u.types, marker.baseName t.name = base) ∧
      (∀ base, ∀ c ∈ table.get? base, c.Records marker units base) ∧
      build marker (units.map CompilationUnit.indexed) = table ∧
      (forM units (Indexing.addUnit marker)).run {} = ((), { table }) ∧
      ∀ later, build marker (units ++ later) = later.foldl (addUnit marker) table := by
  refine ⟨nodup_keys_build marker units, isSome_get?_build marker units, fun base c hc => ?_, ?_, ?_,
    fun later => ?_⟩
  · rw [get?_build_eq_some hc]
    exact ClassInfo.records_ofDeclarations marker units base
  · simp only [build_eq_foldl_addUnit, List.foldl_map, addUnit_indexed]
  · rw [Indexing.run_units, build_eq_foldl]
  · rw [build_eq_foldl_addUnit, List.foldl_append, build_eq_foldl_addUnit]

end SymbolTable

end VersionWeave
