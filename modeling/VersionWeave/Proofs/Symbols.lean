import VersionWeave.Proofs.Symbols.Indexed

namespace VersionWeave

/-- The top-level types of a batch that are declared under a base name. -/
def declarations (marker : Marker) (units : List CompilationUnit) (base : String) : List TypeDecl :=
  (units.flatMap CompilationUnit.types).filter fun t => marker.baseName t.name = base

namespace TypeDecl

def methodInfos (marker : Marker) (t : TypeDecl) : List MethodInfo :=
  t.methods.map (MethodDecl.info marker (marker.parse t.name).version)

def fieldInfos (marker : Marker) (t : TypeDecl) : List FieldInfo :=
  t.fields.flatMap (FieldDecl.infos marker (marker.parse t.name).version)

end TypeDecl

namespace ClassInfo

variable {marker : Marker}

theorem methods_addMembers (version : Version) (members : List Member) :
    ∀ c : ClassInfo, (members.foldl (addMember marker version) c).methods =
      ((members.filterMap Member.method?).map fun m => (m.name, m.info marker version)).foldl
        (fun es b => es.push b.1 b.2) c.methods := by
  induction members with
  | nil => exact fun _ => rfl
  | cons m rest ih =>
    intro c
    cases m <;> simp [ih, addMember, addMethod, addFields, Member.method?, List.filterMap_cons]

theorem fields_addMembers (version : Version) (members : List Member) :
    ∀ c : ClassInfo, (members.foldl (addMember marker version) c).fields =
      (((members.filterMap Member.field?).flatMap (FieldDecl.infos marker version)).map
        fun i => (i.name, i)).foldl (fun es b => es.push b.1 b.2) c.fields := by
  induction members with
  | nil => exact fun _ => rfl
  | cons m rest ih =>
    intro c
    cases m <;> simp [ih, addMember, addMethod, addFields, Member.field?, List.filterMap_cons,
      List.foldl_map]

theorem header_addMembers (marker : Marker) (version : Version) (members : List Member) :
    ∀ c : ClassInfo, (members.foldl (addMember marker version) c).baseName = c.baseName ∧
      (members.foldl (addMember marker version) c).isVersioned = c.isVersioned := by
  induction members with
  | nil => exact fun _ => ⟨rfl, rfl⟩
  | cons m rest ih => intro c; cases m <;> simp [ih, addMember, addMethod, addFields]

theorem methodsNamed_addType (t : TypeDecl) (c : ClassInfo) (name : String) :
    (addType marker t c).methodsNamed name =
      c.methodsNamed name ++ (t.methodInfos marker).filter fun m => m.name = name := by
  simp only [methodsNamed, addType, methods_addMembers, Entries.getD_get?_foldl_push,
    TypeDecl.methodInfos, TypeDecl.methods, List.filter_map, List.map_map]
  rfl

theorem fieldsNamed_addType (t : TypeDecl) (c : ClassInfo) (name : String) :
    (addType marker t c).fieldsNamed name =
      c.fieldsNamed name ++ (t.fieldInfos marker).filter fun f => f.name = name := by
  simp only [fieldsNamed, addType, fields_addMembers, Entries.getD_get?_foldl_push,
    TypeDecl.fieldInfos, TypeDecl.fields, List.filter_map, List.map_map]
  simp [Function.comp_def, mark]

/-- What a list of declarations under one base name adds up to. -/
def ofDeclarations (marker : Marker) (base : String) (ts : List TypeDecl) : ClassInfo :=
  ts.foldl (fun c t => addType marker t c) { baseName := base }

/-- The record of a class says what its declarations say, in their order. -/
theorem foldl_addType (ts : List TypeDecl) : ∀ c : ClassInfo,
    let total := ts.foldl (fun c t => addType marker t c) c
    total.baseName = c.baseName ∧
      total.isVersioned = (c.isVersioned || ts.any fun t => marker.isVersioned t.name) ∧
      (∀ name, total.methodsNamed name =
        c.methodsNamed name ++ (ts.flatMap (·.methodInfos marker)).filter fun m => m.name = name) ∧
      ∀ name, total.fieldsNamed name =
        c.fieldsNamed name ++ (ts.flatMap (·.fieldInfos marker)).filter fun f => f.name = name := by
  induction ts with
  | nil => simp
  | cons t rest ih =>
    intro c
    obtain ⟨hbase, hversioned, hmethods, hfields⟩ := ih (addType marker t c)
    have hheader := header_addMembers marker (marker.parse t.name).version t.members
      (c.mark (marker.parse t.name).version)
    refine ⟨hbase.trans hheader.1, ?_, fun name => ?_, fun name => ?_⟩
    · rw [List.foldl_cons, hversioned, addType, hheader.2, mark, List.any_cons, Bool.or_assoc,
        Marker.isVersioned]
    · rw [List.foldl_cons, hmethods, methodsNamed_addType, List.flatMap_cons, List.filter_append,
        List.append_assoc]
    · rw [List.foldl_cons, hfields, fieldsNamed_addType, List.flatMap_cons, List.filter_append,
        List.append_assoc]

variable {base : String} {ts : List TypeDecl}

@[simp] theorem baseName_ofDeclarations : (ofDeclarations marker base ts).baseName = base :=
  (foldl_addType ts _).1

theorem isVersioned_ofDeclarations :
    (ofDeclarations marker base ts).isVersioned = ts.any fun t => marker.isVersioned t.name :=
  (foldl_addType ts { baseName := base }).2.1.trans (Bool.false_or _)

/-- What each declaration adds to a map of lists, all of them add in their order. -/
theorem collect_ofDeclarations {α : Type} (part : ClassInfo → Entries String (List α))
    (infos : TypeDecl → List (String × α)) (hnew : part { baseName := base } = [])
    (hadd : ∀ t c, part (addType marker t c) =
      (infos t).foldl (fun es b => es.push b.1 b.2) (part c)) :
    part (ofDeclarations marker base ts) = Entries.collect (ts.flatMap infos) := by
  have hall : ∀ (ts : List TypeDecl) (c : ClassInfo),
      part (ts.foldl (fun c t => addType marker t c) c) =
        (ts.flatMap infos).foldl (fun es b => es.push b.1 b.2) (part c) := by
    intro ts
    induction ts with
    | nil => exact fun _ => rfl
    | cons t rest ih =>
      intro c
      rw [List.foldl_cons, ih, hadd, List.flatMap_cons, List.foldl_append]
  rw [ofDeclarations, hall, hnew, Entries.collect]

theorem methods_ofDeclarations : (ofDeclarations marker base ts).methods =
    Entries.collect ((ts.flatMap (·.methodInfos marker)).map fun i => (i.name, i)) := by
  rw [collect_ofDeclarations methods (fun t => (t.methodInfos marker).map fun i => (i.name, i)) rfl
    fun t c => ?_, List.map_flatMap]
  rw [addType, methods_addMembers, TypeDecl.methodInfos, List.map_map]
  rfl

theorem fields_ofDeclarations : (ofDeclarations marker base ts).fields =
    Entries.collect ((ts.flatMap (·.fieldInfos marker)).map fun i => (i.name, i)) := by
  rw [collect_ofDeclarations fields (fun t => (t.fieldInfos marker).map fun i => (i.name, i)) rfl
    fun t c => ?_, List.map_flatMap]
  rw [addType, fields_addMembers]
  rfl

theorem methodsNamed_ofDeclarations (name : String) :
    (ofDeclarations marker base ts).methodsNamed name =
      (ts.flatMap (·.methodInfos marker)).filter fun m => m.name = name :=
  (foldl_addType ts { baseName := base }).2.2.1 name

theorem fieldsNamed_ofDeclarations (name : String) :
    (ofDeclarations marker base ts).fieldsNamed name =
      (ts.flatMap (·.fieldInfos marker)).filter fun f => f.name = name :=
  (foldl_addType ts { baseName := base }).2.2.2 name

end ClassInfo

namespace SymbolTable

variable {marker : Marker} {units : List CompilationUnit} {base : String}

theorem get?_foldl_addType (base : String) (ts : List TypeDecl) (table : SymbolTable) :
    (ts.foldl (addType marker) table).get? base =
      (ts.filter fun t => marker.baseName t.name = base).foldl
        (fun old t => some (ClassInfo.addType marker t (old.getD { baseName := base })))
        (table.get? base) := by
  induction ts generalizing table with
  | nil => rfl
  | cons t rest ih =>
    rw [List.foldl_cons, ih, get?, get?, addType, update, Entries.get?_alter]
    by_cases hb : marker.baseName t.name = base <;> simp [hb]

/-- The table holds the record of a base name as soon as there is a declaration under it. -/
theorem get?_build (marker : Marker) (units : List CompilationUnit) (base : String) :
    (build marker units).get? base =
      if (declarations marker units base).isEmpty then none
      else some (.ofDeclarations marker base (declarations marker units base)) := by
  have hsome : ∀ (ts : List TypeDecl) (c : ClassInfo),
      ts.foldl (fun old t => some (ClassInfo.addType marker t (old.getD { baseName := base })))
        (some c) = some (ts.foldl (fun c t => ClassInfo.addType marker t c) c) := by
    intro ts
    induction ts with
    | nil => exact fun _ => rfl
    | cons t rest ih => exact fun c => ih _
  rw [build_eq_foldl, get?_foldl_addType, declarations]
  cases (units.flatMap CompilationUnit.types).filter fun t => marker.baseName t.name = base with
  | nil => rfl
  | cons t rest => simp [hsome, ClassInfo.ofDeclarations]; rfl

theorem get?_build_eq_some {c : ClassInfo} (h : (build marker units).get? base = some c) :
    c = .ofDeclarations marker base (declarations marker units base) := by
  rw [get?_build] at h
  split at h
  next => simp at h
  next => exact (Option.some.inj h).symm

theorem versioned?_build_eq_some {c : ClassInfo} (h : (build marker units).versioned? base = some c) :
    c = .ofDeclarations marker base (declarations marker units base) :=
  get?_build_eq_some (Option.filter_eq_some_iff.mp h).1

/-- A base name is versioned when some declaration under it carries an ordinal. -/
theorem isVersioned_build_iff : (build marker units).isVersioned base = true ↔
    ∃ t ∈ units.flatMap CompilationUnit.types,
      marker.baseName t.name = base ∧ marker.isVersioned t.name = true := by
  have hany : (build marker units).isVersioned base =
      (declarations marker units base).any fun t => marker.isVersioned t.name := by
    rw [isVersioned, versioned?, get?_build]
    cases hd : declarations marker units base with
    | nil => rfl
    | cons t rest =>
      simp [Option.filter, ClassInfo.isVersioned_ofDeclarations]
      split <;> simp_all
  rw [hany, List.any_eq_true]
  simp only [declarations, List.mem_filter, decide_eq_true_eq, and_assoc]

end SymbolTable

end VersionWeave
