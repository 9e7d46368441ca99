import VersionWeave.Proofs.FieldAccess.Owner
import VersionWeave.Proofs.Meaning.Generated
import VersionWeave.Proofs.Unified.Stubs

namespace VersionWeave

/-- What can be asked of an object of a unified type. -/
inductive Operation where
  | switchTo (version : Int)
  | get (field : String)
  | set (field : String) (value : Value)

namespace Operation

def name (naming : Naming) : Operation → String
  | .switchTo _ => naming.switchMethod
  | .get field => naming.getter field
  | .set field _ => naming.setter field

def args : Operation → List Value
  | .switchTo version => [.int version]
  | .get _ => []
  | .set _ value => [value]

end Operation

namespace TypeDecl

/-- A variable of this name is declared as a public field. -/
def DeclaresPublic (t : TypeDecl) (field : String) : Prop :=
  ∃ f ∈ t.fields, f.modifiers.isPublic = true ∧ field ∈ f.declarators.map Declarator.name

variable (t : TypeDecl) (naming : Naming) (self depth : Nat)

def operate (op : Operation) : Exec Value :=
  t.call self depth (.object self) (op.name naming) op.args

/-- One operation after the other; one that throws leaves its memory to the next. -/
def operateAll (ops : List Operation) (m : Memory) : Memory :=
  ops.foldl (fun m op => (t.operate naming self depth op).after m) m

end TypeDecl

/-- The lowest version that declares a field public. -/
structure VersionDecl.FirstPublic (v : VersionDecl) (vs : List VersionDecl) (field : String) :
    Prop where
  mem : v ∈ vs
  declares : v.decl.DeclaresPublic field
  least : ∀ w ∈ vs, w.decl.DeclaresPublic field → v.ordinal ≤ w.ordinal

theorem VersionDecl.FirstPublic.ordinal_eq {v w : VersionDecl} {vs : List VersionDecl}
    {field : String} (hv : v.FirstPublic vs field) (hw : w.FirstPublic vs field) :
    v.ordinal = w.ordinal :=
  UInt32.le_antisymm (hv.least w hw.mem hw.declares) (hw.least v hv.mem hv.declares)

/-- For every field that some version declares public the table names the lowest such version. -/
def SymbolTable.NamesFirst (table : SymbolTable) (base : String) (vs : List VersionDecl) : Prop :=
  ∀ field, (∃ v ∈ vs, v.decl.DeclaresPublic field) → ∃ owner v info,
    table.get? base = some owner ∧ owner.accessorOwner? field = some (v.ordinal, info) ∧
      VersionDecl.FirstPublic v vs field

/-- There is always a switch; accessors there are for public fields, if the options have them. -/
def Operation.Offered (options : Options) (vs : List VersionDecl) : Operation → Prop
  | .switchTo _ => True
  | .get field | .set field _ =>
    options.generateAccessors = true ∧ ∃ v ∈ vs, v.decl.DeclaresPublic field

/-- Every instance field holds an object of its version's type, and one of them is the active one. -/
structure Memory.Holds (m : Memory) (naming : Naming) (id : Nat) (ordinals : List UInt32)
    (objectOf : UInt32 → Nat) (current : UInt32) : Prop where
  known : current ∈ ordinals
  instances : ∀ n ∈ ordinals, m.fields id (naming.instanceField n) = .object (objectOf n)
  active : m.fields id naming.activeField = .object (objectOf current)
  typed : ∀ n ∈ ordinals, m.objects[objectOf n]? = some (naming.implType n)
  other : ∀ n ∈ ordinals, objectOf n ≠ id

namespace Memory.Holds

variable {m : Memory} {naming : Naming} {self : Nat} {ordinals : List UInt32}
  {objectOf : UInt32 → Nat} {k n : UInt32} (h : m.Holds naming self ordinals objectOf k)
include h

theorem write {id : Nat} (hid : id ≠ self) (name : String) (v : Value) :
    (m.write id name v).Holds naming self ordinals objectOf k := by
  refine ⟨h.known, fun n hn => ?_, ?_, h.typed, h.other⟩
  · rw [fields_write, if_neg fun he => hid he.1.symm, h.instances n hn]
  · rw [fields_write, if_neg fun he => hid he.1.symm, h.active]

theorem allocate (type : String) : (m.allocate type).Holds naming self ordinals objectOf k := by
  refine ⟨h.known, h.instances, h.active, fun n hn => ?_, h.other⟩
  have hin := h.typed n hn
  rw [Memory.allocate, List.getElem?_append_left (List.getElem?_eq_some_iff.mp hin).1, hin]

theorem activate (hapart : naming.Apart) (hn : n ∈ ordinals) :
    (m.activate naming self n).Holds naming self ordinals objectOf n := by
  refine ⟨hn, fun j hj => ?_, ?_, h.typed, h.other⟩
  · rw [Memory.activate, fields_write, if_neg fun he => hapart.active j he.2, h.instances j hj]
  · rw [Memory.activate, fields_write, if_pos ⟨rfl, rfl⟩, h.instances n hn]

/-- Activation writes to the object at work only. -/
theorem fields_activate (hn : n ∈ ordinals) (name : String) (j : UInt32) :
    (m.activate naming self j).fields (objectOf n) name = m.fields (objectOf n) name := by
  rw [Memory.activate, fields_write, if_neg fun he => h.other n hn he.1]

end Memory.Holds

/-- What each operation of a type does to a memory in which a version is the active one. -/
structure TypeDecl.Serves (t : TypeDecl) (options : Options) (vs : List VersionDecl)
    (id depth : Nat) (objectOf : UInt32 → Nat) (current : UInt32) (m : Memory) : Prop where
  switchTo : ∀ v ∈ vs, ∃ m',
    t.operate options.naming id depth (.switchTo v.ordinal.toNat) m = .ok .null m' ∧
      m'.Holds options.naming id (vs.map VersionDecl.ordinal) objectOf v.ordinal
  refuse : ∀ k : Int, (∀ v ∈ vs, (v.ordinal.toNat : Int) ≠ k) → ∃ e m',
    t.operate options.naming id depth (.switchTo k) m = .error (.thrown e) m' ∧
      m'.fields = m.fields ∧
      m'.Holds options.naming id (vs.map VersionDecl.ordinal) objectOf current
  get : options.generateAccessors = true → ∀ field v, VersionDecl.FirstPublic v vs field → ∃ m',
    t.operate options.naming id depth (.get field) m =
        .ok (m.fields (objectOf v.ordinal) field) m' ∧
      m'.Holds options.naming id (vs.map VersionDecl.ordinal) objectOf v.ordinal
  set : options.generateAccessors = true → ∀ field v x, VersionDecl.FirstPublic v vs field → ∃ m',
    t.operate options.naming id depth (.set field x) m = .ok .null m' ∧
      m'.fields (objectOf v.ordinal) field = x ∧
      m'.Holds options.naming id (vs.map VersionDecl.ordinal) objectOf v.ordinal

theorem TypeDecl.call_of_resolve? {t : TypeDecl} {self depth : Nat} {name : String}
    {args : List Value} {d : MethodDecl} (h : t.resolve? name args.length = some d) (m : Memory) :
    t.call self (depth + 1) (.object self) name args m = d.invoke (t.call self depth) self args m := by
  have hstep : t.call self (depth + 1) (.object self) name args = (do
      let d ← Exec.ofOption (t.resolve? name args.length)
      d.invoke (t.call self depth) self args) := if_pos rfl
  rw [hstep, h]
  rfl

/-- What nothing else can be taken for is found wherever it stands. -/
theorem find?_reverse_of_unique {α : Type} {p : α → Bool} {l : List α} {x : α} (hx : x ∈ l)
    (hp : p x = true) (hunique : ∀ y ∈ l, p y = true → y = x) : l.reverse.find? p = some x := by
  have hsome : (l.reverse.find? p).isSome :=
    List.find?_isSome.mpr ⟨x, List.mem_reverse.mpr hx, hp⟩
  obtain ⟨y, hy⟩ := Option.isSome_iff_exists.mp hsome
  rw [hy, hunique y (List.mem_reverse.mp (List.mem_of_find?_eq_some hy)) (List.find?_some hy)]

namespace Accessor

variable {options : Options} {table : SymbolTable} {base : String} {vs : List VersionDecl}

/-- Every accessor method belongs to the pair of some field. -/
theorem exists_of_mem_members {d : MethodDecl}
    (h : d ∈ (members options table base vs).filterMap Member.method?) : ∃ owner field,
      options.generateAccessors = true ∧ table.get? base = some owner ∧
        .method d ∈ pair options.naming owner vs field := by
  obtain ⟨x, hx, hd⟩ := List.mem_filterMap.mp h
  unfold members at hx
  cases hgenerate : options.generateAccessors with
  | false => simp [hgenerate] at hx
  | true =>
    cases hget : table.get? base with
    | none => simp [hgenerate, hget] at hx
    | some owner =>
      simp only [hgenerate, hget] at hx
      obtain ⟨field, -, hx⟩ := List.mem_flatMap.mp hx
      obtain ⟨ty, n, rfl | rfl⟩ := exists_of_mem_pair hx <;>
        exact ⟨owner, field, rfl, rfl, (Option.some.inj hd) ▸ hx⟩

end Accessor

namespace Group.Unified

variable {marker : Marker} {table : SymbolTable} {options : Options} {base : String}
  {vs : List VersionDecl} {outer : TypeDecl} (h : Unified marker table options base vs outer)
  (hapart : options.naming.Apart)
include h hapart

/-- The accessors of a field are found by their names, whatever stubs there are. -/
theorem resolve?_accessors (hgenerate : options.generateAccessors = true) {owner : ClassInfo}
    (howner : table.get? base = some owner) {field : String} {n : UInt32} {info : FieldInfo}
    (hbest : owner.accessorOwner? field = some (n, info)) :
    ∃ ty, outer.resolve? (options.naming.getter field) 0 =
        some (Accessor.getter options.naming field ty n) ∧
      outer.resolve? (options.naming.setter field) 1 =
        some (Accessor.setter options.naming field ty n) := by
  let ty := (Accessor.declaredType? vs n field).getD (.plain info.type)
  have hpair : Accessor.pair options.naming owner vs field =
      [.method (Accessor.getter options.naming field ty n),
        .method (Accessor.setter options.naming field ty n)] := by
    rw [Accessor.pair, hbest]
  have hmem : ∀ d, Member.method d ∈ Accessor.pair options.naming owner vs field →
      d ∈ (Accessor.members options table base vs).filterMap Member.method? := by
    intro d hd
    refine List.mem_filterMap.mpr ⟨.method d, ?_, rfl⟩
    rw [Accessor.members, hgenerate, howner]
    exact List.mem_flatMap.mpr ⟨field, ClassInfo.mem_keys_of_accessorOwner? hbest, hd⟩
  -- Stubs stand before the accessors, so that the search from the end meets the accessors first.
  have hlast : ∀ {name : String} {arity : Nat} {d : MethodDecl},
      ((Accessor.members options table base vs).filterMap Member.method?).reverse.find?
        (fun m => m.name = name ∧ m.params.length = arity) = some d →
      outer.resolve? name arity = some d := by
    intro name arity d hd
    rw [TypeDecl.resolve?, h.methods, List.reverse_cons, List.reverse_append, List.append_assoc,
      List.find?_append, hd, Option.some_or]
  have hfound : ∀ d ∈ (Accessor.members options table base vs).filterMap Member.method?,
      d.name = options.naming.getter field ∨ d.name = options.naming.setter field →
        d = Accessor.getter options.naming field ty n ∨
          d = Accessor.setter options.naming field ty n := by
    intro d hd hname
    obtain ⟨owner', field', -, howner', hd⟩ := Accessor.exists_of_mem_members hd
    cases howner.symm.trans howner'
    have hfield : field' = field := by
      obtain ⟨ty', n', heq | heq⟩ := Accessor.exists_of_mem_pair hd
      · cases heq
        exact hname.elim (String.append_right_inj _).mp fun hs =>
          absurd hs (hapart.accessors field' field)
      · cases heq
        exact hname.elim (fun hg => absurd hg.symm (hapart.accessors field field'))
          (String.append_right_inj _).mp
    rw [hfield, hpair] at hd
    simpa using hd
  refine ⟨ty, hlast (find?_reverse_of_unique (hmem _ (by simp [hpair]))
    (by simp [Accessor.getter]) fun d hd hname => ?_),
    hlast (find?_reverse_of_unique (hmem _ (by simp [hpair])) (by simp [Accessor.setter])
      fun d hd hname => ?_)⟩
  · have hname : d.name = options.naming.getter field := (of_decide_eq_true hname).1
    refine (hfound d hd (.inl hname)).resolve_right fun heq => ?_
    exact hapart.accessors field field (hname.symm.trans (congrArg MethodDecl.name heq))
  · have hname : d.name = options.naming.setter field := (of_decide_eq_true hname).1
    refine (hfound d hd (.inr hname)).resolve_left fun heq => ?_
    exact hapart.accessors field field ((congrArg MethodDecl.name heq).symm.trans hname)

variable (hfree : ∀ v ∈ vs, ∀ d ∈ v.decl.methods, d.name ≠ options.naming.switchMethod)
include hfree

theorem resolve?_switchMethod : outer.resolve? options.naming.switchMethod 1 =
    some (Skeleton.switchMethod options.naming (vs.map VersionDecl.ordinal)) := by
  refine find?_reverse_of_unique (by rw [h.methods]; exact List.mem_cons_self)
    (by simp [Skeleton.switchMethod]) fun d hd hname => ?_
  rw [h.methods, List.mem_cons, List.mem_append] at hd
  have hname : d.name = options.naming.switchMethod := (of_decide_eq_true hname).1
  rcases hd with rfl | hd | hd
  · rfl
  · obtain ⟨g, hg, hstub⟩ := List.mem_filterMap.mp hd
    obtain ⟨⟨n, m⟩, others, hgroup, -, rfl⟩ := Stub.exists_of_ofGroup? hstub
    have hm : (n, m) ∈ numberedMethods vs := by
      have hin : (n, m) ∈ g.2 := hgroup ▸ List.mem_cons_self
      rw [(mem_signatureGroups.mp hg).1] at hin
      exact (List.mem_filter.mp hin).1
    obtain ⟨v, hv, hm⟩ := List.mem_flatMap.mp hm
    obtain ⟨m', hm', heq⟩ := List.mem_map.mp hm
    cases heq
    exact absurd hname (hfree v hv m hm')
  · obtain ⟨owner, field, -, -, hpair⟩ := Accessor.exists_of_mem_members hd
    obtain ⟨ty, n, heq | heq⟩ := Accessor.exists_of_mem_pair hpair
    · cases heq
      exact absurd hname (hapart.getter field)
    · cases heq
      exact absurd hname (hapart.setter field)

variable {self depth : Nat} {objectOf : UInt32 → Nat} {m : Memory} {k : UInt32}

theorem call_switchMethod {n : UInt32} (hn : n ∈ vs.map VersionDecl.ordinal) (m : Memory) :
    outer.call self (depth + 1) (.object self) options.naming.switchMethod [ordinalValue n] m =
      .ok .null (m.activate options.naming self n) := by
  rw [TypeDecl.call_of_resolve? (resolve?_switchMethod h hapart hfree)]
  exact Skeleton.invoke_switchMethod options.naming hn

/-- Where the instances are held, every operation answers and leaves them held. -/
theorem serves (hfirst : table.NamesFirst base vs)
    (hm : m.Holds options.naming self (vs.map VersionDecl.ordinal) objectOf k) :
    outer.Serves options vs self (depth + 2) objectOf k m := by
  have hordinal : ∀ v ∈ vs, v.ordinal ∈ vs.map VersionDecl.ordinal := fun v hv =>
    List.mem_map.mpr ⟨v, hv, rfl⟩
  have haccessors : options.generateAccessors = true → ∀ field v,
      VersionDecl.FirstPublic v vs field → ∃ ty,
        outer.resolve? (options.naming.getter field) 0 =
            some (Accessor.getter options.naming field ty v.ordinal) ∧
          outer.resolve? (options.naming.setter field) 1 =
            some (Accessor.setter options.naming field ty v.ordinal) := by
    intro hgenerate field v hv
    obtain ⟨owner, w, info, howner, hbest, hw⟩ := hfirst field ⟨v, hv.mem, hv.declares⟩
    rw [hv.ordinal_eq hw]
    exact resolve?_accessors h hapart hgenerate howner hbest
  refine ⟨fun v hv => ⟨_, ?_, hm.activate hapart (hordinal v hv)⟩, fun j hj => ?_,
    fun hgenerate field v hv => ?_, fun hgenerate field v x hv => ?_⟩
  · exact call_switchMethod h hapart hfree (hordinal v hv) m
  · have hunknown : ∀ n ∈ vs.map VersionDecl.ordinal, ordinalValue n ≠ .int j := by
      intro n hn
      obtain ⟨v, hv, rfl⟩ := List.mem_map.mp hn
      exact fun heq => hj v hv (Value.int.inj heq)
    refine ⟨.object m.objects.length, m.allocate "IllegalArgumentException", ?_, rfl, hm.allocate _⟩
    exact (TypeDecl.call_of_resolve? (resolve?_switchMethod h hapart hfree) m).trans
      (Skeleton.invoke_switchMethod_unknown options.naming hunknown)
  · obtain ⟨ty, hgetter, -⟩ := haccessors hgenerate field v hv
    have hactive := hm.activate hapart (hordinal v hv.mem)
    refine ⟨_, ?_, hactive⟩
    rw [← hm.fields_activate (hordinal v hv.mem) field v.ordinal]
    refine (TypeDecl.call_of_resolve? hgetter m).trans (Accessor.invoke_getter
      (fun m => ?_) (hactive.instances v.ordinal (hordinal v hv.mem)))
    exact call_switchMethod h hapart hfree (hordinal v hv.mem) m
  · obtain ⟨ty, -, hsetter⟩ := haccessors hgenerate field v hv
    have hactive := hm.activate hapart (hordinal v hv.mem)
    refine ⟨_, ?_, ?_, hactive.write (hm.other v.ordinal (hordinal v hv.mem)) field x⟩
    · refine (TypeDecl.call_of_resolve? hsetter m).trans (Accessor.invoke_setter
        (fun m => ?_) (hactive.instances v.ordinal (hordinal v hv.mem)) x)
      exact call_switchMethod h hapart hfree (hordinal v hv.mem) m
    · rw [Memory.fields_write, if_pos ⟨rfl, rfl⟩]

end Group.Unified

namespace TypeDecl

variable {t : TypeDecl} {options : Options} {vs : List VersionDecl} {id depth : Nat}
  {objectOf : UInt32 → Nat} {k : UInt32} {m : Memory}

/-- One operation, whatever it answers, leaves some version active. -/
theorem Serves.holds_after (h : t.Serves options vs id depth objectOf k m)
    (hfirst : ∀ field, (∃ v ∈ vs, v.decl.DeclaresPublic field) →
      ∃ v, VersionDecl.FirstPublic v vs field)
    {op : Operation} (hop : op.Offered options vs) :
    ∃ n, ((t.operate options.naming id depth op).after m).Holds options.naming id
      (vs.map VersionDecl.ordinal) objectOf n := by
  cases op with
  | switchTo j =>
    by_cases hj : ∃ v ∈ vs, (v.ordinal.toNat : Int) = j
    · obtain ⟨v, hv, rfl⟩ := hj
      obtain ⟨m', hrun, hm'⟩ := h.switchTo v hv
      exact ⟨v.ordinal, by rwa [Exec.after, hrun]⟩
    · obtain ⟨e, m', hrun, -, hm'⟩ := h.refuse j fun v hv heq => hj ⟨v, hv, heq⟩
      exact ⟨k, by rwa [Exec.after, hrun]⟩
  | get field =>
    obtain ⟨v, hv⟩ := hfirst field hop.2
    obtain ⟨m', hrun, hm'⟩ := h.get hop.1 field v hv
    exact ⟨v.ordinal, by rwa [Exec.after, hrun]⟩
  | set field x =>
    obtain ⟨v, hv⟩ := hfirst field hop.2
    obtain ⟨m', hrun, -, hm'⟩ := h.set hop.1 field v x hv
    exact ⟨v.ordinal, by rwa [Exec.after, hrun]⟩

end TypeDecl

/-- After any operations some version is active and every operation still answers. -/
theorem Group.Unified.serves_operateAll {marker : Marker} {table : SymbolTable} {options : Options}
    {base : String} {vs : List VersionDecl} {outer : TypeDecl}
    (h : Unified marker table options base vs outer) (hapart : options.naming.Apart)
    (hfree : ∀ v ∈ vs, ∀ d ∈ v.decl.methods, d.name ≠ options.naming.switchMethod)
    (hfirst : table.NamesFirst base vs) {self depth : Nat} {objectOf : UInt32 → Nat}
    {ops : List Operation} (hops : ∀ op ∈ ops, op.Offered options vs) :
    ∀ {m : Memory} {k : UInt32},
      m.Holds options.naming self (vs.map VersionDecl.ordinal) objectOf k → ∃ n,
        (outer.operateAll options.naming self (depth + 2) ops m).Holds options.naming self
            (vs.map VersionDecl.ordinal) objectOf n ∧
          outer.Serves options vs self (depth + 2) objectOf n
            (outer.operateAll options.naming self (depth + 2) ops m) := by
  induction ops with
  | nil => exact fun hm => ⟨_, hm, serves h hapart hfree hfirst hm⟩
  | cons op rest ih =>
    intro m k hm
    obtain ⟨hop, hrest⟩ := List.forall_mem_cons.mp hops
    have hexists : ∀ field, (∃ v ∈ vs, v.decl.DeclaresPublic field) →
        ∃ v, VersionDecl.FirstPublic v vs field := by
      intro field hdeclared
      obtain ⟨-, v, -, -, -, hv⟩ := hfirst field hdeclared
      exact ⟨v, hv⟩
    have hserves : outer.Serves options vs self (depth + 2) objectOf k m :=
      serves h hapart hfree hfirst hm
    obtain ⟨n, hn⟩ := hserves.holds_after hexists hop
    exact ih hrest hn

end VersionWeave
