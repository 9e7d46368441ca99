import VersionWeave.Pinning
import VersionWeave.Proofs.Tree.Follows

namespace VersionWeave

/-- A switch call that was put in: where it stands, what it is called on, and its ordinal. -/
structure Pin where
  scope : Scope
  receiver : Expr
  ordinal : UInt32

namespace Pinning

/-- Only a call on a variable is pinned, to the version of the one declaration it can mean. -/
theorem pin?_eq_some_iff {s : Scope} {x : Stmt} {r : Expr} {n : UInt32} :
    pin? s x = some (r, n) ↔ ∃ v name args m, x = .expr (.call (some (.ident v)) name args) ∧
      r = .ident v ∧ s.target? (some (.ident v)) name args = some m ∧
      m.version.ordinal? = some n := by
  constructor
  · intro h
    simp only [pin?, Option.bind_eq_bind, Option.bind_eq_some_iff, Option.pure_def,
      Option.some.injEq, Prod.mk.injEq, Prod.exists] at h
    obtain ⟨receiver, name, args, hx, m, hm, r', rfl, n', hn, rfl, rfl⟩ := h
    obtain ⟨v, hv, -⟩ := Option.bind_eq_some_iff.mp hm
    obtain rfl : r' = .ident v := by
      cases r' <;> simp_all [Expr.ident?]
    unfold Stmt.call? at hx
    split at hx
    next =>
      cases Option.some.inj hx
      exact ⟨v, name, args, m, rfl, rfl, hm, hn⟩
    next => simp at hx
  · rintro ⟨v, name, args, m, rfl, rfl, hm, hn⟩
    simp [pin?, Stmt.call?, hm, hn]

/-- What pinning does in one scope, told how many loop headers are around. -/
def editor (naming : Naming) (s : Scope) : Editor where
  type := TypeRef.normalize s.marker
  stmt headers x :=
    match pin? s x with
    | none => .keep x
    | some (receiver, ordinal) =>
      if headers > 0 then .splice [.expr (naming.switchCall receiver ordinal), x]
      else .keep (.block [.expr (naming.switchCall receiver ordinal), x])

theorem editor_stmt_of_none {naming : Naming} {s : Scope} {x : Stmt} (hp : pin? s x = none)
    (h : Nat) : (editor naming s).stmt h x = .keep x := by
  simp only [editor, hp]

theorem editor_stmt_zero {naming : Naming} {s : Scope} {x : Stmt} {r : Expr} {n : UInt32}
    (hp : pin? s x = some (r, n)) :
    (editor naming s).stmt 0 x = .keep (.block [.expr (naming.switchCall r n), x]) := by
  simp only [editor, hp, gt_iff_lt, Nat.lt_irrefl, if_false]

theorem editor_stmt_succ {naming : Naming} {s : Scope} {x : Stmt} {r : Expr} {n : UInt32}
    (hp : pin? s x = some (r, n)) (h : Nat) :
    (editor naming s).stmt (h + 1) x = .splice [.expr (naming.switchCall r n), x] := by
  simp only [editor, hp, gt_iff_lt, Nat.zero_lt_succ, if_true]

def notes (s : Scope) : Notes Pin where
  stmt _ x := (pin? s x).toList.map fun p => { scope := s, receiver := p.1, ordinal := p.2 }

/-- The switch calls that pinning puts into a unit, in the order in which they are put in. -/
def pins (naming : Naming) (s : Scope) (u : CompilationUnit) : List Pin :=
  u.notes (editor naming) notes s

mutual

theorem run_typeRef (naming : Naming) (st : Pinning) : ∀ t : TypeRef,
    (t.revise (reviser naming)).run st = (t.normalize st.scope.marker, st)
  | ⟨name, args, dims⟩ => by
    simp only [TypeRef.revise, TypeRef.normalize, run_bind, run_typeRefs naming st args]
    rfl

theorem run_typeRefs (naming : Naming) (st : Pinning) : ∀ ts : List TypeRef,
    (TypeRef.reviseAll (reviser naming) ts).run st = (TypeRef.normalizeAll st.scope.marker ts, st)
  | [] => rfl
  | t :: rest => by
    simp only [TypeRef.reviseAll, TypeRef.normalizeAll, run_bind, run_pure,
      run_typeRef naming st t, run_typeRefs naming st rest]

end

theorem run_pin (naming : Naming) (x : Stmt) (st : Pinning) :
    (pin naming x).run st = ((editor naming st.scope).stmt st.headers x,
      { st with pinned := st.pinned + ((notes st.scope).stmt st.headers x).length }) := by
  have hget : (get : StateM Pinning Pinning).run st = (st, st) := rfl
  cases hp : pin? st.scope x with
  | none => simp only [pin, editor, notes, run_bind, hget, hp, run_pure]; rfl
  | some p =>
    by_cases hh : st.headers > 0
    · simp only [pin, editor, notes, run_bind, hget, hp, hh, if_true]; rfl
    · simp only [pin, editor, notes, run_bind, hget, hp, hh, if_false]; rfl

/-- A statement that cannot be pinned stays, and nothing is counted. -/
theorem run_pin_eq_keep_iff {naming : Naming} {x : Stmt} {st : Pinning} :
    (pin naming x).run st = (.keep x, st) ↔ pin? st.scope x = none := by
  rw [run_pin]
  constructor
  · intro h
    have hcount : st.pinned + ((notes st.scope).stmt st.headers x).length = st.pinned :=
      congrArg (fun r => r.2.pinned) h
    cases hp : pin? st.scope x with
    | none => rfl
    | some p => simp [notes, hp] at hcount
  · intro hp
    rw [editor_stmt_of_none hp]
    simp [notes, hp]

theorem reviser_follows (naming : Naming) (count : Nat) {ι : Type} {tally : Scope → Notes ι}
    (htally : ∀ s, (tally s).Tallies (notes s)) :
    (reviser naming).Follows (editor naming) tally fun s h l => ⟨s, h, count + l.length⟩ where
  enterType _ _ _ _ := rfl
  leaveType _ _ _ _ := rfl
  enterMethod _ _ _ _ := rfl
  leaveMethod _ _ _ _ := rfl
  enterConstructor _ _ _ _ := rfl
  leaveConstructor _ _ _ _ := rfl
  enterForInit _ _ _ := rfl
  leaveForInit _ _ _ := rfl
  unit _ := rfl
  typeDecl _ := rfl
  member _ := rfl
  target _ := rfl
  type t s h l := run_typeRef naming _ t
  expr e s h l := by
    simp only [reviser, editor, run_pure, List.length_append, (htally s).expr, notes,
      List.length_nil, Nat.add_zero, id]
  stmt x s h l := by
    simp only [reviser, run_pin, List.length_append, (htally s).stmt, Nat.add_assoc]

/-- Pinning a unit gives the editor's tree and counts the switch calls put in. -/
theorem run_reviser (naming : Naming) (u : CompilationUnit) (s : Scope) (count : Nat) :
    (u.revise (reviser naming)).run { scope := s, pinned := count } =
      (u.edit (editor naming) s, { scope := s, pinned := count + (pins naming s u).length }) := by
  have h := (reviser_follows naming count fun s => ⟨fun _ => rfl, fun _ _ => rfl⟩).run_unit u s []
  simpa only [pins, List.length_nil, Nat.add_zero, List.nil_append] using h

theorem length_pins (naming : Naming) {ι : Type} {tally : Scope → Notes ι}
    (htally : ∀ s, (tally s).Tallies (notes s)) (u : CompilationUnit) (s : Scope) :
    (pins naming s u).length = (u.notes (editor naming) tally s).length := by
  have hpins := run_reviser naming u s 0
  have htallied := (reviser_follows naming 0 htally).run_unit u s []
  have hsame := congrArg (fun r => r.2.pinned) (hpins.symm.trans htallied)
  simpa only [List.nil_append, Nat.zero_add] using hsame

end Pinning

end VersionWeave
