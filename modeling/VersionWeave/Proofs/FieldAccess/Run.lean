import VersionWeave.FieldAccess
import VersionWeave.Proofs.Tree.Follows

namespace VersionWeave

/-- An access that gave way to accessor calls: where it stands, its receiver and its field. -/
structure Access where
  scope : Scope
  receiver : Expr
  field : String

namespace FieldAccess

/-- The access that an expression reads, or that it writes to as an assignment or a step. -/
def replacedAccess? (s : Scope) : Expr → Option (Expr × String)
  | .assign target _ _ => s.accessed? target
  | .unary op operand => (stepOp? op).bind fun _ => s.accessed? operand
  | e => s.accessed? e

theorem replacement?_isSome (naming : Naming) (s : Scope) (e : Expr) :
    (replacement? naming s e).isSome = (replacedAccess? s e).isSome := by
  cases e with
  | unary op operand =>
    cases op <;> simp [replacement?, replacedAccess?, stepOp?]
  | _ => simp [replacement?, replacedAccess?]

/-- What field revision does in one scope. -/
def editor (naming : Naming) (s : Scope) : Editor where
  expr e := (replacement? naming s e).getD e

def notes (s : Scope) : Notes Access where
  expr e := (replacedAccess? s e).toList.map fun a => { scope := s, receiver := a.1, field := a.2 }

/-- The accesses of a unit that give way to accessor calls, in the order in which they do. -/
def accesses (naming : Naming) (s : Scope) (u : CompilationUnit) : List Access :=
  u.notes (editor naming) notes s

mutual

theorem run_typeRef (naming : Naming) (st : FieldAccess) : ∀ t : TypeRef,
    (t.revise (reviser naming)).run st = (t, st)
  | ⟨name, args, dims⟩ => by
    simp only [TypeRef.revise, run_bind, run_typeRefs naming st args]
    rfl

theorem run_typeRefs (naming : Naming) (st : FieldAccess) : ∀ ts : List TypeRef,
    (TypeRef.reviseAll (reviser naming) ts).run st = (ts, st)
  | [] => rfl
  | t :: rest => by
    simp only [TypeRef.reviseAll, run_bind, run_pure, run_typeRef naming st t,
      run_typeRefs naming st rest]

end

theorem run_replace (naming : Naming) (e : Expr) (st : FieldAccess) :
    (replace naming e).run st = ((editor naming st.scope).expr e,
      { st with replaced := st.replaced + ((notes st.scope).expr e).length }) := by
  have hget : (get : StateM FieldAccess FieldAccess).run st = (st, st) := rfl
  have hsome := replacement?_isSome naming st.scope e
  cases hp : replacement? naming st.scope e with
  | none =>
    have hn : replacedAccess? st.scope e = none := by simpa [hp] using hsome.symm
    simp only [replace, editor, notes, run_bind, hget, hp, hn, run_pure]
    rfl
  | some e' =>
    obtain ⟨a, ha⟩ := Option.isSome_iff_exists.mp (hsome.symm.trans (by rw [hp]; rfl))
    simp only [replace, editor, notes, run_bind, hget, hp, ha]
    rfl

theorem reviser_follows (naming : Naming) (count : Nat) {ι : Type} {tally : Scope → Notes ι}
    (htally : ∀ s, (tally s).Tallies (notes s)) :
    (reviser naming).Follows (editor naming) tally fun s _ l => ⟨s, count + l.length⟩ where
  enterType _ _ _ _ := rfl
  leaveType _ _ _ _ := rfl
  enterMethod _ _ _ _ := rfl
  leaveMethod _ _ _ _ := rfl
  enterConstructor _ _ _ _ := rfl
  leaveConstructor _ _ _ _ := rfl
  enterForInit _ _ _ := rfl
  leaveForInit _ _ _ := rfl
  unit _ := rfl
  typeDecl _ := rfl
  member _ := rfl
  target _ := rfl
  type t s h l := run_typeRef naming _ t
  expr e s h l := by
    simp only [reviser, run_replace, List.length_append, (htally s).expr, Nat.add_assoc]
  stmt x s h l := by
    simp only [reviser, editor, run_pure, List.length_append, (htally s).stmt, notes,
      List.length_nil, Nat.add_zero]

/-- Field revision of a unit gives the editor's tree and counts the accesses that gave way. -/
theorem run_reviser (naming : Naming) (u : CompilationUnit) (s : Scope) (count : Nat) :
    (u.revise (reviser naming)).run { scope := s, replaced := count } =
      (u.edit (editor naming) s,
        { scope := s, replaced := count + (accesses naming s u).length }) := by
  have h := (reviser_follows naming count fun s => ⟨fun _ => rfl, fun _ _ => rfl⟩).run_unit u s []
  simpa only [accesses, List.length_nil, Nat.add_zero, List.nil_append] using h

theorem length_accesses (naming : Naming) {ι : Type} {tally : Scope → Notes ι}
    (htally : ∀ s, (tally s).Tallies (notes s)) (u : CompilationUnit) (s : Scope) :
    (accesses naming s u).length = (u.notes (editor naming) tally s).length := by
  have haccesses := run_reviser naming u s 0
  have htallied := (reviser_follows naming 0 htally).run_unit u s []
  have hsame := congrArg (fun r => r.2.replaced) (haccesses.symm.trans htallied)
  simpa only [List.nil_append, Nat.zero_add] using hsame

end FieldAccess

end VersionWeave
