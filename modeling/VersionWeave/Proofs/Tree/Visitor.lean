import VersionWeave.Tree.Outline

namespace VersionWeave

variable {σ : Type}

theorem run_bind {α β : Type} (x : StateM σ α) (f : α → StateM σ β) (st : σ) :
    (x >>= f).run st = (f (x.run st).1).run (x.run st).2 := rfl

theorem run_pure {α : Type} (a : α) (st : σ) : (pure a : StateM σ α).run st = (a, st) := rfl

namespace Outline

variable {v : Visitor σ} {n : Node} {st st' st'' : σ}

theorem run_visit_of_stop (children : List Outline) (h : (v.enter n).run st = (.stop, st')) :
    ((node n children).visit v).run st = (false, st') := by
  rw [visit, run_bind, h]
  rfl

theorem run_visit_of_skip (children : List Outline) (h : (v.enter n).run st = (.skip, st')) :
    ((node n children).visit v).run st = (true, ((v.leave n).run st').2) := by
  rw [visit, run_bind, h]
  rfl

theorem run_visit_of_descend {children : List Outline} (h : (v.enter n).run st = (.descend, st'))
    {finished : Bool} (hall : (visitAll v children).run st' = (finished, st'')) :
    ((node n children).visit v).run st =
      (finished, if finished then ((v.leave n).run st'').2 else st'') := by
  rw [visit, run_bind, h]
  simp only [run_bind, hall]
  cases finished <;> rfl

theorem run_visitAll_nil : (visitAll v []).run st = (true, st) := by
  rw [visitAll]
  rfl

theorem run_visitAll_cons (o : Outline) (os : List Outline) : (visitAll v (o :: os)).run st =
    if ((o.visit v).run st).1 then (visitAll v os).run ((o.visit v).run st).2
    else (o.visit v).run st := by
  rw [visitAll, run_bind]
  obtain ⟨finished, after⟩ := (o.visit v).run st
  cases finished <;> rfl

theorem run_visitAll_append (ps : List Outline) : ∀ {os : List Outline} {st : σ},
    (visitAll v os).run st = (true, st') →
      (visitAll v (os ++ ps)).run st = (visitAll v ps).run st'
  | [], st, h => by
    rw [run_visitAll_nil] at h
    rw [List.nil_append, (Prod.mk.inj h).2]
  | o :: os, st, h => by
    rw [run_visitAll_cons] at h
    rw [List.cons_append, run_visitAll_cons]
    split at h
    next hfinished => rw [if_pos hfinished, run_visitAll_append ps h]
    next hfinished => exact absurd (congrArg Prod.fst h) hfinished

end Outline

end VersionWeave
