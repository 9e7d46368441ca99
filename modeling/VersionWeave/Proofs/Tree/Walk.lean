import VersionWeave.Proofs.Tree.Visitor

namespace VersionWeave

/-- The outline below a node of any kind. -/
def Node.outline : Node → Outline
  | .unit u => u.outline
  | .typeDecl t => t.outline
  | .member m => m.outline
  | .fieldDecl f => f.outline
  | .methodDecl m => m.outline
  | .constructorDecl c => c.outline
  | .param p => p.outline
  | .block b => Block.outline b
  | .stmt s => s.outline
  | .localVars v => v.outline
  | .expr e => e.outline
  | .call receiver name args =>
    .node (.call receiver name args) (Expr.optionOutline receiver ++ Expr.outlines args)
  | .fieldAccess receiver name => .node (.fieldAccess receiver name) [receiver.outline]
  | .typeRef t => t.outline

theorem Node.exists_outline (n : Node) : ∃ children, n.outline = .node n children := by
  cases n with
  | typeDecl t => cases t; exact ⟨_, rfl⟩
  | member m => cases m <;> exact ⟨_, rfl⟩
  | stmt s => cases s <;> exact ⟨_, rfl⟩
  | expr e => cases e <;> exact ⟨_, rfl⟩
  | typeRef t => cases t; exact ⟨_, rfl⟩
  | _ => exact ⟨_, rfl⟩

/-- The visitor that goes on where another one stops. -/
def resumed (visit : Node → Reply) (n : Node) : Reply :=
  if visit n = .stop then .descend else visit n

/-- Whether an event is a visit that stops the walk. -/
def Event.stops (visit : Node → Reply) : Event → Bool
  | .enter n => visit n = .stop
  | .leave _ => false

/--
Events that follow outlines one after the other. Every node is entered and left again, with the
events of its children between, and at once if they are skipped.
-/
inductive Nested (visit : Node → Reply) : List Outline → List Event → Prop
  | nil : Nested visit [] []
  | skipped {n : Node} {children os : List Outline} {rest : List Event} (hvisit : visit n = .skip)
    (hrest : Nested visit os rest) :
    Nested visit (.node n children :: os) (.enter n :: .leave n :: rest)
  | entered {n : Node} {children os : List Outline} {inner rest : List Event}
    (hvisit : visit n = .descend) (hinner : Nested visit children inner)
    (hrest : Nested visit os rest) :
    Nested visit (.node n children :: os) (.enter n :: (inner ++ .leave n :: rest))

theorem Nested.append {visit : Node → Reply} {os ps : List Outline} {xs ys : List Event}
    (hxs : Nested visit os xs) (hys : Nested visit ps ys) : Nested visit (os ++ ps) (xs ++ ys) := by
  induction hxs with
  | nil => exact hys
  | skipped hvisit _ ih => exact .skipped hvisit ih
  | entered hvisit hinner _ _ ih =>
    rw [List.cons_append, List.cons_append, List.append_assoc, List.cons_append]
    exact .entered hvisit hinner ih

theorem resumed_eq {visit : Node → Reply} {n : Node} (h : (Event.enter n).stops visit = false) :
    resumed visit n = visit n :=
  if_neg (of_decide_eq_false h)

theorem resumed_ne_stop (visit : Node → Reply) (n : Node) : resumed visit n ≠ .stop := by
  unfold resumed
  split
  next => exact Reply.noConfusion
  next h => exact h

/-- Where a visitor does not stop, it cannot be told from the one that goes on. -/
theorem Nested.of_resumed {visit : Node → Reply} {os : List Outline} {events : List Event}
    (h : Nested (resumed visit) os events) (hnone : ∀ e ∈ events, e.stops visit = false) :
    Nested visit os events := by
  induction h with
  | nil => exact .nil
  | skipped hvisit _ ih =>
    obtain ⟨hn, hmore⟩ := List.forall_mem_cons.mp hnone
    exact .skipped ((resumed_eq hn).symm.trans hvisit) (ih (List.forall_mem_cons.mp hmore).2)
  | entered hvisit _ _ ihinner ihrest =>
    obtain ⟨hn, hmore⟩ := List.forall_mem_cons.mp hnone
    obtain ⟨hinner, hrest⟩ := List.forall_mem_append.mp hmore
    exact .entered ((resumed_eq hn).symm.trans hvisit) (ihinner hinner)
      (ihrest (List.forall_mem_cons.mp hrest).2)

/-- What is left of the events of a walk, and whether it ran to its end, when a visitor may stop. -/
inductive Cut (visit : Node → Reply) : List Event → List Event × Bool → Prop
  | whole {events : List Event} (hnone : ∀ e ∈ events, e.stops visit = false) :
    Cut visit events (events, true)
  | stopped (before after : List Event) (n : Node) (hnone : ∀ e ∈ before, e.stops visit = false)
    (hstop : visit n = .stop) : Cut visit (before ++ .enter n :: after) (before ++ [.enter n], false)

namespace Cut

variable {visit : Node → Reply} {xs ys : List Event}

/-- After events without a stop, those that follow decide. -/
theorem append_whole (hxs : ∀ e ∈ xs, e.stops visit = false) {part : List Event} {finished : Bool}
    (hys : Cut visit ys (part, finished)) : Cut visit (xs ++ ys) (xs ++ part, finished) := by
  cases hys with
  | whole hnone => exact .whole fun e he => (List.mem_append.mp he).elim (hxs e) (hnone e)
  | stopped before after n hnone hstop =>
    rw [← List.append_assoc, ← List.append_assoc]
    exact .stopped _ _ _ (fun e he => (List.mem_append.mp he).elim (hxs e) (hnone e)) hstop

/-- After a stop, nothing that would follow counts. -/
theorem append_stopped {part : List Event} (hxs : Cut visit xs (part, false)) :
    Cut visit (xs ++ ys) (part, false) := by
  cases hxs with
  | stopped before after n hnone hstop =>
    rw [List.append_assoc]
    exact .stopped _ _ _ hnone hstop

theorem eq_of_finished {part : List Event} (h : Cut visit xs (part, true)) :
    part = xs ∧ ∀ e ∈ xs, e.stops visit = false := by
  cases h with
  | whole hnone => exact ⟨rfl, hnone⟩

theorem enter {n : Node} (hn : visit n ≠ .stop) {part : List Event} {finished : Bool}
    (hxs : Cut visit xs (part, finished)) :
    Cut visit (.enter n :: xs) (.enter n :: part, finished) := by
  have hvisit : ∀ e ∈ [Event.enter n], e.stops visit = false := by
    intro e he
    rw [List.mem_singleton.mp he]
    exact decide_eq_false hn
  exact append_whole hvisit hxs

theorem leave (n : Node) {part : List Event} (hxs : Cut visit xs (part, true)) :
    Cut visit (xs ++ [.leave n]) (part ++ [.leave n], true) := by
  cases hxs with
  | whole hnone =>
    refine .whole fun e he => (List.mem_append.mp he).elim (hnone e) fun hleave => ?_
    rw [List.mem_singleton.mp hleave]
    rfl

end Cut

namespace Outline

theorem enter_recorder (reply : Node → Reply) (n : Node) (log : List Event) :
    ((Visitor.recorder reply).enter n).run log = (reply n, log ++ [.enter n]) := rfl

theorem leave_recorder (reply : Node → Reply) (n : Node) (log : List Event) :
    ((Visitor.recorder reply).leave n).run log = ((), log ++ [.leave n]) := rfl

mutual

/-- A recorder adds the events of its walk to what it has written down before. -/
theorem run_recorder (reply : Node → Reply) : ∀ (o : Outline) (log : List Event),
    (o.visit (.recorder reply)).run log = ((o.walk reply).2, log ++ (o.walk reply).1)
  | .node n children, log => by
    cases hn : reply n with
    | stop =>
      have hrun := fun log => run_visit_of_stop children (hn ▸ enter_recorder reply n log)
      rw [walk, hrun, hrun]
      rfl
    | skip =>
      have hrun := fun log => run_visit_of_skip children (hn ▸ enter_recorder reply n log)
      rw [walk, hrun, hrun, leave_recorder, leave_recorder]
      simp
    | descend =>
      have hrun := fun log => run_visit_of_descend (hn ▸ enter_recorder reply n log)
        (run_recorders reply children _)
      rw [walk, hrun, hrun]
      cases (walkAll reply children).2 <;> simp [leave_recorder]

theorem run_recorders (reply : Node → Reply) : ∀ (os : List Outline) (log : List Event),
    (visitAll (.recorder reply) os).run log = ((walkAll reply os).2, log ++ (walkAll reply os).1)
  | [], log => by
    rw [walkAll, run_visitAll_nil, run_visitAll_nil]
    simp
  | o :: os, log => by
    rw [walkAll, run_visitAll_cons, run_visitAll_cons, run_recorder reply o, run_recorder reply o,
      run_recorders reply os, run_recorders reply os]
    cases (o.walk reply).2 <;> simp

end

section

variable {visit : Node → Reply} {n : Node} (children : List Outline)

theorem walk_of_stop (h : visit n = .stop) : (node n children).walk visit = ([.enter n], false) := by
  rw [walk, run_visit_of_stop children (h ▸ enter_recorder visit n [])]
  rfl

theorem walk_of_skip (h : visit n = .skip) :
    (node n children).walk visit = ([.enter n, .leave n], true) := by
  rw [walk, run_visit_of_skip children (h ▸ enter_recorder visit n [])]
  rfl

theorem walk_of_descend (h : visit n = .descend) : (node n children).walk visit =
    (.enter n :: ((walkAll visit children).1 ++ if (walkAll visit children).2 then [.leave n] else []),
      (walkAll visit children).2) := by
  rw [walk, run_visit_of_descend (h ▸ enter_recorder visit n []) (run_recorders visit children _)]
  cases (walkAll visit children).2 <;> simp [leave_recorder]

theorem walkAll_cons (o : Outline) (os : List Outline) : walkAll visit (o :: os) =
    if (o.walk visit).2 then ((o.walk visit).1 ++ (walkAll visit os).1, (walkAll visit os).2)
    else o.walk visit := by
  rw [walkAll, run_visitAll_cons, run_recorder, run_recorders]
  obtain ⟨events, finished⟩ := o.walk visit
  cases finished <;> rfl

end

mutual

/-- A walk without a stop runs to its end, and what it enters it leaves. -/
theorem nested_walk {visit : Node → Reply} (hgo : ∀ n, visit n ≠ .stop) : ∀ o : Outline,
    (o.walk visit).2 = true ∧ Nested visit [o] (o.walk visit).1
  | .node n children => by
    cases hn : visit n with
    | stop => exact absurd hn (hgo n)
    | skip =>
      rw [walk_of_skip children hn]
      exact ⟨rfl, .skipped hn .nil⟩
    | descend =>
      obtain ⟨hfinished, hnested⟩ := nested_walkAll hgo children
      rw [walk_of_descend children hn, hfinished]
      exact ⟨rfl, .entered hn hnested .nil⟩

theorem nested_walkAll {visit : Node → Reply} (hgo : ∀ n, visit n ≠ .stop) : ∀ os : List Outline,
    (walkAll visit os).2 = true ∧ Nested visit os (walkAll visit os).1
  | [] => ⟨rfl, .nil⟩
  | o :: os => by
    obtain ⟨hfinished, hnested⟩ := nested_walk hgo o
    obtain ⟨hfinished', hnested'⟩ := nested_walkAll hgo os
    rw [walkAll_cons, if_pos hfinished]
    exact ⟨hfinished', hnested.append hnested'⟩

end

mutual

/-- A walk makes the events of the walk that goes on, up to the first visit that stops. -/
theorem cut_walk (visit : Node → Reply) : ∀ o : Outline,
    Cut visit (o.walk (resumed visit)).1 (o.walk visit)
  | .node n children => by
    cases hn : visit n with
    | stop =>
      have hresumed : resumed visit n = .descend := if_pos hn
      rw [walk_of_stop children hn, walk_of_descend children hresumed]
      exact .stopped [] _ _ (fun e he => absurd he List.not_mem_nil) hn
    | skip =>
      have hresumed : resumed visit n = .skip := (if_neg (by simp [hn])).trans hn
      rw [walk_of_skip children hn, walk_of_skip children hresumed]
      exact .whole (by simp [Event.stops, hn])
    | descend =>
      have hresumed : resumed visit n = .descend := (if_neg (by simp [hn])).trans hn
      have hcut := cut_walkAll visit children
      rcases hwalk : walkAll visit children with ⟨events, finished⟩
      rw [hwalk] at hcut
      rw [walk_of_descend children hresumed, (nested_walkAll (resumed_ne_stop visit) children).1,
        walk_of_descend children hn, hwalk]
      have hgo : visit n ≠ .stop := by simp [hn]
      refine .enter hgo ?_
      cases finished with
      | true => exact hcut.leave n
      | false =>
        rw [if_neg Bool.false_ne_true, List.append_nil]
        exact hcut.append_stopped

theorem cut_walkAll (visit : Node → Reply) : ∀ os : List Outline,
    Cut visit (walkAll (resumed visit) os).1 (walkAll visit os)
  | [] => .whole fun e he => absurd he List.not_mem_nil
  | o :: os => by
    have hcut := cut_walk visit o
    rw [walkAll_cons, if_pos (nested_walk (resumed_ne_stop visit) o).1, walkAll_cons]
    rcases hwalk : o.walk visit with ⟨events, finished⟩
    rw [hwalk] at hcut
    cases finished with
    | true =>
      obtain ⟨hwhole, hnone⟩ := hcut.eq_of_finished
      rw [if_pos rfl, hwhole]
      exact .append_whole hnone (cut_walkAll visit os)
    | false => exact hcut.append_stopped

end

end Outline

theorem Node.head?_walk (visit : Node → Reply) (n : Node) :
    (n.outline.walk visit).1.head? = some (.enter n) := by
  obtain ⟨children, hroot⟩ := n.exists_outline
  rw [hroot]
  cases hn : visit n with
  | stop => rw [Outline.walk_of_stop children hn]; rfl
  | skip => rw [Outline.walk_of_skip children hn]; rfl
  | descend => rw [Outline.walk_of_descend children hn]; rfl

/--
The protocol of a walk from a node of any kind, which begins with a visit to that node. If no visit
stops it, it runs to its end, and the events are nested. If a visit stops it, this visit is the last
event, and the events before it are those of the walk that goes on there.
-/
theorem Node.walk_protocol (visit : Node → Reply) (n : Node) :
    let walk := n.outline.walk visit
    walk.1.head? = some (.enter n) ∧
      ((∀ m, .enter m ∈ walk.1 → visit m ≠ .stop) → walk.2 = true ∧
        Nested visit [n.outline] walk.1) ∧
      ∀ m, .enter m ∈ walk.1 → visit m = .stop → walk.2 = false ∧
        ∃ before after, walk.1 = before ++ [.enter m] ∧
          (∀ k, .enter k ∈ before → visit k ≠ .stop) ∧
          n.outline.walk (resumed visit) = (before ++ .enter m :: after, true) := by
  intro walk
  obtain ⟨hend, hnested⟩ := Outline.nested_walk (resumed_ne_stop visit) n.outline
  have hcut : Cut visit (n.outline.walk (resumed visit)).1 walk := Outline.cut_walk visit n.outline
  refine ⟨n.head?_walk visit, ?_⟩
  rcases hresumed : n.outline.walk (resumed visit) with ⟨events, finished⟩
  rw [hresumed] at hend hnested hcut
  cases hend
  rcases hwalk : walk with ⟨part, finished⟩
  rw [hwalk] at hcut
  cases hcut with
  | whole hnone =>
    refine ⟨fun _ => ⟨rfl, hnested.of_resumed hnone⟩, fun m hm hstop => ?_⟩
    exact absurd hstop (of_decide_eq_false (hnone _ hm))
  | stopped before after k hnone hstop =>
    refine ⟨fun hgo => absurd hstop (hgo k (by simp)), fun m hm hm' => ⟨rfl, before, after, ?_⟩⟩
    have hlast : m = k := by
      rcases List.mem_append.mp hm with hbefore | hlast
      · exact absurd hm' (of_decide_eq_false (hnone _ hbefore))
      · exact Event.enter.inj (List.mem_singleton.mp hlast)
    subst hlast
    exact ⟨rfl, fun j hj => of_decide_eq_false (hnone _ hj), rfl⟩

end VersionWeave
