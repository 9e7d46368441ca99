import VersionWeave.Proofs.Batch.Revised
import VersionWeave.Proofs.Symbols
import VersionWeave.Proofs.Unified.Outer

namespace VersionWeave

theorem CompilationUnit.primaryName?_map {f : TypeDecl → TypeDecl} (hname : ∀ t, (f t).name = t.name)
    (hmodifiers : ∀ t, (f t).modifiers = t.modifiers) (u : CompilationUnit) :
    CompilationUnit.primaryName? { u with types := u.types.map f } = u.primaryName? := by
  have hpublic : (fun t : TypeDecl => (f t).modifiers.isPublic) = fun t => t.modifiers.isPublic :=
    funext fun t => by rw [hmodifiers]
  simp only [primaryName?, primary?, List.find?_map, Function.comp_def, hpublic, List.head?_map,
    ← Option.map_or, Option.map_map, hname]

theorem CompilationUnit.mem_types_of_primary? {u : CompilationUnit} {t : TypeDecl}
    (h : u.primary? = some t) : t ∈ u.types := by
  rcases Option.or_eq_some_iff.mp h with h | ⟨-, h⟩
  · exact List.mem_of_find?_eq_some h
  · exact List.mem_of_head? h

namespace Weaver

variable (w : Weaver) (table : SymbolTable) (units : List CompilationUnit)

/-- The groups of a batch are its units by the base names of their primary types. -/
theorem groups_eq_collect : w.groups table units =
    (Entries.collect (units.filterMap fun u => (w.groupName? table u).map (·, u))).map
      fun e => { baseName := e.1, units := e.2 } := by
  have hfold : ∀ {step : Entries String (List CompilationUnit) → CompilationUnit →
        Entries String (List CompilationUnit)},
      (∀ es u, step es u = (w.groupName? table u).elim es (es.push · u)) →
      ∀ (us : List CompilationUnit) (es : Entries String (List CompilationUnit)),
        us.foldl step es = (us.filterMap fun u => (w.groupName? table u).map (·, u)).foldl
          (fun es b => es.push b.1 b.2) es := by
    intro step hstep us
    induction us with
    | nil => exact fun _ => rfl
    | cons u rest ih =>
      intro es
      rw [List.foldl_cons, List.filterMap_cons, hstep]
      cases w.groupName? table u with
      | none => exact ih es
      | some base => exact ih _
  refine congrArg (List.map _) (hfold (fun es u => ?_) units [])
  cases w.groupName? table u with
  | none => rfl
  | some base => rfl

/-- The group that a base name has in a batch, empty or not. -/
def groupOf (base : String) : Group where
  baseName := base
  units := units.filter fun u => w.groupName? table u = some base

variable {w table units}

theorem mem_groups {g : Group} :
    g ∈ w.groups table units ↔ g = w.groupOf table units g.baseName ∧ g.units ≠ [] := by
  have hunits : ∀ base, ((units.filterMap fun u => (w.groupName? table u).map (·, u)).filter
      fun b => b.1 = base).map Prod.snd = (w.groupOf table units base).units := by
    intro base
    unfold groupOf
    dsimp only
    induction units with
    | nil => rfl
    | cons u rest ih =>
      rw [List.filterMap_cons, List.filter_cons]
      cases hu : w.groupName? table u with
      | none => simpa using ih
      | some b => by_cases hb : b = base <;> simp [hb, ih]
  rw [groups_eq_collect, List.mem_map]
  constructor
  · rintro ⟨⟨base, us⟩, he, rfl⟩
    obtain ⟨hus, hne⟩ := Entries.mem_collect.mp he
    exact ⟨by rw [hus, hunits]; rfl, hne⟩
  · rintro ⟨hg, hne⟩
    refine ⟨(g.baseName, g.units), Entries.mem_collect.mpr ⟨?_, hne⟩, rfl⟩
    rw [hunits]
    exact congrArg Group.units hg

theorem nodup_groups : ((w.groups table units).map Group.baseName).Nodup := by
  rw [groups_eq_collect, List.map_map]
  exact Entries.nodup_keys_collect _

end Weaver

end VersionWeave
