import VersionWeave.Disk

namespace VersionWeave

/-- What stands at a place of a disk. -/
inductive Spot where
  | nothing
  | directory
  | file (bytes : ByteArray)

def Spot.of : Option Entry → Spot
  | none => .nothing
  | some (.dir _) => .directory
  | some (.file bytes) => .file bytes

theorem Spot.of_eq_directory {entry : Option Entry} :
    Spot.of entry = .directory ↔ ∃ children, entry = some (.dir children) := by
  rcases entry with - | ⟨bytes | children⟩ <;> simp [Spot.of]

namespace Entry

theorem child?_setChild (name other : String) (entry : Entry) (children : List (String × Entry)) :
    child? other (setChild name entry children) =
      if other = name then some entry else child? other children := by
  induction children with
  | nil => simp only [setChild, child?, eq_comm]
  | cons first rest ih => grind [setChild, child?]

theorem find?_append (above below : List String) (e : Entry) :
    e.find? (above ++ below) = (e.find? above).bind (find? below) := by
  induction above generalizing e with
  | nil => rfl
  | cons name rest ih =>
    cases e with
    | file bytes => rfl
    | dir children =>
      simp only [List.cons_append, find?, Option.bind_assoc]
      exact congrArg _ (funext ih)

/-- A file shows at its own place; no other place shows anything else than before. -/
theorem spot_put {above : List String} {name : String} (bytes : ByteArray) {root : Entry}
    (habove : Spot.of (root.find? above) = .directory)
    (hfree : Spot.of (root.find? (above ++ [name])) ≠ .directory) (place : List String) :
    Spot.of ((put (.file bytes) (above ++ [name]) root).find? place) =
      if place = above ++ [name] then .file bytes else Spot.of (root.find? place) := by
  induction above generalizing root place with
  | nil =>
    obtain ⟨children, hroot⟩ := Spot.of_eq_directory.mp habove
    cases Option.some.inj hroot
    cases place with
    | nil => rfl
    | cons first rest =>
      simp only [List.nil_append, put, find?, child?_setChild, List.cons.injEq]
      by_cases hfirst : first = name
      · subst hfirst
        cases rest with
        | nil => simp [find?, Spot.of]
        | cons second rest =>
          -- below a file there is nothing, and the place held no directory
          simp only [List.nil_append, find?] at hfree
          rcases hchild : child? first children with - | ⟨old | old⟩
          · simp [find?, Spot.of]
          · simp [find?, Spot.of]
          · simp [hchild, Spot.of] at hfree
      · simp [hfirst]
  | cons directory above ih =>
    obtain ⟨found, hroot⟩ := Spot.of_eq_directory.mp habove
    cases root with
    | file old => cases hroot
    | dir children =>
      obtain ⟨inner, hchild, -⟩ := Option.bind_eq_some_iff.mp hroot
      simp only [List.cons_append, find?, hchild, Option.bind_some] at habove hfree
      cases place with
      | nil => rfl
      | cons first rest =>
        simp only [List.cons_append, put, find?, child?_setChild, hchild, Option.getD_some,
          List.cons.injEq]
        by_cases hfirst : first = directory
        · subst hfirst
          simpa [hchild] using ih habove hfree rest
        · simp [hfirst]

end Entry

namespace Path

/-- A part of a path that leads to an entry of a directory. -/
structure IsName (name : String) : Prop where
  slash : '/' ∉ name.toList
  ne_empty : name ≠ ""
  ne_dot : name ≠ "."
  ne_dots : name ≠ ".."

theorem split_of_no_slash {cs : List Char} (h : '/' ∉ cs) (part : List Char) :
    parts.split part cs = [String.ofList (part.reverse ++ cs)] := by
  induction cs generalizing part with
  | nil => simp [parts.split]
  | cons c rest ih =>
    obtain ⟨hc, hrest⟩ := not_or.mp (mt List.mem_cons.mpr h)
    rw [parts.split, if_neg (Ne.symm hc), ih hrest]
    simp

theorem split_append_slash (front back : List Char) (part : List Char) :
    parts.split part (front ++ '/' :: back) = parts.split part front ++ parts.split [] back := by
  induction front generalizing part with
  | nil => simp [parts.split]
  | cons c rest ih =>
    rw [List.cons_append, parts.split, parts.split]
    split
    next => rw [ih, List.cons_append]
    next => exact ih _

theorem parts_ne_nil (path : String) : parts path ≠ [] := by
  have hsplit : ∀ (cs part : List Char), parts.split part cs ≠ [] := by
    intro cs
    induction cs with
    | nil => exact fun part => List.cons_ne_nil _ _
    | cons c rest ih =>
      intro part
      rw [parts.split]
      split
      next => exact List.cons_ne_nil _ _
      next => exact ih _
  exact hsplit _ _

/-- A file name adds one part to the path of a directory. -/
theorem parts_join (dir : String) {name : String} (h : '/' ∉ name.toList) :
    ∃ above, parts (join dir name) = above ++ [name] := by
  have hname : parts.split [] name.toList = [name] := by simp [split_of_no_slash h]
  unfold join
  split
  next => exact ⟨[], hname⟩
  next =>
    split
    next hlast =>
      obtain ⟨front, hfront⟩ := List.getLast?_eq_some_iff.mp (eq_of_beq hlast)
      refine ⟨parts.split [] front, ?_⟩
      rw [parts, String.toList_append, hfront, List.append_assoc, ← hname]
      exact split_append_slash front name.toList []
    next =>
      refine ⟨parts dir, ?_⟩
      rw [parts, String.append_assoc, String.toList_append, String.toList_append, parts, ← hname]
      exact split_append_slash dir.toList name.toList []

end Path

namespace Disk

variable {disk other : Disk} {path : String} {place next : List String}

def spot (disk : Disk) (place : List String) : Spot :=
  Spot.of (disk.entry? place)

theorem spot_of_step {part : String} (h : disk.step place part = .ok next) :
    disk.spot place = .directory := by
  unfold step at h
  unfold spot
  rcases hentry : disk.entry? place with - | ⟨bytes | children⟩
  · rw [hentry] at h; cases h
  · rw [hentry] at h; cases h
  · rfl

theorem step_of_directory (h : disk.spot place = .directory) (part : String) :
    disk.step place part =
      if part = "" ∨ part = "." then .ok place
      else if part = ".." then .ok place.dropLast
      else if part.utf8ByteSize > maxName then .error .nameTooLong
      else .ok (place ++ [part]) := by
  obtain ⟨children, hentry⟩ := Spot.of_eq_directory.mp h
  rw [step, hentry]

/-- Paths are followed in the same way on both disks. -/
structure SameDirectories (disk other : Disk) : Prop where
  workingDirectory : disk.workingDirectory = other.workingDirectory
  spot : ∀ place, disk.spot place = .directory ↔ other.spot place = .directory

theorem SameDirectories.refl (disk : Disk) : SameDirectories disk disk :=
  ⟨rfl, fun _ => .rfl⟩

theorem SameDirectories.trans {third : Disk} (h : SameDirectories disk other)
    (h' : SameDirectories other third) : SameDirectories disk third :=
  ⟨h.workingDirectory.trans h'.workingDirectory, fun place => (h.spot place).trans (h'.spot place)⟩

theorem SameDirectories.step (h : SameDirectories disk other) {part : String}
    (hstep : disk.step place part = .ok next) : other.step place part = .ok next := by
  have hdir := spot_of_step hstep
  rw [step_of_directory hdir] at hstep
  rw [step_of_directory ((h.spot place).mp hdir), hstep]

theorem SameDirectories.steps (h : SameDirectories disk other) {parts : List String} :
    parts.foldlM disk.step place = .ok next → parts.foldlM other.step place = .ok next := by
  induction parts generalizing place with
  | nil => exact id
  | cons part rest ih =>
    rw [List.foldlM_cons, List.foldlM_cons]
    intro hsteps
    cases hstep : disk.step place part with
    | error e => rw [hstep] at hsteps; cases hsteps
    | ok mid =>
      rw [hstep] at hsteps
      rw [h.step hstep]
      exact ih hsteps

/-- A path is refused for its text, which no disk matters for, or where it cannot be followed. -/
theorem locate_eq_ok_iff : disk.locate path = .ok place ↔
    (path ≠ "" ∧ path.toList.contains '\x00' = false ∧ path.utf8ByteSize ≤ maxPath) ∧
      (Path.parts path).foldlM disk.step (disk.start path) = .ok place := by
  unfold locate
  split
  next h => simp [h]
  next hempty =>
    split
    next h =>
      exact iff_of_false (fun hok => by cases hok)
        fun hok => Bool.false_ne_true (hok.1.2.1.symm.trans h)
    next hnul =>
      split
      next h => simp [Nat.not_le.mpr h]
      next hlong =>
        rw [Bool.not_eq_true] at hnul
        simp only [and_iff_right (⟨hempty, hnul, Nat.not_lt.mp hlong⟩ : _ ∧ _ ∧ _)]

theorem SameDirectories.locate (h : SameDirectories disk other)
    (hlocate : disk.locate path = .ok place) : other.locate path = .ok place := by
  obtain ⟨htext, hsteps⟩ := locate_eq_ok_iff.mp hlocate
  rw [start, h.workingDirectory] at hsteps
  exact locate_eq_ok_iff.mpr ⟨htext, h.steps hsteps⟩

/-- The last step along parts that can be followed. -/
theorem last_step {parts : List String} {part : String} {start : List String}
    (h : (parts ++ [part]).foldlM disk.step start = .ok place) :
    ∃ above, disk.step above part = .ok place := by
  rw [List.foldlM_append] at h
  cases hparts : parts.foldlM disk.step start with
  | error e => rw [hparts] at h; cases h
  | ok above =>
    rw [hparts] at h
    refine ⟨above, h ▸ ?_⟩
    cases hstep : disk.step above part with
    | error e => simp [hstep, bind, Except.bind]
    | ok last => simp [hstep, bind, Except.bind, pure, Except.pure]

/-- The path of a file in a directory leads to a place of the file's name. -/
theorem place_join {dir name : String} (hname : Path.IsName name)
    (h : disk.locate (Path.join dir name) = .ok place) : ∃ above, place = above ++ [name] := by
  obtain ⟨above, hparts⟩ := Path.parts_join dir hname.slash
  obtain ⟨-, hsteps⟩ := locate_eq_ok_iff.mp h
  rw [hparts] at hsteps
  obtain ⟨directory, hstep⟩ := last_step hsteps
  rw [step_of_directory (spot_of_step hstep)] at hstep
  rw [if_neg (by simp [hname.ne_empty, hname.ne_dot]), if_neg hname.ne_dots] at hstep
  split at hstep
  next => cases hstep
  next => exact ⟨directory, (Except.ok.inj hstep).symm⟩

theorem spot_above {above : List String} {name : String} (h : disk.spot (above ++ [name]) ≠ .nothing) :
    disk.spot above = .directory := by
  unfold spot entry? at h ⊢
  rw [Entry.find?_append] at h
  rcases hfind : disk.root.find? above with - | ⟨bytes | children⟩
  · simp [hfind, Spot.of] at h
  · simp [hfind, Entry.find?, Spot.of] at h
  · rfl

/-- A path leads to a directory or to a name in one. -/
theorem place_of_locate (h : disk.locate path = .ok place) : disk.spot place = .directory ∨
    ∃ above name, place = above ++ [name] ∧ disk.spot above = .directory := by
  obtain ⟨-, hsteps⟩ := locate_eq_ok_iff.mp h
  rw [← List.dropLast_concat_getLast (Path.parts_ne_nil path)] at hsteps
  obtain ⟨above, hstep⟩ := last_step hsteps
  have hdir := spot_of_step hstep
  rw [step_of_directory hdir] at hstep
  split at hstep
  next => exact .inl (Except.ok.inj hstep ▸ hdir)
  next =>
    split at hstep
    next =>
      -- one step up: the directory itself stands in another one, unless it is the root
      cases Except.ok.inj hstep
      rcases List.eq_nil_or_concat above with rfl | ⟨outer, name, rfl⟩
      · exact .inl hdir
      · rw [List.concat_eq_append] at hdir ⊢
        rw [List.dropLast_concat]
        exact .inl (spot_above (by rw [hdir]; exact Spot.noConfusion))
    next =>
      split at hstep
      next => cases hstep
      next => exact .inr ⟨above, _, (Except.ok.inj hstep).symm, hdir⟩

/-- A file that is written shows at its place; nothing changes at any other place. -/
theorem writeText_eq_ok {text : String} (h : disk.writeText path text = .ok other) :
    ∃ place, disk.locate path = .ok place ∧ SameDirectories disk other ∧
      ∀ p, other.spot p = if p = place then .file text.toUTF8 else disk.spot p := by
  unfold writeText at h
  cases hlocate : disk.locate path with
  | error e => rw [hlocate] at h; cases h
  | ok place =>
    rw [hlocate] at h
    have hfree : disk.spot place ≠ .directory := by
      intro hdir
      obtain ⟨children, hentry⟩ := Spot.of_eq_directory.mp hdir
      simp [bind, Except.bind, hentry] at h
    have hother : other = disk.putEntry place (.file text.toUTF8) := by
      simp only [bind, Except.bind] at h
      split at h
      next => cases h
      next => exact (Except.ok.inj h).symm
    subst hother
    obtain ⟨above, name, rfl, habove⟩ := (place_of_locate hlocate).resolve_left hfree
    have hspot := Entry.spot_put text.toUTF8 habove hfree
    refine ⟨_, rfl, ⟨rfl, fun place => ?_⟩, hspot⟩
    refine .trans ?_ (iff_of_eq (congrArg (· = Spot.directory) (hspot place).symm))
    split
    next h => exact iff_of_false (h ▸ hfree) Spot.noConfusion
    next => exact .rfl

theorem readText_eq_ok {text : String} (hlocate : disk.locate path = .ok place)
    (hspot : disk.spot place = .file text.toUTF8) : disk.readText path = .ok text := by
  unfold spot at hspot
  rcases hentry : disk.entry? place with - | ⟨bytes | children⟩
  · rw [hentry] at hspot; cases hspot
  · rw [hentry] at hspot
    cases hspot
    have htext : String.fromUTF8? text.toUTF8 = some text := by
      rw [String.fromUTF8?, String.toUTF8_eq_toByteArray, dif_pos text.isValidUTF8]
      rfl
    simp only [readText, lookup, hlocate, hentry, bind, Except.bind, htext]
  · rw [hentry] at hspot; cases hspot

end Disk

end VersionWeave
