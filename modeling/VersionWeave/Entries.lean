namespace VersionWeave

/-- A map as a list of entries, in the order in which the keys first came. -/
abbrev Entries (κ α : Type) := List (κ × α)

namespace Entries

variable {κ α : Type} [DecidableEq κ]

def get? (entries : Entries κ α) (key : κ) : Option α :=
  (entries.find? fun e => e.1 = key).map Prod.snd

/-- Changes the value of a key in place, or adds the key at the end. -/
def alter (key : κ) (change : Option α → α) : Entries κ α → Entries κ α
  | [] => [(key, change none)]
  | (k, a) :: rest =>
    if k = key then (k, change (some a)) :: rest else (k, a) :: alter key change rest

/-- The last value put under a key counts; the key keeps its place. -/
def put (entries : Entries κ α) (key : κ) (value : α) : Entries κ α :=
  alter key (fun _ => value) entries

/-- The first value put under a key counts. -/
def putNew (entries : Entries κ α) (key : κ) (value : α) : Entries κ α :=
  alter key (fun old => old.getD value) entries

def keys (entries : Entries κ α) : List κ :=
  entries.map Prod.fst

def values (entries : Entries κ α) : List α :=
  entries.map Prod.snd

end Entries

/-- Adds to the end of the list that is kept under a key. -/
def Entries.push {κ α : Type} [DecidableEq κ] (entries : Entries κ (List α)) (key : κ) (value : α) :
    Entries κ (List α) :=
  alter key (fun old => old.getD [] ++ [value]) entries

end VersionWeave
