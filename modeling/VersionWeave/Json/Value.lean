namespace VersionWeave

/--
A JSON value as it stands in a text. Members keep their order and may repeat. A number without
fraction and exponent is an `int`, any other keeps its spelling, and so does `-0`. A string or a key
whose escapes leave a surrogate unpaired has no text: it is `noText`, or a key `none`.
-/
inductive Json where
  | null
  | bool (value : Bool)
  | int (value : Int)
  | real (spelling : String)
  | str (text : String)
  | noText
  | arr (items : List Json)
  | obj (members : List (Option String × Json))
  deriving Inhabited

namespace Json

/-- An object whose keys are all texts. -/
def record (members : List (String × Json)) : Json :=
  .obj (members.map fun m => (some m.1, m.2))

/-- Two spellings of an option: `null` when it is empty, else the value itself. -/
def ofOption {α : Type} (toJson : α → Json) : Option α → Json
  | none => .null
  | some a => toJson a

def ofList {α : Type} (toJson : α → Json) (items : List α) : Json :=
  .arr (items.map toJson)

def str? : Json → Option String
  | .str s => some s
  | _ => none

def bool? : Json → Option Bool
  | .bool b => some b
  | _ => none

/-- A string of exactly one character. -/
def char? : Json → Option Char
  | .str s =>
    match s.toList with
    | [c] => some c
    | _ => none
  | _ => none

/-- An integer that fits 64 signed bits. -/
def int64? : Json → Option Int64
  | .int i =>
    if -9223372036854775808 ≤ i ∧ i ≤ 9223372036854775807 then some (Int64.ofInt i) else none
  | _ => none

/-- An integer that fits 32 unsigned bits. -/
def uint32? : Json → Option UInt32
  | .int i => if 0 ≤ i ∧ i ≤ 4294967295 then some (UInt32.ofNat i.toNat) else none
  | _ => none

/-- Reads an option, for which `null` stands when it is empty. -/
def nullable {α : Type} (read : Json → Option α) : Json → Option (Option α)
  | .null => some none
  | j => (read j).map some

/-- The items of an array, each read with one bracket less to spare. -/
def list? {α : Type} (read : Nat → Json → Option α) : Nat → Json → Option (List α)
  | d + 1, .arr items => items.mapM (read d)
  | _, _ => none

end Json

/-- The fields found for a record, by name. -/
abbrev Fields := List (String × Json)

/--
Opens a record with the given field names. An object may hold other fields as well, which are
ignored, but none of the given ones twice; an array lists the fields in order and may stop early.
-/
def Json.fields? (names : List String) : Json → Option Fields
  | .obj members => do
    let named ← members.mapM fun m => m.1.map fun key => (key, m.2)
    if names.all fun name => (named.filter fun m => m.1 == name).length ≤ 1 then some named else none
  | .arr items => if items.length ≤ names.length then some (names.zip items) else none
  | _ => none

namespace Fields

/-- A field that must be there. -/
def need {α : Type} (fields : Fields) (name : String) (read : Json → Option α) : Option α :=
  (fields.lookup name).bind read

/-- A field that has a value of its own when it is left out. -/
def orElse {α : Type} (fields : Fields) (name : String) (fallback : α) (read : Json → Option α) :
    Option α :=
  match fields.lookup name with
  | none => some fallback
  | some j => read j

/-- A field that may be left out or `null`. -/
def option {α : Type} (fields : Fields) (name : String) (read : Json → Option α) :
    Option (Option α) :=
  fields.orElse name none (Json.nullable read)

end Fields

end VersionWeave
