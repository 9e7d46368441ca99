import VersionWeave.Json.Value
import VersionWeave.Tree.Source

namespace VersionWeave

/-- The version of a declaration: none in particular, or one with an ordinal. -/
inductive Version where
  | normal
  | numbered (ordinal : UInt32)
  deriving DecidableEq, Repr, Inhabited, Ord

namespace Version

def ordinal? : Version → Option UInt32
  | .normal => none
  | .numbered n => some n

def isNumbered (v : Version) : Bool := v.ordinal?.isSome

def tag : Version → String
  | .normal => "normal"
  | .numbered n => n.toNat.repr

def toJson (v : Version) : Json := .str v.tag

/-- Decimal digits, leading zeros included, whose value fits an ordinal. -/
def ordinalOfDigits? (digits : List Char) : Option UInt32 :=
  if digits.isEmpty || !digits.all Char.isDigit then none
  else
    let n := Nat.ofDigitChars 10 digits 0
    if n < UInt32.size then some (UInt32.ofNat n) else none

/-- Reads `normal`, or an ordinal that may carry a plus sign. -/
def ofTag? (tag : String) : Option Version :=
  if tag = "normal" then some .normal
  else
    match tag.toList with
    | '+' :: digits => (ordinalOfDigits? digits).map .numbered
    | digits => (ordinalOfDigits? digits).map .numbered

/-- Why a tag that is no version is refused. -/
def badTagMessage (tag : String) : String :=
  "invalid version tag '" ++ tag ++ "': expected \"normal\" or a decimal ordinal"

def ofJson? : Json → Option Version
  | .str tag => ofTag? tag
  | _ => none

end Version

/-- A declared name, taken apart. -/
structure VersionedName where
  base : String
  version : Version
  deriving DecidableEq, Repr

/-- The rule by which names carry ordinals: a base, the separator, digits, the separator. -/
structure Marker where
  separator : String
  separator_ne : separator ≠ "" := by decide

namespace Marker

def standard : Marker where
  separator := "__"

def ofSeparator? (separator : String) : Option Marker :=
  if h : separator = "" then none else some { separator, separator_ne := h }

/-- The digits between two separators, when that is all there is. -/
def digitsBetween? (separator rest : List Char) : Option (List Char) :=
  if separator.isPrefixOf rest then
    let inner := rest.drop separator.length
    if separator.isSuffixOf inner then
      let digits := inner.take (inner.length - separator.length)
      if !digits.isEmpty && digits.all Char.isDigit then some digits else none
    else none
  else none

/-- The longest non-empty base without a line break, and the digits of the mark after it. -/
def split? (separator : List Char) : List Char → Option (List Char × List Char)
  | [] => none
  | c :: rest =>
    if c = '\n' then none
    else
      match split? separator rest with
      | some (base, digits) => some (c :: base, digits)
      | none => (digitsBetween? separator rest).map fun digits => ([c], digits)

/-- A name that carries no ordinal is its own base. -/
def parse (marker : Marker) (name : String) : VersionedName :=
  match split? marker.separator.toList name.toList with
  | none => ⟨name, .normal⟩
  | some (base, digits) =>
    match Version.ordinalOfDigits? digits with
    | none => ⟨name, .normal⟩
    | some n => ⟨String.ofList base, .numbered n⟩

def baseName (marker : Marker) (name : String) : String :=
  (marker.parse name).base

def isVersioned (marker : Marker) (name : String) : Bool :=
  (marker.parse name).version.isNumbered

def compose (marker : Marker) (base : String) (ordinal : UInt32) : String :=
  base ++ marker.separator ++ ordinal.toNat.repr ++ marker.separator

end Marker

mutual

/-- Replaces every name in a type, arguments included, by its base name. -/
def TypeRef.normalize (marker : Marker) : TypeRef → TypeRef
  | ⟨name, args, dims⟩ => ⟨marker.baseName name, TypeRef.normalizeAll marker args, dims⟩

def TypeRef.normalizeAll (marker : Marker) : List TypeRef → List TypeRef
  | [] => []
  | t :: rest => t.normalize marker :: TypeRef.normalizeAll marker rest

end

/-- The text that stands for a type when signatures are compared. -/
def TypeRef.signature (marker : Marker) (t : TypeRef) : String :=
  (t.normalize marker).source

def signatureTypes (marker : Marker) (params : List Param) : List String :=
  params.map fun p => p.ty.signature marker

end VersionWeave
