import VersionWeave.Json.Reader
import VersionWeave.Text.Identifier
import VersionWeave.Version

namespace VersionWeave

/-- The names that generated code uses, and the separator that marks versions. -/
structure Naming where
  separator : String := "__"
  switchMethod : String := "__switchToVersion"
  getterPrefix : String := "__get_"
  setterPrefix : String := "__set_"
  behaviorInterface : String := "IVersionBehavior"
  activeField : String := "currentState"
  deriving DecidableEq, Repr, Inhabited

namespace Naming

/-- The type that implements a version. -/
def implType (_ : Naming) (ordinal : UInt32) : String :=
  "V" ++ ordinal.toNat.repr ++ "_Impl"

/-- The field that holds the instance of a version. -/
def instanceField (_ : Naming) (ordinal : UInt32) : String :=
  "v" ++ ordinal.toNat.repr ++ "_instance"

def getter (naming : Naming) (field : String) : String :=
  naming.getterPrefix ++ field

def setter (naming : Naming) (field : String) : String :=
  naming.setterPrefix ++ field

def toJson (naming : Naming) : Json :=
  .record [("separator", .str naming.separator), ("switch_method", .str naming.switchMethod),
    ("getter_prefix", .str naming.getterPrefix), ("setter_prefix", .str naming.setterPrefix),
    ("behavior_interface", .str naming.behaviorInterface),
    ("active_field", .str naming.activeField)]

def ofJson? : Nat → Json → Option Naming
  | 0, _ => none
  | _ + 1, j => do
    let fs ← j.fields? ["separator", "switch_method", "getter_prefix", "setter_prefix",
      "behavior_interface", "active_field"]
    let standard : Naming := {}
    let separator ← fs.orElse "separator" standard.separator Json.str?
    let switchMethod ← fs.orElse "switch_method" standard.switchMethod Json.str?
    let getterPrefix ← fs.orElse "getter_prefix" standard.getterPrefix Json.str?
    let setterPrefix ← fs.orElse "setter_prefix" standard.setterPrefix Json.str?
    let behaviorInterface ← fs.orElse "behavior_interface" standard.behaviorInterface Json.str?
    let activeField ← fs.orElse "active_field" standard.activeField Json.str?
    return { separator, switchMethod, getterPrefix, setterPrefix, behaviorInterface, activeField }

end Naming

/-- Why a configuration is refused. -/
inductive ConfigError where
  | emptySeparator
  | invalidName (key value : String)
  | unreadable
  deriving DecidableEq, Repr

/-- Why a separator cannot mark versions. -/
def Marker.emptySeparatorMessage : String :=
  "version separator must not be empty"

def ConfigError.message : ConfigError → String
  | .emptySeparator => "invalid version separator: " ++ Marker.emptySeparatorMessage
  | .invalidName key value => "invalid reserved name for '" ++ key ++ "': '" ++ value ++ "'"
  | .unreadable => "invalid configuration JSON: not a set of options"

namespace Naming

/-- The reserved names with their keys, in the order in which they are checked. -/
def reserved (naming : Naming) : List (String × String) :=
  [("switch_method", naming.switchMethod), ("getter_prefix", naming.getterPrefix),
    ("setter_prefix", naming.setterPrefix), ("behavior_interface", naming.behaviorInterface),
    ("active_field", naming.activeField)]

/--
The marker of a naming whose reserved names are identifiers and whose accessors can be told apart.
-/
def check (naming : Naming) : Except ConfigError Marker :=
  match naming.reserved.find? fun entry => !Text.isIdentifier entry.2 with
  | some (key, value) => .error (.invalidName key value)
  | none =>
    if naming.getterPrefix = naming.setterPrefix then
      .error (.invalidName "setter_prefix" naming.setterPrefix)
    else
      match Marker.ofSeparator? naming.separator with
      | none => .error .emptySeparator
      | some marker => .ok marker

end Naming

structure Options where
  naming : Naming := {}
  generateAccessors : Bool := true
  deriving DecidableEq, Repr, Inhabited

namespace Options

def toJson (options : Options) : Json :=
  .record [("naming", options.naming.toJson),
    ("generate_accessors", .bool options.generateAccessors)]

def ofJson? : Nat → Json → Option Options
  | 0, _ => none
  | d + 1, j => do
    let fs ← j.fields? ["naming", "generate_accessors"]
    let naming ← fs.orElse "naming" {} (Naming.ofJson? d)
    let generateAccessors ← fs.orElse "generate_accessors" true Json.bool?
    return { naming, generateAccessors }

/-- Reads options from a text and checks their names. -/
def ofText (text : String) : Except ConfigError Options :=
  match Json.decode? Options.ofJson? text with
  | none => .error .unreadable
  | some options => options.naming.check.map fun _ => options

end Options

end VersionWeave
