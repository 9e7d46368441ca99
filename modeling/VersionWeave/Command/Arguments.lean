namespace VersionWeave

/-- What is written for each unit: source text or its tree. -/
inductive Emit where
  | java
  | json
  deriving DecidableEq, Repr, Inhabited

def Emit.extension : Emit → String
  | .java => "java"
  | .json => "json"

def Emit.ofWord? : String → Option Emit
  | "java" => some .java
  | "json" => some .json
  | _ => none

inductive Command where
  | transform (input out : String) (emit : Emit)
  | symbols (input : String)
  deriving DecidableEq, Repr

/-- What a command line asks for. -/
inductive Request where
  | run (config : Option String) (command : Command)
  | version
  | help
  deriving DecidableEq, Repr

/-- The paths that a request reads from or writes to. -/
def Request.paths : Request → List String
  | .run config (.transform input out _) => config.toList ++ [input, out]
  | .run config (.symbols input) => config.toList ++ [input]
  | .version | .help => []

namespace Arguments

inductive Subcommand where
  | transform
  | symbols
  deriving DecidableEq

/-- The options and positional values given so far, each at most once. -/
structure Given where
  logLevel : Option String := none
  config : Option String := none
  out : Option String := none
  emit : Option Emit := none
  inputs : List String := []

def logLevels : List String := ["trace", "debug", "info", "warn", "error"]

/-- Only a lone dash may start with a dash and still be a value. -/
def isValue (word : String) : Bool :=
  word.toList.head? != some '-' || word == "-"

/-- Takes an option; refuses an unknown one, a value that does not fit, and a repetition. -/
def Given.take? (sub : Option Subcommand) (given : Given) (option value : String) : Option Given :=
  match option, sub with
  | "--log-level", _ =>
    if given.logLevel.isNone && logLevels.contains value then
      some { given with logLevel := some value }
    else none
  | "--config", _ =>
    if given.config.isNone && !value.isEmpty then some { given with config := some value } else none
  | "--out", some .transform =>
    if given.out.isNone && !value.isEmpty then some { given with out := some value } else none
  | "--emit", some .transform =>
    if given.emit.isNone then (Emit.ofWord? value).map fun e => { given with emit := some e } else none
  | _, _ => none

/-- Splits a word at its first equals sign. -/
def splitEquals? (word : String) : Option (String × String) :=
  let cs := word.toList
  match cs.dropWhile (· ≠ '=') with
  | [] => none
  | _ :: value => some (String.ofList (cs.takeWhile (· ≠ '=')), String.ofList value)

/-- One word for a subcommand that takes a positional value. -/
def Given.addInput? (given : Given) (word : String) : Option Given :=
  if word.isEmpty || !given.inputs.isEmpty then none
  else some { given with inputs := [word] }

/-- What a subcommand was given, or a call for help. -/
inductive Parsed where
  | given (g : Given)
  | help

/-- The words after a subcommand; after `--` all of them are positional. -/
def parseSub? (sub : Subcommand) : List String → Given → Option Parsed
  | [], given => some (.given given)
  | word :: rest, given =>
    if word = "--" then (rest.foldlM Given.addInput? given).map .given
    else if word = "--help" || "-h".toList.isPrefixOf word.toList then some .help
    else if isValue word then (given.addInput? word).bind (parseSub? sub rest)
    else
      match splitEquals? word with
      | some (option, value) => (given.take? (some sub) option value).bind (parseSub? sub rest)
      | none =>
        match rest with
        | value :: rest =>
          if isValue value then (given.take? (some sub) word value).bind (parseSub? sub rest) else none
        | [] => none

/-- What a subcommand asks for, once it has all it needs. -/
def request? (sub : Subcommand) (before after : Given) : Option Request :=
  let config := after.config.or before.config
  match sub, after.inputs, after.out with
  | .transform, [input], some out =>
    some (.run config (.transform input out (after.emit.getD .java)))
  | .symbols, [input], _ => some (.run config (.symbols input))
  | _, _, _ => none

def finish? (sub : Subcommand) (before : Given) (rest : List String) : Option Request :=
  match parseSub? sub rest {} with
  | none => none
  | some .help => some .help
  | some (.given after) => request? sub before after

/-- What help can be asked for: everything, or one command by its name. -/
def isHelpTopic : List String → Bool
  | [] | ["transform"] | ["symbols"] | ["help"] => true
  | _ => false

/-- The words up to the subcommand. -/
def parseTop? : List String → Given → Option Request
  | [], _ => none
  | word :: rest, given =>
    if word = "transform" then finish? .transform given rest
    else if word = "symbols" then finish? .symbols given rest
    else if word = "help" then if isHelpTopic rest then some .help else none
    else if word = "--help" || "-h".toList.isPrefixOf word.toList then some .help
    else if word = "--version" || "-V".toList.isPrefixOf word.toList then some .version
    else
      match splitEquals? word with
      | some (option, value) => (given.take? none option value).bind (parseTop? rest)
      | none =>
        match rest with
        | value :: rest =>
          if isValue value then (given.take? none word value).bind (parseTop? rest) else none
        | [] => none

/-- What a command line asks for, if it is well formed. -/
def parse? (words : List String) : Option Request :=
  parseTop? words {}

end Arguments

end VersionWeave
