import VersionWeave.Batch
import VersionWeave.Command.Arguments
import VersionWeave.Command.Error
import VersionWeave.Json.Writer
import VersionWeave.Text.Sha256
import VersionWeave.Tree.OfJson

namespace VersionWeave

def schemaVersion : String := "1"

/-- A group that failed, as it is reported. -/
def SynthesisError.report (e : SynthesisError) : Json :=
  .record [("base_name", .str e.baseName), ("message", .str e.message)]

/-- A response as it is printed. -/
def Json.response (j : Json) : String :=
  j.pretty ++ "\n"

/-- The response to a command that fails before it has one of its own. -/
def failureReport (code : Nat) (message : String) : Json :=
  .record [("status", .str "error"), ("schema_version", .str schemaVersion),
    ("error", .record [("code", .int code), ("message", .str message)])]

def CommandError.report (e : CommandError) : Json :=
  failureReport e.exitCode e.message

def SymbolTable.report (table : SymbolTable) : Json :=
  .record [("status", .str "ok"), ("schema_version", .str schemaVersion),
    ("symbols", table.toJson)]

/-- What identifies the units of an outcome. -/
def Outcome.digest (o : Outcome) : String :=
  Sha256.hash o.unitsText.compact

def Outcome.report (o : Outcome) (inputs : Nat) (written : List String) : Json :=
  .record [("status", .str (if o.isSuccess then "ok" else "error")),
    ("schema_version", .str schemaVersion), ("inputs", .int inputs),
    ("written", .ofList Json.str written),
    ("failures", .ofList SynthesisError.report o.failures), ("digest", .str o.digest),
    ("stats", o.stats.toJson)]

namespace Command

/-- Options from a file, or the standard ones. -/
def loadOptions (disk : Disk) : Option String → Except CommandError Options
  | none => .ok {}
  | some path =>
    match disk.readText path with
    | .error cause =>
      .error (.badArguments ("cannot read config " ++ path ++ ": " ++ cause.message))
    | .ok text => (Options.ofText text).mapError .badConfig

/-- Every file below a directory that holds a tree, in the order of their paths. -/
def collectInputs (disk : Disk) (dir : String) : Except CommandError (List String) :=
  match disk.lookup dir with
  | .ok (.dir children) =>
    .ok ((Entry.filesIn dir children).filter fun path => Path.extension? path == some "json")
  | _ => .error (.badArguments ("input directory " ++ dir ++ " does not exist"))

def loadUnit (disk : Disk) (path : String) : Except CommandError CompilationUnit :=
  match disk.readText path with
  | .error cause => .error (.unreadable path cause)
  | .ok text =>
    match Json.decode? CompilationUnit.ofJson? text with
    | none => .error (.badTree path)
    | some u => .ok u

def loadUnits (disk : Disk) (paths : List String) : Except CommandError (List CompilationUnit) :=
  paths.mapM (loadUnit disk)

/-- A unit is named after its primary type, or else by its place in the list. -/
def outputName (u : CompilationUnit) (index : Nat) (emit : Emit) : String :=
  u.primaryName?.getD ("unit" ++ index.repr) ++ "." ++ emit.extension

def outputText (u : CompilationUnit) : Emit → String
  | .java => source u
  | .json => u.toJson.pretty

/-- Writes the units from an index on; what was written before a failure stays. -/
def writeFrom (out : String) (emit : Emit) :
    Nat → List CompilationUnit → Disk → Except CommandError (List String) × Disk
  | _, [], disk => (.ok [], disk)
  | index, u :: rest, disk =>
    let name := outputName u index emit
    let path := Path.join out name
    match disk.writeText path (outputText u emit) with
    | .error cause => (.error (.unwritable path cause), disk)
    | .ok disk =>
      let (written, disk) := writeFrom out emit (index + 1) rest disk
      (written.map (name :: ·), disk)

/-- Writes every unit into a directory and names the files. -/
def writeUnits (units : List CompilationUnit) (out : String) (emit : Emit) (disk : Disk) :
    Except CommandError (List String) × Disk :=
  match disk.makeDirectories out with
  | (.error cause, disk) => (.error (.unwritable out cause), disk)
  | (.ok (), disk) => writeFrom out emit 0 units disk

/-- The input of a run: a weaver, the paths, the units. -/
def load (disk : Disk) (input : String) (options : Options) :
    Except CommandError (Weaver × List String × List CompilationUnit) := do
  let weaver ← (Weaver.ofOptions options).mapError .badConfig
  let paths ← collectInputs disk input
  let units ← loadUnits disk paths
  return (weaver, paths, units)

/-- Transforms what is below a directory; failed groups are part of the answer. -/
def runTransform (input out : String) (emit : Emit) (options : Options) (disk : Disk) :
    Except CommandError (Outcome × Json) × Disk :=
  match load disk input options with
  | .error e => (.error e, disk)
  | .ok (weaver, paths, units) =>
    let outcome := weaver.transform units
    let (written, disk) := writeUnits outcome.units out emit disk
    (written.map fun names => (outcome, outcome.report paths.length names), disk)

def runSymbols (input : String) (options : Options) (disk : Disk) : Except CommandError Json := do
  let (weaver, _, units) ← load disk input options
  return (weaver.symbols units).report

end Command

/-- What a run leaves behind. An error that it reports stands in the output as a response. -/
structure Run where
  exitCode : Nat
  output : String
  failure : Option CommandError := none
  disk : Disk

namespace Run

def failed (e : CommandError) (disk : Disk) : Run :=
  { exitCode := e.exitCode, output := e.report.response, failure := some e, disk }

def versionText : String := "polyver 0.1.0\n"

def helpText : String :=
  "Usage: polyver [OPTIONS] <COMMAND>\n\nCommands:\n  transform <INPUT> --out <OUT> "
    ++ "[--emit java|json]\n  symbols <INPUT>\n\nOptions:\n  --log-level "
    ++ "trace|debug|info|warn|error\n  --config <CONFIG>\n"

/-- Groups that failed are in the response already and only change the exit code. -/
def command (disk : Disk) (options : Options) : Command → Run
  | .transform input out emit =>
    match Command.runTransform input out emit options disk with
    | (.error e, disk) => failed e disk
    | (.ok (outcome, response), disk) =>
      { exitCode := if outcome.isSuccess then 0
          else (CommandError.failedGroups (outcome.failures.map SynthesisError.baseName)).exitCode
        output := response.response, disk }
  | .symbols input =>
    match Command.runSymbols input options disk with
    | .error e => failed e disk
    | .ok response => { exitCode := 0, output := response.response, disk }

/-- Runs a command line on the files there are. -/
def ofWords (words : List String) (disk : Disk) : Run :=
  match Arguments.parse? words with
  | none => { exitCode := 2, output := "", disk }
  | some .version => { exitCode := 0, output := versionText, disk }
  | some .help => { exitCode := 0, output := helpText, disk }
  | some (.run config command) =>
    match Command.loadOptions disk config with
    | .error e => failed e disk
    | .ok options => Run.command disk options command

end Run

end VersionWeave
