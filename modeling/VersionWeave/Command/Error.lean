import VersionWeave.Disk
import VersionWeave.Naming

namespace VersionWeave

/-- Why a command fails. -/
inductive CommandError where
  | badArguments (reason : String)
  | badConfig (cause : ConfigError)
  | unreadable (path : String) (cause : FileError)
  | badTree (path : String)
  | unwritable (path : String) (cause : FileError)
  | failedGroups (baseNames : List String)
  | broken (reason : String)
  deriving DecidableEq, Repr

namespace CommandError

def message : CommandError → String
  | .badArguments reason => "invalid arguments: " ++ reason
  | .badConfig cause => "invalid configuration: " ++ cause.message
  | .unreadable path cause => "cannot read " ++ path ++ ": " ++ cause.message
  | .badTree path => "invalid syntax tree in " ++ path ++ ": not a compilation unit"
  | .unwritable path cause => "cannot write " ++ path ++ ": " ++ cause.message
  | .failedGroups baseNames =>
    baseNames.length.repr ++ " group(s) failed to synthesize: " ++ commas baseNames
  | .broken reason => "internal error: " ++ reason

/-- The exit code tells what went wrong: the call, the input, the groups, or the rest. -/
def exitCode : CommandError → Nat
  | .badArguments _ | .badConfig _ => 2
  | .unreadable .. | .badTree _ => 3
  | .failedGroups _ => 4
  | .unwritable .. | .broken _ => 10

end CommandError

end VersionWeave
