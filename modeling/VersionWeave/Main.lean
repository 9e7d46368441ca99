import VersionWeave.Command.Run

namespace VersionWeave

/-- A place as a path that does not depend on the working directory. -/
def absolutePath (place : List String) : String :=
  "/" ++ "/".intercalate place

/-- Reads what stands at a place, and for a directory all that is below it. -/
partial def readEntry? (place : List String) : IO (Option Entry) := do
  let path := (← IO.currentDir) / absolutePath place
  if ← path.isDir then
    let names := (← path.readDir).map fun e => e.fileName
    let children ← names.toList.filterMapM fun name => do
      return (← readEntry? (place ++ [name])).map (name, ·)
    return some (.dir (children.foldl (fun sorted (name, e) => Entry.setChild name e sorted) []))
  else if ← path.pathExists then
    return some (.file (← IO.FS.readBinFile path))
  else
    return none

/-- Takes over what a path passes through and what it leads to. -/
def loadPath (disk : Disk) (path : String) : IO Disk := do
  let mut disk := disk
  let mut place := disk.start path
  for part in Path.parts path do
    place :=
      if part = "" ∨ part = "." then place
      else if part = ".." then place.dropLast
      else place ++ [part]
    if (disk.entry? place).isNone then
      if ← ((← IO.currentDir) / absolutePath place).isDir then
        disk := disk.putEntry place (.dir [])
  match ← readEntry? place with
  | some entry => return disk.putEntry place entry
  | none => return disk

def loadDisk (paths : List String) : IO Disk := do
  let here := Path.parts (← IO.currentDir).toString
  let workingDirectory := here.filter (· ≠ "")
  let start : Disk := { workingDirectory }
  paths.foldlM loadPath (start.putEntry workingDirectory (.dir []))

def applyChange (change : List String × Entry) : IO Unit := do
  let path := (← IO.currentDir) / absolutePath change.1
  match change.2 with
  | .dir _ => IO.FS.createDirAll path
  | .file bytes => IO.FS.writeBinFile path bytes

end VersionWeave

open VersionWeave in
def main (words : List String) : IO UInt32 := do
  let paths := ((Arguments.parse? words).map Request.paths).getD []
  let disk ← loadDisk paths
  let run := Run.ofWords words disk
  (run.disk.changes disk).forM applyChange
  (← IO.getStdout).putStr run.output
  return run.exitCode.toUInt32
