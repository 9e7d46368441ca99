namespace VersionWeave

/-- A file or a directory; a directory lists its entries by ascending name. -/
inductive Entry where
  | file (bytes : ByteArray)
  | dir (children : List (String × Entry))
  deriving Inhabited

namespace Entry

def child? (name : String) : List (String × Entry) → Option Entry
  | [] => none
  | (n, e) :: rest => if n = name then some e else child? name rest

/-- Puts an entry under a name, in its place by the order of names. -/
def setChild (name : String) (entry : Entry) : List (String × Entry) → List (String × Entry)
  | [] => [(name, entry)]
  | (n, e) :: rest =>
    if n = name then (n, entry) :: rest
    else if name < n then (name, entry) :: (n, e) :: rest
    else (n, e) :: setChild name entry rest

def find? : List String → Entry → Option Entry
  | [], e => some e
  | name :: rest, .dir children => (child? name children).bind (find? rest)
  | _ :: _, .file _ => none

/-- Puts an entry at a path, through directories that are made if they are missing. -/
def put (entry : Entry) : List String → Entry → Entry
  | [], _ => entry
  | name :: rest, .dir children =>
    .dir (setChild name (put entry rest ((child? name children).getD (.dir []))) children)
  | _ :: _, .file bytes => .file bytes

end Entry

/-- Why the file system refuses. -/
inductive FileError where
  | noSuchFile
  | fileExists
  | notADirectory
  | isADirectory
  | nameTooLong
  | nulInName
  | notUtf8
  deriving DecidableEq, Repr

def FileError.message : FileError → String
  | .noSuchFile => "No such file or directory (os error 2)"
  | .fileExists => "File exists (os error 17)"
  | .notADirectory => "Not a directory (os error 20)"
  | .isADirectory => "Is a directory (os error 21)"
  | .nameTooLong => "File name too long (os error 36)"
  | .nulInName => "file name contained an unexpected NUL byte"
  | .notUtf8 => "stream did not contain valid UTF-8"

namespace Path

/-- The parts between slashes. -/
def parts (path : String) : List String :=
  split [] path.toList
where
  split (part : List Char) : List Char → List String
    | [] => [String.ofList part.reverse]
    | c :: rest =>
      if c = '/' then String.ofList part.reverse :: split [] rest else split (c :: part) rest

/-- The parts, up to the last that is not empty. -/
def withoutTrailing (path : String) : List String :=
  ((parts path).reverse.dropWhile (· = "")).reverse

/-- The parts that name something. -/
def names (path : String) : List String :=
  (parts path).filter fun part => part ≠ "" ∧ part ≠ "."

/-- The shorter paths that a path leads through, the longest first. -/
def properPrefixes (path : String) : List (List String) :=
  (List.range ((names path).length - 1)).reverse.map fun n => (names path).take (n + 1)

def isAbsolute (path : String) : Bool :=
  path.toList.head? == some '/'

/-- An absolute path stands for itself wherever it is joined to. -/
def join (dir name : String) : String :=
  if isAbsolute name || dir.isEmpty then name
  else if dir.toList.getLast? == some '/' then dir ++ name
  else dir ++ "/" ++ name

/-- What follows the last dot of a file name, unless that dot comes first. -/
def extension? (path : String) : Option String :=
  match (parts path).getLast? with
  | none => none
  | some name =>
    let after := name.toList.reverse.takeWhile (· ≠ '.')
    let before := name.toList.reverse.dropWhile (· ≠ '.')
    if before.length ≤ 1 || name = ".." then none else some (String.ofList after.reverse)

end Path

/-- The files there are, and the directory that relative paths start from. -/
structure Disk where
  root : Entry := .dir []
  workingDirectory : List String := []
  deriving Inhabited

namespace Disk

/-- Longest name of an entry, in bytes. -/
def maxName : Nat := 255

/-- Longest path, in bytes. -/
def maxPath : Nat := 4095

def entry? (disk : Disk) (place : List String) : Option Entry :=
  disk.root.find? place

def putEntry (disk : Disk) (place : List String) (entry : Entry) : Disk :=
  { disk with root := Entry.put entry place disk.root }

def start (disk : Disk) (path : String) : List String :=
  if Path.isAbsolute path then [] else disk.workingDirectory

/-- Goes on from a directory by one part of a path. -/
def step (disk : Disk) (place : List String) (part : String) : Except FileError (List String) :=
  match disk.entry? place with
  | none => .error .noSuchFile
  | some (.file _) => .error .notADirectory
  | some (.dir _) =>
    if part = "" ∨ part = "." then .ok place
    else if part = ".." then .ok place.dropLast
    else if part.utf8ByteSize > maxName then .error .nameTooLong
    else .ok (place ++ [part])

/-- Where a path leads; what it leads to need not be there. -/
def locate (disk : Disk) (path : String) : Except FileError (List String) :=
  if path = "" then .error .noSuchFile
  else if path.toList.contains '\x00' then .error .nulInName
  else if path.utf8ByteSize > maxPath then .error .nameTooLong
  else (Path.parts path).foldlM disk.step (disk.start path)

def lookup (disk : Disk) (path : String) : Except FileError Entry := do
  let place ← disk.locate path
  match disk.entry? place with
  | none => .error .noSuchFile
  | some e => .ok e

def readText (disk : Disk) (path : String) : Except FileError String := do
  match ← disk.lookup path with
  | .dir _ => .error .isADirectory
  | .file bytes =>
    match String.fromUTF8? bytes with
    | none => .error .notUtf8
    | some text => .ok text

/-- A file that was there is replaced. -/
def writeText (disk : Disk) (path text : String) : Except FileError Disk := do
  let place ← disk.locate path
  match disk.entry? place with
  | some (.dir _) => .error .isADirectory
  | _ => .ok (disk.putEntry place (.file text.toUTF8))

/-- Makes one directory where nothing stands yet. -/
def makeDirectory (disk : Disk) (start parts : List String) : Except FileError Disk := do
  let place ← parts.foldlM disk.step start
  if (disk.entry? place).isSome then .error .fileExists
  else .ok (disk.putEntry place (.dir []))

def isDirectoryAt (disk : Disk) (start parts : List String) : Bool :=
  match (parts.foldlM disk.step start).toOption.bind disk.entry? with
  | some (.dir _) => true
  | _ => false

/-- Makes one directory unless it is there already. -/
def ensureDirectory (disk : Disk) (start parts : List String) : Except FileError Disk :=
  match disk.makeDirectory start parts with
  | .error .fileExists => if disk.isDirectoryAt start parts then .ok disk else .error .fileExists
  | result => result

/--
Makes the first of several paths, each of which leads through the next one: where a parent is
missing, the rest is made before. What was made before a failure stays.
-/
def ensureAll (start : List String) : List (List String) → Disk → Except FileError Unit × Disk
  | [], disk => (.ok (), disk)
  | parts :: shorter, disk =>
    match disk.ensureDirectory start parts with
    | .ok disk => (.ok (), disk)
    | .error .noSuchFile =>
      match ensureAll start shorter disk with
      | (.error e, disk) => (.error e, disk)
      | (.ok (), disk) =>
        match disk.ensureDirectory start parts with
        | .ok disk => (.ok (), disk)
        | .error e => (.error e, disk)
    | .error e => (.error e, disk)

/--
Makes the directories along a path that are missing. A dot at the end names the directory before
it, so that one has to be there.
-/
def makeDirectories (disk : Disk) (path : String) : Except FileError Unit × Disk :=
  if path.toList.contains '\x00' then (.error .nulInName, disk)
  else if path.utf8ByteSize > maxPath then (.error .nameTooLong, disk)
  else
    ensureAll (disk.start path) (Path.withoutTrailing path :: Path.properPrefixes path) disk

end Disk

mutual

/-- The paths of all files below, by the order of names. -/
def Entry.files (path : String) : Entry → List String
  | .file _ => [path]
  | .dir children => Entry.filesIn path children

def Entry.filesIn (path : String) : List (String × Entry) → List String
  | [] => []
  | (name, e) :: rest => e.files (Path.join path name) ++ Entry.filesIn path rest

end

mutual

/-- The directories and files below that are not in an older state, the outer ones first. -/
def Entry.changes (older : Entry) (place : List String) : Entry → List (List String × Entry)
  | .file bytes =>
    match older.find? place with
    | some (.file old) => if old.data = bytes.data then [] else [(place, .file bytes)]
    | _ => [(place, .file bytes)]
  | .dir children =>
    (match older.find? place with
      | some (.dir _) => []
      | _ => [(place, .dir [])]) ++ Entry.changesIn older place children

def Entry.changesIn (older : Entry) (place : List String) :
    List (String × Entry) → List (List String × Entry)
  | [] => []
  | (name, e) :: rest => Entry.changes older (place ++ [name]) e ++ Entry.changesIn older place rest

end

/-- What has to be made or written to turn an older state into this one. -/
def Disk.changes (disk older : Disk) : List (List String × Entry) :=
  Entry.changes older.root [] disk.root

end VersionWeave
