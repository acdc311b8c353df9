import FiniteState.Error

/-!
# Text files by path

A set of text files as a value: what a program may read, and what it leaves behind. The files lie in
one directory, the root, from which a path is followed name by name. Only from a directory can a
name be followed: `x/..` leads nowhere unless `x` is a directory. An absolute path leads out of the
root and so to nothing. What a program does to the files is a list of changes, which are made in
order up to the first that fails; those before it are not undone.
-/

namespace FiniteState

/-! ## Paths -/

/-- The names on a path. Several slashes between names stand for one. -/
def pathNames (path : String) : List String := (path.splitOn "/").filter (· != "")

/-- Whether a path asks for a directory by a slash at its end. -/
def endsInSlash (path : String) : Bool := path.toList.getLast? == some '/'

/-- Whether a path begins with a slash. -/
def isAbsolute (path : String) : Bool := path.toList.head? == some '/'

/-- A path taken from a directory. An absolute path does not depend on the directory. -/
def pathIn (directory path : String) : String :=
  if isAbsolute path then path
  else if directory.isEmpty || endsInSlash directory then directory ++ path
  else directory ++ "/" ++ path

/-- The paths of the directories above a path, the highest first. A single dot is no name here, so
that `x/.` is not below `x`. -/
def pathsAbove (path : String) : List String :=
  let lead := if isAbsolute path then "/" else ""
  let names := (pathNames path).filter (· != ".")
  (List.range (names.length - 1)).map fun i => lead ++ "/".intercalate (names.take (i + 1))

/-- The greatest size of a name in bytes. -/
def maxNameSize : Nat := 255

/-- The greatest size of a path in bytes. -/
def maxPathSize : Nat := 4095

/-- Whether a path can lead to a place: it is not absolute, not too long and holds no NUL. -/
def isUsablePath (path : String) : Bool :=
  !isAbsolute path && path.utf8ByteSize ≤ maxPathSize && !path.toList.contains (Char.ofNat 0)

/-- The place of a file or a directory: the names that lead there from the root, none a dot or two
dots. -/
abbrev Place := List String

/-! ## Files -/

/-- A text with the name of its file. -/
structure NamedText where
  name : String
  text : String
deriving DecidableEq, Repr

/-- Text files and directories by place. -/
structure Files where
  /-- The files, each with its text. -/
  files : List (Place × String) := []
  /-- Directories that have been made. A directory with files in it need not be listed. -/
  directories : List Place := []
deriving DecidableEq, Repr

namespace Files

/-- The text of the file at a place. -/
def text? (F : Files) (place : Place) : Option String :=
  (F.files.find? (·.1 == place)).map (·.2)

/-- Whether there is a directory at a place. -/
def isDirectory (F : Files) (place : Place) : Bool :=
  place.isEmpty || F.directories.any place.isPrefixOf
    || F.files.any fun (file, _) => place.isPrefixOf file && place != file

/-- The files without the one at a place. -/
def erase (F : Files) (place : Place) : Files :=
  { F with files := F.files.filter (·.1 != place) }

/-- The files with a text at a place. -/
def insert (F : Files) (place : Place) (text : String) : Files :=
  { F with files := (F.erase place).files ++ [(place, text)] }

/-- Where a name leads from a place, which has to be a directory. A dot leads nowhere else, and two
dots lead up; above the root is the root. -/
def step (F : Files) (place : Place) (name : String) : Option Place :=
  if !F.isDirectory place then none
  else if name == "." then some place
  else if name == ".." then some place.dropLast
  else if name.utf8ByteSize ≤ maxNameSize then some (place ++ [name])
  else none

/-- Where a path leads. At its end there may be nothing yet. -/
def follow (F : Files) (path : String) : Option Place :=
  if isUsablePath path then (pathNames path).foldlM F.step [] else none

/-- Where a path leads that is to be the path of a file. -/
def filePlace? (F : Files) (path : String) : Option Place :=
  if endsInSlash path then none else (F.follow path).filter (!F.isDirectory ·)

/-- The text of the file at a path. -/
def read (F : Files) (path : String) : Except Error String :=
  match (F.filePlace? path).bind F.text? with
  | some text => .ok text
  | none => .error (.file path)

end Files

/-! ## Changes -/

/-- A change to a set of files. -/
inductive FileChange
  /-- Makes a directory in one that is there, unless it is there already. -/
  | makeDirectory (path : String)
  /-- Writes a text to a file, which is made or loses the text that it had. -/
  | write (path text : String)
  /-- Moves a file to another path, in place of a file that is there. -/
  | move (source target : String)
deriving DecidableEq, Repr

namespace FileChange

/-- The path that something is made at. -/
def path : FileChange → String
  | makeDirectory path => path
  | write path _ => path
  | move _ target => target

end FileChange

/-- Makes a directory together with those above it. -/
def makeDirectories (path : String) : List FileChange :=
  (pathsAbove path ++ [path]).map .makeDirectory

namespace Files

/-- The files after a change, or nothing where it fails. -/
def change? (F : Files) : FileChange → Option Files
  | .makeDirectory path => do
    let place ← F.follow path
    if F.isDirectory place then some F
    else if (F.text? place).isSome then none
    else some { F with directories := F.directories ++ [place] }
  | .write path text => do return F.insert (← F.filePlace? path) text
  | .move source target => do
    let place ← F.filePlace? source
    let text ← F.text? place
    return (F.erase place).insert (← F.filePlace? target) text

/-- Makes changes up to the first that fails. The files are as those before it have left them. -/
def carryOut (F : Files) : List FileChange → Except Error Unit × Files
  | [] => (.ok (), F)
  | change :: rest =>
    match F.change? change with
    | some F => F.carryOut rest
    | none => (.error (.file change.path), F)

end Files

end FiniteState
