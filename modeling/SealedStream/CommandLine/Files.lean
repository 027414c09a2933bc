import SealedStream.CommandLine.OsError

/-!
# Files of values

Files that are given in advance, and what the names on a command line stand for among them.

A name is followed part by part, from the root or from the working directory, and fails at the first
part that cannot be followed, so the error tells how far it leads.  Besides the files there are the
usual directories of a system, and a few devices.  The files that are given have names from the
working directory, such as `a/b`; the directories in it are those that files are in.  A file
anywhere else has a name from the root.

There are no links: each file has one name, and no part of a name leads elsewhere than it says.  Nor
are there permissions.
-/

namespace SealedStream.CommandLine

/-- The files of a machine. -/
abbrev Files := List (String × ByteArray)

/-- The parts that lead to a place from the root. -/
abbrev Path := List String

/-! ### Devices -/

/-- What can be opened like a file and is none. -/
inductive Device
  /-- It is always empty, and takes everything. -/
  | null
  /-- It has zeros without end, and takes everything. -/
  | zero
  /-- It has zeros without end, and no space for anything. -/
  | full
  /-- The terminal, if there is one.  Only answers are read from it. -/
  | terminal
  | standardInput
  | standardOutput
  | standardError
  deriving DecidableEq, Repr

/-- The stream that a number stands for. -/
def Device.ofNumber? : String → Option Device
  | "0" => some .standardInput
  | "1" => some .standardOutput
  | "2" => some .standardError
  | _ => none

/-- The device at a place. -/
def Device.ofPath? : Path → Option Device
  | ["dev", "null"] => some .null
  | ["dev", "zero"] => some .zero
  | ["dev", "full"] => some .full
  | ["dev", "tty"] => some .terminal
  | ["dev", "stdin"] => some .standardInput
  | ["dev", "stdout"] => some .standardOutput
  | ["dev", "stderr"] => some .standardError
  | ["dev", "fd", number] | ["proc", "self", "fd", number] => ofNumber? number
  | _ => none

/-! ### Directories -/

/-- The working directory.  It is in the directory of temporary files, under a name that no one
knows, so that it cannot be reached from there. -/
def workingDirectory : Path :=
  ["tmp", ""]

/-- The directories in the root. -/
def rootDirectories : List String :=
  ["bin", "boot", "dev", "etc", "home", "lib", "media", "mnt", "opt", "proc", "root", "run", "sbin",
    "srv", "sys", "tmp", "usr", "var"]

/-- The directories of the system. -/
def systemDirectories : List Path :=
  [["dev", "fd"], ["dev", "pts"], ["dev", "shm"], ["proc", "self"], ["proc", "self", "fd"]]
    ++ rootDirectories.map fun name => [name]

/-- The name of the file at a place. -/
def nameOf (path : Path) : String :=
  if workingDirectory.isPrefixOf path then "/".intercalate (path.drop workingDirectory.length)
  else "/" ++ "/".intercalate path

/-! ### Names -/

/-- The longest name that can be looked up, in bytes. -/
def longestName : Nat := 4095

/-- The longest part of a name, in bytes. -/
def longestPart : Nat := 255

/-- Whether part of a name stays where it is. -/
def isHere (part : String) : Bool :=
  part.isEmpty || part = "."

/-- What the directories of a name lead to. -/
inductive Place
  | directory
  /-- A part of a directory that is no directory: a file, a device, or nothing yet.  Perhaps it is
  named as a directory. -/
  | entry (path : Path) (asDirectory : Bool)
  deriving DecidableEq, Repr

/-- What can be opened. -/
inductive Source
  | directory
  | device (device : Device)
  | file (name : String)
  deriving DecidableEq, Repr

/-- What can be written to. -/
inductive Sink
  | device (device : Device)
  | file (name : String)
  deriving DecidableEq, Repr

namespace Files

/-! ### Contents -/

/-- Whether there is a file. -/
def has (files : Files) (name : String) : Bool :=
  files.any (·.1 = name)

/-- The content of a file; none if there is no such file. -/
def content (files : Files) (name : String) : ByteArray :=
  ((files.find? (·.1 = name)).map Prod.snd).getD .empty

/-- The files, of which one has a new content. -/
def put (files : Files) (name : String) (bytes : ByteArray) : Files :=
  if files.has name then files.map fun f => if f.1 = name then (name, bytes) else f
  else files ++ [(name, bytes)]

/-- The files without one. -/
def remove (files : Files) (name : String) : Files :=
  files.filter (·.1 ≠ name)

/-- The files in the working directory and below. -/
def inside (files : Files) : Files :=
  files.filter fun f => !f.1.startsWith "/"

/-! ### Places -/

/-- Whether there is a directory at a place. -/
def hasDirectory (files : Files) (path : Path) : Bool :=
  path.isPrefixOf workingDirectory || path ∈ systemDirectories
    || files.any fun f => f.1.startsWith (nameOf path ++ "/")

/-- What is at a place that is no directory. -/
def source? (files : Files) (path : Path) : Option Source :=
  match Device.ofPath? path with
  | some device => some (.device device)
  | none => if files.has (nameOf path) then some (.file (nameOf path)) else none

/-- Follows the parts of a name from a directory.  The root is in itself. -/
def follow (files : Files) : (directory : Path) → (parts : List String) → Except OsError Place
  | _, [] => .ok .directory
  | directory, part :: parts =>
    if isHere part then follow files directory parts
    else if part = ".." then follow files directory.dropLast parts
    else
      let path := directory ++ [part]
      if files.hasDirectory path then follow files path parts
      else if parts.all (·.isEmpty) then .ok (.entry path !parts.isEmpty)
      else if longestPart < part.utf8ByteSize then .error .nameTooLong
      else if (files.source? path).isSome then .error .notDirectory
      else .error .notFound

/-- What the directories of a name lead to. -/
def resolve (files : Files) (name : String) : Except OsError Place :=
  if longestName < name.utf8ByteSize then .error .nameTooLong
  else files.follow (if name.startsWith "/" then [] else workingDirectory) (name.splitOn "/")

/-- Fails if the last part of a place is longer than any can be. -/
def checkLast (path : Path) : Except OsError Unit :=
  if longestPart < (path.getLastD "").utf8ByteSize then .error .nameTooLong else .ok ()

/-- What is opened under a name. -/
def find (files : Files) (name : String) : Except OsError Source := do
  match ← files.resolve name with
  | .directory => return .directory
  | .entry path asDirectory =>
    checkLast path
    match files.source? path with
    | none => throw .notFound
    | some source => if asDirectory then throw .notDirectory else return source

/-- What is written to under a name, which is created if there is nothing.  A name that ends like
that of a directory never is one of a file, whatever there is. -/
def locate (files : Files) (name : String) : Except OsError Sink := do
  match ← files.resolve name with
  | .directory | .entry _ true => throw .isDirectory
  | .entry path false =>
    checkLast path
    match Device.ofPath? path with
    | some device => return .device device
    | none => return .file (nameOf path)

end Files

end SealedStream.CommandLine
