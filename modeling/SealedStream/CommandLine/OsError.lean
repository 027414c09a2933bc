import SealedStream.Fault

/-!
# Errors of the operating system

An error is its number; the more frequent ones have a wording of their own.
-/

namespace SealedStream

/-- An error of the operating system. -/
structure OsError where
  number : Nat
  deriving DecidableEq, Repr

namespace OsError

/-- There is nothing with that name. -/
def notFound : OsError := ⟨2⟩
/-- There is no such device, such as a terminal. -/
def noDevice : OsError := ⟨6⟩
/-- There is not as much memory. -/
def outOfMemory : OsError := ⟨12⟩
/-- Something on the way to a name is no directory. -/
def notDirectory : OsError := ⟨20⟩
/-- A directory cannot be read or written as a file. -/
def isDirectory : OsError := ⟨21⟩
/-- There is no space for more. -/
def noSpace : OsError := ⟨28⟩
/-- A name, or a part of one, is longer than any can be. -/
def nameTooLong : OsError := ⟨36⟩

/-- The wording of the numbers that have one. -/
def wording : Nat → String
  | 1 => "Operation not permitted"
  | 2 => "No such file or directory"
  | 4 => "Interrupted system call"
  | 5 => "Input/output error"
  | 6 => "No such device or address"
  | 9 => "Bad file descriptor"
  | 11 => "Resource temporarily unavailable"
  | 12 => "Cannot allocate memory"
  | 13 => "Permission denied"
  | 16 => "Device or resource busy"
  | 17 => "File exists"
  | 20 => "Not a directory"
  | 21 => "Is a directory"
  | 22 => "Invalid argument"
  | 24 => "Too many open files"
  | 26 => "Text file busy"
  | 27 => "File too large"
  | 28 => "No space left on device"
  | 30 => "Read-only file system"
  | 32 => "Broken pipe"
  | 36 => "File name too long"
  | 40 => "Too many levels of symbolic links"
  | n => s!"Unknown error {n}"

/-- The wording of an error, with its number. -/
def message (e : OsError) : String :=
  s!"{wording e.number} (os error {e.number})"

/-- The kind of an error. -/
def kind (e : OsError) : IoKind :=
  match e.number with
  | 1 | 13 => ⟨"PermissionDenied"⟩
  | 2 => .notFound
  | 4 => ⟨"Interrupted"⟩
  | 11 => ⟨"WouldBlock"⟩
  | 12 => ⟨"OutOfMemory"⟩
  | 16 => ⟨"ResourceBusy"⟩
  | 17 => ⟨"AlreadyExists"⟩
  | 20 => ⟨"NotADirectory"⟩
  | 21 => ⟨"IsADirectory"⟩
  | 22 => ⟨"InvalidInput"⟩
  | 26 => ⟨"ExecutableFileBusy"⟩
  | 27 => ⟨"FileTooLarge"⟩
  | 28 => ⟨"StorageFull"⟩
  | 30 => ⟨"ReadOnlyFilesystem"⟩
  | 32 => .brokenPipe
  | 36 => ⟨"InvalidFilename"⟩
  | 40 => ⟨"FilesystemLoop"⟩
  | _ => ⟨"Uncategorized"⟩

/-- An error as a fault. -/
def toFault (e : OsError) : Fault :=
  .io e.kind e.message

/-- An error as the failure of a read. -/
def toIoFault (e : OsError) : IoFault :=
  .system e.kind e.message

end OsError

end SealedStream
