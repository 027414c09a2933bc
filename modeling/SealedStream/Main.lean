import SealedStream.CommandLine.HiddenLine
import SealedStream.CommandLine.Run

/-!
# The program

Runs a command in the real system: files, the standard streams, the terminal, the clock and the
random numbers of the machine.
-/

namespace SealedStream.CommandLine

/-- The streams that a command reads from and writes to, and the file that it writes to. -/
structure Streams where
  input : IO.Ref IO.FS.Stream
  output : IO.Ref IO.FS.Stream
  outputFile : IO.Ref (Option String)

/-- The number of an error, which the system may give as a negative one of 32 bits. -/
def plainNumber (n : UInt32) : Nat :=
  n.toInt32.toInt.natAbs

/-- The number of an error; the one of a failed transfer if it has none. -/
def errorNumber : IO.Error → Nat
  | .alreadyExists _ n _ | .otherError n _ | .resourceBusy n _ | .resourceVanished n _
  | .unsupportedOperation n _ | .hardwareFault n _ | .unsatisfiedConstraints n _
  | .illegalOperation n _ | .protocolError n _ | .timeExpired n _ | .interrupted _ n _
  | .noFileOrDirectory _ n _ | .invalidArgument _ n _ | .permissionDenied _ n _
  | .resourceExhausted _ n _ | .inappropriateType _ n _ | .noSuchThing _ n _ => plainNumber n
  | .unexpectedEof | .userError _ => 5

/-- What an action in the real system gives, or its error. -/
def attempt {α : Type} (action : IO α) : IO (Except OsError α) := do
  try return .ok (← action)
  catch e => return .error ⟨errorNumber e⟩

/-- The content of a settings file, if there is one. -/
def readSettings (file : String) : IO (Option (Except OsError ByteArray)) := do
  match ← attempt (IO.FS.readBinFile file) with
  | .error e => return if e = .notFound ∨ e = .notDirectory then none else some (.error e)
  | .ok bytes => return some (.ok bytes)

/-- A line typed at the terminal after a text has been shown there.  The terminal gives it line by
line, and erases in it what is erased; it gives nothing at the end of all input. -/
def askTerminal (text : String) : IO (Option String) := do
  let out ← IO.FS.Handle.mk "/dev/tty" .write
  out.putStr text
  out.flush
  let typed ← (← IO.FS.Handle.mk "/dev/tty" .read).getLine
  if typed.isEmpty then return none
  let (ending, line, _) := HiddenLine.type .none {} typed.toList
  out.putStr line.shown
  out.flush
  match ending with
  | .closed => return none
  | .entered =>
    out.putStr "\n"
    out.flush
    return line.text

/-- The reply of the real system to a request. -/
def Streams.reply (s : Streams) : (r : ShellRequest) → IO r.Reply
  | .settings file => readSettings file
  | .openInput file => attempt do
    s.input.set (.ofHandle (← IO.FS.Handle.mk file .read))
  | .read size => do
    let stream ← s.input.get
    attempt (stream.read (USize.ofNat size))
  | .draw size => do
    match Bytes.ofByteArray? size (← IO.getRandomBytes (USize.ofNat size)) with
    | some bytes => return bytes
    | none => throw (IO.userError "not enough random bytes")
  | .derive d => return d.key
  | .time d => do
    let start ← IO.monoNanosNow
    let key ← IO.lazyPure fun _ => d.key
    let stop ← IO.monoNanosNow
    let elapsed := if key.data.isEmpty then 0 else stop - start
    return (⟨elapsed / 1000000000, elapsed % 1000000000⟩ : Duration)
  | .prompt text => attempt (askTerminal text)
  | .createOutput file => attempt do
    s.output.set (.ofHandle (← IO.FS.Handle.mk file .write))
    s.outputFile.set (some file)
  | .write bytes => attempt do
    let stream ← s.output.get
    stream.write bytes
    stream.flush
  | .removeOutput => do
    if let some file ← s.outputFile.get then
      discard (attempt (IO.FS.removeFile file))

/-- Runs a program in the real system. -/
def Streams.perform {α : Type} (s : Streams) : Program Shell α → IO α
  | .done a => return a
  | .ask r next => do
    let x ← s.reply r
    s.perform (next x)

/-- The variables that the program looks at. -/
def variableNames : List String :=
  ["HOME", "XDG_CONFIG_HOME", "QCRYPT_CONFIG", "QCRYPT_LOG", "QCRYPT_PASSWORD", "QCRYPT_USER_CRED"]

/-- The variables of the real system. -/
def readEnvironment : IO Environment := do
  let values ← variableNames.filterMapM fun name => do
    return (← IO.getEnv name).map ((name, ·))
  return fun name => values.lookup name

/-- No input has more bytes than this. -/
def largestInput : Nat := 0x4000000000000000

end SealedStream.CommandLine

open SealedStream.CommandLine in
/-- Runs the command that the words of the command line ask for. -/
def main (words : List String) : IO UInt32 := do
  let streams : Streams :=
    ⟨← IO.mkRef (← IO.getStdin), ← IO.mkRef (← IO.getStdout), ← IO.mkRef none⟩
  let outcome ← streams.perform (run largestInput words (← readEnvironment))
  match outcome with
  | .success => pure ()
  | .failure report => IO.eprintln report.render
  | .usage => IO.eprintln usageText
  return UInt32.ofNat outcome.exitCode
