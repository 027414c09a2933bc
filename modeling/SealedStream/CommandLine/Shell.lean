import SealedStream.CommandLine.OsError
import SealedStream.CommandLine.Report
import SealedStream.Pipeline
import SealedStream.WorkFactor

/-!
# What a command asks of its surroundings

Commands read one input and write one output, which are the standard streams unless files are
opened, and ask for passwords on a terminal.  A command is a program with these requests; it may
stop with a report (`Action`).

Armored input is decoded as a whole before anything else is done with it; from then on a command
reads from memory.
-/

namespace SealedStream.CommandLine

/-- A request of a command. -/
inductive ShellRequest
  /-- The content of a settings file, if there is one. -/
  | settings (file : String)
  /-- To read from a file from now on. -/
  | openInput (file : String)
  /-- At most `size` bytes of input; none means that it has ended. -/
  | read (size : Nat)
  /-- Exactly `size` random bytes. -/
  | draw (size : Nat)
  /-- A stretched key. -/
  | derive (derivation : Derivation)
  /-- How long it takes to stretch a key. -/
  | time (derivation : Derivation)
  /-- The line that a person types after a text has been shown, on a terminal that does not show
  it; none if the person ends all input instead. -/
  | prompt (text : String)
  /-- To write to an empty file from now on. -/
  | createOutput (file : String)
  /-- To add to the output. -/
  | write (bytes : ByteArray)
  /-- To remove the file that is written to. -/
  | removeOutput

/-- The replies to a request. -/
def ShellRequest.Reply : ShellRequest → Type
  | settings _ => Option (Except OsError ByteArray)
  | openInput _ => Except OsError Unit
  | read _ => Except OsError ByteArray
  | draw size => Bytes size
  | derive _ => Key
  | time _ => Duration
  | prompt _ => Except OsError (Option String)
  | createOutput _ => Except OsError Unit
  | write _ => Except OsError Unit
  | removeOutput => Unit

/-- The requests of a command and their replies. -/
def Shell : Interface :=
  ⟨ShellRequest, ShellRequest.Reply⟩

/-- A single request. -/
def ask (r : ShellRequest) : Program Shell r.Reply :=
  Program.request (I := Shell) r

/-! ### Input -/

/-- Where a command reads from. -/
inductive Input
  /-- The file that was opened, or standard input. -/
  | direct
  /-- The rest of what was decoded. -/
  | memory (bytes : ByteArray)

namespace Input

/-- At most `size` bytes. -/
def read (size : Nat) : Input → Program Shell (Except OsError ByteArray × Input)
  | direct => do return (← ask (.read size), direct)
  | memory bytes =>
    .done (.ok (bytes.extract 0 size), memory (bytes.extract size bytes.size))

end Input

/-! ### Actions -/

/-- A part of a command, which may stop it. -/
abbrev Action (α : Type) := ExceptT Report (StateT Input (Program Shell)) α

/-- What answers the questions for passwords. -/
abbrev Provider := PassInfo → Program Shell (Except Fault Answer)

/-- Serves a session. -/
def serveSession (provider : Provider) :
    (r : HostRequest) → Input → Program Shell (r.Reply × Input)
  | .read size, input => do
    let (reply, input) ← input.read size
    return (reply.mapError OsError.toIoFault, input)
  | .draw size, input => do return (← ask (.draw size), input)
  | .password info, input => do return (← provider info, input)
  | .derive derivation, input => do return (← ask (.derive derivation), input)

namespace Action

variable {α : Type}

/-- A program as an action that cannot stop a command. -/
def ofProgram (p : Program Shell α) : Action α :=
  ExceptT.lift (StateT.lift p)

/-- A request whose failure stops a command with a report. -/
def orReport (p : Program Shell (Except OsError α)) (report : OsError → Report) : Action α := do
  match ← ofProgram p with
  | .ok a => return a
  | .error e => throw (report e)

/-- A failure of the system while something was done. -/
def during (what : String) (e : OsError) : Report :=
  ⟨what, [e.message]⟩

/-- A result whose fault stops a command. -/
def orExplain : Except Fault α → Action α
  | .ok a => return a
  | .error fault => throw (.explain fault)

/-- A part of a session. -/
def session (provider : Provider) (p : Program Host α) : Action α := fun input => do
  let (a, input) ← p.serve (J := Shell) (serveSession provider) input
  return (.ok a, input)

/-- Adds to the output. -/
def write (bytes : ByteArray) (report : OsError → Report) : Action Unit :=
  orReport (ask (.write bytes)) report

end Action

end SealedStream.CommandLine
