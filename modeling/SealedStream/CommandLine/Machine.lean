import SealedStream.CommandLine.Files
import SealedStream.CommandLine.HiddenLine
import SealedStream.CommandLine.Run
import SealedStream.World

/-!
# A machine of values

Surroundings of a command that are given in advance: files, variables, standard input, a terminal at
which something has been typed, and random bytes.  Running a command leaves another machine behind,
which shows what the command did.

Once it is open a file never fails: its reads give what is there, and its writes find room and last.
What can fail is to open one, and the devices, of which `full` has no room for anything.
-/

namespace SealedStream.CommandLine

/-- A machine. -/
structure Machine where
  files : Files := []
  standardInput : ByteArray := .empty
  /-- How much of standard input has been read. -/
  inputRead : Nat := 0
  /-- What has been written to standard output. -/
  standardOutput : ByteArray := .empty
  /-- What has been typed at the terminal and not been read, if there is one. -/
  terminal : Option (List Char) := none
  /-- What has been shown on the terminal, with the end of each line typed. -/
  shown : String := ""
  /-- The random bytes. -/
  tape : Nat → UInt8 := fun _ => 0
  /-- How many of them have been drawn. -/
  drawn : Nat := 0
  /-- How long any derivation takes. -/
  elapsed : Duration := ⟨1, 0⟩
  /-- The keys that have been stretched. -/
  keys : KeyCache := {}
  /-- Where input comes from. -/
  source : Source := .device .standardInput
  /-- How much of a file has been read. -/
  position : Nat := 0
  /-- Where output goes to. -/
  sink : Sink := .device .standardOutput

namespace Machine

/-! ### Input -/

/-- The content of a settings file, if there is one. -/
def settings (name : String) (m : Machine) : Option (Except OsError ByteArray) × Machine :=
  match m.files.find name with
  | .error _ => (none, m)
  | .ok .directory => (some (.error .isDirectory), m)
  | .ok (.file name) => (some (.ok (m.files.content name)), m)
  | .ok (.device device) =>
    match device with
    | .standardInput =>
      let rest := m.standardInput.extract m.inputRead m.standardInput.size
      (some (.ok rest), { m with inputRead := m.standardInput.size })
    | .zero | .full => (some (.error .outOfMemory), m)
    | .terminal => (some (.error .noDevice), m)
    | _ => (some (.ok .empty), m)

/-- Opens an input. -/
def openInput (name : String) (m : Machine) : Except OsError Unit × Machine :=
  match m.files.find name with
  | .error e => (.error e, m)
  | .ok (.device .terminal) => (.error .noDevice, m)
  | .ok source => (.ok (), { m with source, position := 0 })

/-- Reads input.  A file is read as it is at the time, whatever has become of it since it was
opened. -/
def read (size : Nat) (m : Machine) : Except OsError ByteArray × Machine :=
  match m.source with
  | .directory => (.error .isDirectory, m)
  | .file name =>
    let piece := (m.files.content name).extract m.position (m.position + size)
    (.ok piece, { m with position := m.position + piece.size })
  | .device device =>
    match device with
    | .standardInput =>
      let piece := m.standardInput.extract m.inputRead (m.inputRead + size)
      (.ok piece, { m with inputRead := m.inputRead + piece.size })
    | .zero | .full => (.ok (zeros size), m)
    | _ => (.ok .empty, m)

/-! ### Output -/

/-- Creates an output. -/
def createOutput (name : String) (m : Machine) : Except OsError Unit × Machine :=
  match m.files.locate name with
  | .error e => (.error e, m)
  | .ok (.device device) =>
    if device = .terminal ∧ m.terminal = none then (.error .noDevice, m)
    else (.ok (), { m with sink := .device device })
  | .ok (.file name) => (.ok (), { m with files := m.files.put name .empty, sink := .file name })

/-- Writes output. -/
def write (bytes : ByteArray) (m : Machine) : Except OsError Unit × Machine :=
  match m.sink with
  | .file name => (.ok (), { m with files := m.files.put name (m.files.content name ++ bytes) })
  | .device device =>
    match device with
    | .standardOutput => (.ok (), { m with standardOutput := m.standardOutput ++ bytes })
    | .terminal => (.ok (), { m with shown := m.shown ++ Text.decodeLossy bytes })
    | .full => (.error .noSpace, m)
    | _ => (.ok (), m)

/-- Removes the file that is written to. -/
def removeOutput (m : Machine) : Machine :=
  match m.sink with
  | .file name => { m with files := m.files.remove name }
  | _ => m

/-! ### Questions -/

/-- Shows a text on the terminal, and takes a line from it; an empty one if no more are typed. -/
def prompt (text : String) (m : Machine) : Except OsError (Option String) × Machine :=
  match m.terminal with
  | none => (.error .noDevice, m)
  | some typed =>
    let (ending, line, rest) := HiddenLine.type .none {} typed
    let shown := m.shown ++ text ++ line.shown
    match ending with
    | .entered => (.ok line.text, { m with terminal := some rest, shown := shown ++ "\n" })
    | .closed => (.ok none, { m with terminal := some rest, shown })

/-! ### Commands -/

/-- The reply to a request. -/
def answer (r : ShellRequest) (m : Machine) : r.Reply × Machine :=
  match r with
  | .settings name => m.settings name
  | .openInput name => m.openInput name
  | .read size => m.read size
  | .draw size => (World.tapeBytes m.tape m.drawn size, { m with drawn := m.drawn + size })
  | .derive d =>
    let (key, keys) := m.keys.derive d
    (key, { m with keys })
  | .time _ => (m.elapsed, m)
  | .prompt text => m.prompt text
  | .createOutput name => m.createOutput name
  | .write bytes => m.write bytes
  | .removeOutput => ((), m.removeOutput)

/-- A bound on the size of any input. -/
def inputBound (m : Machine) : Nat :=
  m.files.foldl (fun n f => n + f.2.size) m.standardInput.size

/-- Runs the command that some words ask for. -/
def execute (words : List String) (env : Environment) (m : Machine) : Outcome × Machine :=
  (run m.inputBound words env).run (I := Shell) answer m

end Machine

end SealedStream.CommandLine
