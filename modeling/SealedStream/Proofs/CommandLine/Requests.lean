import SealedStream.Proofs.CommandLine.Action
import SealedStream.Proofs.CommandLine.Files

/-!
# The requests of commands

Which requests the parts of a command make, and what the requests leave as it is.  A session reads,
draws, has keys stretched and asks for passwords (`ShellRequest.OfSession`), which neither opens a
file nor changes one (`Machine.Aside`).  What prepares a command changes no file; what fills an
output changes no other.
-/

namespace SealedStream.CommandLine

variable {α ε : Type}

/-! ### Requests -/

namespace ShellRequest

/-- What is asked for a password. -/
def Prompts (r : ShellRequest) : Prop :=
  ∃ text, r = prompt text

/-- What a session asks for. -/
def OfSession : ShellRequest → Prop
  | read _ | draw _ | derive _ | prompt _ => True
  | _ => False

/-- What is asked for before an output is created. -/
def Prepares (r : ShellRequest) : Prop :=
  r.OfSession ∨ (∃ file, r = settings file) ∨ ∃ file, r = openInput file

/-- What is asked for while an output is written. -/
def Fills (r : ShellRequest) : Prop :=
  r.OfSession ∨ ∃ bytes, r = write bytes

theorem Prompts.ofSession {r : ShellRequest} (h : r.Prompts) : r.OfSession := by
  obtain ⟨text, rfl⟩ := h
  trivial

end ShellRequest

namespace Machine

variable {m m' : Machine} {r : ShellRequest}

/-- Files, outputs and whatever else a command cannot read up are as before. -/
structure Keeps (m m' : Machine) : Prop where
  files : m'.files = m.files
  standardInput : m'.standardInput = m.standardInput
  standardOutput : m'.standardOutput = m.standardOutput
  hasTerminal : m'.terminal.isSome = m.terminal.isSome
  tape : m'.tape = m.tape
  sink : m'.sink = m.sink

namespace Keeps

theorem refl (m : Machine) : Keeps m m :=
  ⟨rfl, rfl, rfl, rfl, rfl, rfl⟩

theorem trans {m'' : Machine} (h : Keeps m m') (h' : Keeps m' m'') : Keeps m m'' :=
  ⟨h'.files.trans h.files, h'.standardInput.trans h.standardInput,
    h'.standardOutput.trans h.standardOutput, h'.hasTerminal.trans h.hasTerminal,
    h'.tape.trans h.tape, h'.sink.trans h.sink⟩

end Keeps

/-- Random bytes, keys and answers are as before, too. -/
structure Idle (m m' : Machine) : Prop extends Keeps m m' where
  drawn : m'.drawn = m.drawn
  keys : m'.keys = m.keys
  terminal : m'.terminal = m.terminal

theorem Idle.trans {m'' : Machine} (h : Idle m m') (h' : Idle m' m'') : Idle m m'' :=
  ⟨h.toKeeps.trans h'.toKeeps, h'.drawn.trans h.drawn, h'.keys.trans h.keys,
    h'.terminal.trans h.terminal⟩

/-- A session has been all that happened: no file was opened or changed, and nothing written. -/
structure Aside (m m' : Machine) : Prop extends Keeps m m' where
  source : m'.source = m.source

namespace Aside

theorem refl (m : Machine) : Aside m m :=
  ⟨.refl m, rfl⟩

theorem trans {m'' : Machine} (h : Aside m m') (h' : Aside m' m'') : Aside m m'' :=
  ⟨h.toKeeps.trans h'.toKeeps, h'.source.trans h.source⟩

/-- What a session asks for is answered so. -/
theorem answer (h : r.OfSession) (m : Machine) : Aside m (m.answer r).2 := by
  cases r with
  | read size =>
    rw [Machine.answer, Machine.read]
    split
    · exact refl m
    · exact ⟨⟨rfl, rfl, rfl, rfl, rfl, rfl⟩, rfl⟩
    · split <;> exact ⟨⟨rfl, rfl, rfl, rfl, rfl, rfl⟩, rfl⟩
  | draw size => exact ⟨⟨rfl, rfl, rfl, rfl, rfl, rfl⟩, rfl⟩
  | derive d => exact ⟨⟨rfl, rfl, rfl, rfl, rfl, rfl⟩, rfl⟩
  | prompt text =>
    rw [Machine.answer, Machine.prompt]
    split
    · exact refl m
    next typed hterminal =>
      have hsome := congrArg Option.isSome hterminal.symm
      dsimp only
      split <;> exact ⟨⟨rfl, rfl, rfl, hsome, rfl, rfl⟩, rfl⟩
  | _ => cases h

end Aside

theorem files_settings (name : String) (m : Machine) : (m.settings name).2.files = m.files := by
  unfold settings
  split
  · rfl
  · rfl
  · rfl
  · split <;> rfl

theorem files_openInput (name : String) (m : Machine) : (m.openInput name).2.files = m.files := by
  unfold openInput
  split <;> rfl

/-- **Before an output is created**, files stay as they are. -/
theorem files_answer (h : r.Prepares) (m : Machine) : (m.answer r).2.files = m.files := by
  obtain h | ⟨name, rfl⟩ | ⟨name, rfl⟩ := h
  · exact (Aside.answer h m).files
  · exact files_settings name m
  · exact files_openInput name m

/-- A write changes no file but the one that is written to. -/
theorem butFor_write (bytes : ByteArray) (m : Machine) :
    (m.write bytes).2.sink = m.sink ∧
      (m.write bytes).2.files.butFor m.sink = m.files.butFor m.sink := by
  unfold write
  split
  next name hsink => exact ⟨rfl, by rw [hsink]; exact Files.remove_put _ _ _⟩
  next device hsink =>
    split <;> exact ⟨rfl, rfl⟩

/-- **While an output is written**, other files stay as they are. -/
theorem butFor_answer (h : r.Fills) (m : Machine) :
    (m.answer r).2.sink = m.sink ∧
      (m.answer r).2.files.butFor m.sink = m.files.butFor m.sink := by
  obtain h | ⟨bytes, rfl⟩ := h
  · exact ⟨(Aside.answer h m).sink, congrArg (·.butFor m.sink) (Aside.answer h m).files⟩
  · exact butFor_write bytes m

theorem files_removeOutput (m : Machine) : m.removeOutput.files = m.files.butFor m.sink := by
  rw [removeOutput]
  cases m.sink <;> rfl

/-- Creating an output empties it. -/
theorem createOutput_cases (name : String) (m : Machine) :
    (∃ e, m.createOutput name = (.error e, m)) ∨
      ∃ sink m', m.createOutput name = (.ok (), m') ∧ m.files.locate name = .ok sink ∧
        m'.sink = sink ∧ m'.files.butFor sink = m.files.butFor sink := by
  rw [createOutput]
  split
  next e hlocate => exact .inl ⟨e, rfl⟩
  next device hlocate =>
    split
    · exact .inl ⟨_, rfl⟩
    · exact .inr ⟨_, _, rfl, hlocate, rfl, rfl⟩
  next file hlocate => exact .inr ⟨_, _, rfl, hlocate, rfl, Files.remove_put _ _ _⟩

end Machine

/-! ### Parts of commands -/

/-- Without a settings file all settings are the usual ones. -/
theorem Machine.perform_loadSettings_of_none {m : Machine} {file : String}
    (h : m.settings file = (none, m)) :
    m.perform (loadSettings file) .direct = ((.ok {}, .direct), m) := by
  have hask : m.perform (Action.ofProgram (ask (.settings file))) .direct
      = ((.ok none, .direct), m) := by
    rw [perform_ofProgram, run_ask, show m.answer (.settings file) = _ from h]
  exact (perform_bind_of_ok .direct m hask).trans rfl

/-- Opens the input if it is a file. -/
def openFile : Option String → Action Unit
  | some name => Action.orReport (ask (.openInput name)) (Action.during s!"opening input: {name}")
  | none => pure ()

/-- Decodes the input if it is armored. -/
def decodeInput (bound : Nat) (armor : Bool) : Action Unit := do
  if armor then
    set (Input.memory (← decodeArmor (← slurp bound .empty)))

/-- An input is opened, and then decoded. -/
theorem openInput_eq (bound : Nat) (file : Option String) (armor : Bool) :
    openInput bound file armor = (do openFile file; decodeInput bound armor) := by
  cases file <;> rfl

/-- A credential is in the words of a command, and in nothing else. -/
theorem exists_readCredential_eq (text : Option String) :
    ∃ result : Except Report Credential, readCredential text = liftM result := by
  unfold readCredential
  split
  · exact ⟨.error _, rfl⟩
  · split
    · exact ⟨.error _, rfl⟩
    next bytes _ =>
      cases Credential.ofByteArray bytes with
      | ok credential => exact ⟨.ok credential, rfl⟩
      | error fault => exact ⟨.error _, rfl⟩

section Parts

open ShellRequest

theorem only_typed (text : String) : (typed text).Only Prompts := by
  refine Program.Only.bind (.request ⟨_, rfl⟩) fun reply => ?_
  rcases reply with e | _ | password <;> exact .done _

theorem only_typedTwice (first second : String) : (typedTwice first second).Only Prompts := by
  refine (only_typed first).bind fun result => ?_
  cases result with
  | error fault => exact .done _
  | ok password =>
    refine (only_typed second).bind fun result => ?_
    cases result with
    | error fault => exact .done _
    | ok again =>
      dsimp only
      split <;> exact .done _

theorem only_newPassword (fixed hint : Option String) (info : PassInfo) :
    (newPassword fixed hint info).Only Prompts := by
  cases fixed with
  | some password => exact .done _
  | none => exact (only_typedTwice _ _).bind fun _ => .done _

theorem only_knownPassword (fixed : Option String) (info : PassInfo) :
    (knownPassword fixed info).Only Prompts := by
  cases fixed with
  | some password => exact .done _
  | none => exact (only_typed _).bind fun _ => .done _

theorem only_serveSession {provider : Provider} (h : ∀ info, (provider info).Only Prompts)
    (r : HostRequest) (input : Input) : (serveSession provider r input).Only OfSession := by
  cases r with
  | read size =>
    refine Program.Only.bind ?_ fun _ => .done _
    cases input with
    | direct => exact Program.Only.bind (.request trivial) fun _ => .done _
    | memory bytes => exact .done _
  | draw size => exact Program.Only.bind (.request trivial) fun _ => .done _
  | password info => exact ((h info).mono fun _ => Prompts.ofSession).bind fun _ => .done _
  | derive d => exact Program.Only.bind (.request trivial) fun _ => .done _

theorem only_session {provider : Provider} (h : ∀ info, (provider info).Only Prompts)
    (p : Program Host α) : (Action.session provider p).Only OfSession :=
  fun input => (Program.Only.serve (only_serveSession h) p input).bind fun _ => .done _

theorem only_loadSettings (file : String) : (loadSettings file).Only Prepares := by
  refine (Action.Only.ofProgram (.request (.inr (.inl ⟨_, rfl⟩)))).bind fun content => ?_
  dsimp only
  split
  · exact .pure _
  · exact .throw _
  · exact .throw _

theorem only_readCredential (text : Option String) : (readCredential text).Only Prepares := by
  obtain ⟨result, h⟩ := exists_readCredential_eq text
  rw [h]
  exact .ofExcept result

theorem only_slurp (n : Nat) (out : ByteArray) : (slurp n out).Only Prepares := by
  induction n generalizing out with
  | zero => exact .throw _
  | succ n ih =>
    refine (Action.Only.orReport (.request (.inl trivial)) _).bind fun piece => ?_
    split
    · exact .pure _
    · exact ih _

theorem only_decodeInput (bound : Nat) (armor : Bool) :
    (decodeInput bound armor).Only Prepares := by
  unfold decodeInput
  split
  · exact (only_slurp bound _).bind fun text => (Action.Only.ofExcept _).bind fun _ => .set _
  · exact .pure ()

theorem only_openInput (bound : Nat) (file : Option String) (armor : Bool) :
    (openInput bound file armor).Only Prepares := by
  rw [openInput_eq]
  refine Action.Only.bind ?_ fun _ => only_decodeInput bound armor
  cases file with
  | some name => exact .orReport (.request (.inr (.inr ⟨_, rfl⟩))) _
  | none => exact .pure ()

variable (E : Engine ε) (bound : Nat) {provider : Provider}

theorem only_copy (h : ∀ info, (provider info).Only Prompts) (n : Nat) (p : Pipeline ε) :
    (copy E bound provider n p).Only Fills := by
  induction n generalizing p with
  | zero => exact .throw _
  | succ n ih =>
    refine Action.Only.bind (fun input => (only_session h _ input).mono fun _ => .inl)
      fun x => (Action.Only.orExplain _).bind fun piece => ?_
    split
    · exact .pure _
    · exact (Action.Only.orReport (.request (.inr ⟨_, rfl⟩)) _).bind fun _ => ih _

theorem only_drain (h : ∀ info, (provider info).Only Prompts) (armor : Bool) (p : Pipeline ε) :
    (drain E bound provider armor p).Only Fills := by
  unfold drain
  split
  · refine Action.Only.bind (fun input => (only_session h _ input).mono fun _ => .inl)
      fun x => (Action.Only.orExplain _).bind fun bytes => ?_
    exact .orReport (.request (.inr ⟨_, rfl⟩)) _
  · exact only_copy E bound h bound p

end Parts

end SealedStream.CommandLine
