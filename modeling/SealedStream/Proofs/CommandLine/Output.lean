import SealedStream.Proofs.CommandLine.Requests

/-!
# What a command leaves behind

A command that writes to a file first prepares what it will write (`prepare`): it loads settings,
checks what it was given, opens its input, decodes it if it is armored, and opens the passes that it
decrypts.  All this changes no file.  Then it creates its output, and from then on it changes no
file but that.  If it fails, its output is removed.

* `files_runInvocation`: what becomes of the files.
-/

namespace SealedStream.CommandLine

/-! ### Preparation -/

/-- The file that a command writes to, if it has one. -/
def Command.output? : Command → Option String
  | encrypt options => options.output
  | decrypt options => options.output
  | _ => none

/-- All that encryption does before its output is created, and then what fills that. -/
def prepareEncrypt (bound : Nat) (options : EncryptOptions) (settings : CryptoSettings)
    (credential : Credential) (password : Option String) : Action (Action Unit) := do
  let plan ← choosePlan options settings
  openInput bound options.input false
  return drain EncryptedPass.engine (plan.outputBound bound) (newPassword password options.hint)
    options.armor (plan.pipeline credential)

/-- All that decryption does before its output is created, and then what fills that. -/
def prepareDecrypt (bound : Nat) (options : DecryptOptions) (credential : Credential)
    (password : Option String) : Action (Action Unit) := do
  openInput bound options.input options.armor
  let provider := knownPassword password
  let passes ← Action.orExplain (← Action.session provider (openStream bound credential))
  return drain Decryptor.engine bound provider false passes

/-- All that a command does before its output is created, and then what fills that.  A command that
has none has nothing to prepare but what it is given. -/
def prepare (bound : Nat) (env : Environment) (i : Invocation) : Action (Action Unit) := do
  let settings ← loadSettings (i.options.settings.getD (usualSettingsFile env))
  let password := env "QCRYPT_PASSWORD"
  match i.command with
  | .encrypt options =>
    prepareEncrypt bound options settings.crypto (← readCredential i.options.credential) password
  | .decrypt options =>
    prepareDecrypt bound options (← readCredential i.options.credential) password
  | .info options => return showInfo bound options (← readCredential i.options.credential)
  | .bench json => return bench json

theorem encrypt_eq_prepare (bound : Nat) (options : EncryptOptions) (settings : CryptoSettings)
    (credential : Credential) (password : Option String) :
    encrypt bound options settings credential password =
      prepareEncrypt bound options settings credential password >>= toOutput options.output := by
  simp only [encrypt, prepareEncrypt, bind_assoc, pure_bind]

theorem decrypt_eq_prepare (bound : Nat) (options : DecryptOptions) (credential : Credential)
    (password : Option String) :
    decrypt bound options credential password =
      prepareDecrypt bound options credential password >>= toOutput options.output := by
  simp only [decrypt, prepareDecrypt, bind_assoc, pure_bind]

/-- **A command prepares**, and then fills its output. -/
theorem runInvocation_eq_prepare (bound : Nat) (env : Environment) (i : Invocation) :
    runInvocation bound env i = prepare bound env i >>= toOutput i.command.output? := by
  rw [runInvocation, prepare, bind_assoc]
  refine bind_congr fun settings => ?_
  rcases i.command with options | options | options | json
  · simp only [encrypt_eq_prepare, bind_assoc, Command.output?]
  · simp only [decrypt_eq_prepare, bind_assoc, Command.output?]
  · simp only [bind_assoc, pure_bind, Command.output?]
    rfl
  · rfl

theorem only_prepare (bound : Nat) (env : Environment) (i : Invocation) :
    (prepare bound env i).Only ShellRequest.Prepares := by
  refine (only_loadSettings _).bind fun settings => ?_
  dsimp only
  split
  next options =>
    refine (only_readCredential _).bind fun credential => ?_
    exact (Action.Only.ofExcept _).bind fun plan =>
      (only_openInput bound _ _).bind fun _ => .pure _
  next options =>
    refine (only_readCredential _).bind fun credential =>
      (only_openInput bound _ _).bind fun _ => ?_
    refine Action.Only.bind (fun input => ?_) fun result =>
      (Action.Only.orExplain result).bind fun _ => .pure _
    exact (only_session (only_knownPassword _) _ input).mono fun _ => .inl
  next options => exact (only_readCredential _).bind fun credential => .pure _
  next json => exact .pure _

/-- What an action results in, unless it stops the command, has a property. -/
def Action.Gives {α : Type} (P : α → Prop) (a : Action α) : Prop :=
  ∀ (m : Machine) input b input' m', m.perform a input = ((.ok b, input'), m') → P b

theorem Action.Gives.pure {α : Type} {P : α → Prop} {b : α} (h : P b) :
    Gives P (Pure.pure b) := by
  rintro m input b' input' m' hperform
  cases hperform
  exact h

theorem Action.Gives.bind {α β : Type} {P : β → Prop} (a : Action α) {f : α → Action β}
    (h : ∀ b, Gives P (f b)) : Gives P (a >>= f) := by
  intro m input b input' m' hperform
  rw [Machine.perform_bind] at hperform
  split at hperform
  · exact h _ _ _ _ _ _ hperform
  · cases hperform

/-- What fills an output does no more than that. -/
theorem prepare_gives (bound : Nat) (env : Environment) {i : Invocation} {name : String}
    (h : i.command.output? = some name) :
    (prepare bound env i).Gives fun fill => fill.Only ShellRequest.Fills := by
  refine .bind _ fun settings => ?_
  dsimp only
  split
  next options =>
    refine .bind _ fun credential => .bind _ fun plan => .bind _ fun _ => .pure ?_
    exact only_drain _ _ (only_newPassword _ _) _ _
  next options =>
    refine .bind _ fun credential => .bind _ fun _ => .bind _ fun result => .bind _ fun passes =>
      .pure ?_
    exact only_drain _ _ (only_knownPassword _) _ _
  next hcommand => rw [hcommand] at h; cases h
  next hcommand => rw [hcommand] at h; cases h

/-! ### Outputs -/

namespace Machine

/-- What fills an output changes no other file. -/
theorem butFor_perform {fill : Action Unit} (hfill : fill.Only ShellRequest.Fills) (input : Input)
    (m : Machine) :
    (m.perform fill input).2.sink = m.sink ∧
      (m.perform fill input).2.files.butFor m.sink = m.files.butFor m.sink := by
  let inv (m' : Machine) : Prop :=
    m'.sink = m.sink ∧ m'.files.butFor m.sink = m.files.butFor m.sink
  refine hfill.perform inv (fun r m' hr hinv => ?_) input ⟨rfl, rfl⟩
  obtain ⟨hsink, hfiles⟩ := hinv
  have h := butFor_answer hr m'
  rw [hsink] at h
  exact ⟨h.1, h.2.trans hfiles⟩

/-- **An output is created**, filled, and removed again if that fails. -/
theorem perform_toOutput (fill : Action Unit) (name : String) (input : Input) (m : Machine) :
    m.perform (toOutput (some name) fill) input =
      match m.createOutput name with
      | (.error e, m) => ((.error (Action.during s!"creating output: {name}" e), input), m)
      | (.ok (), m) =>
        match m.perform fill input with
        | ((.ok (), input), m) => ((.ok (), input), m)
        | ((.error report, input), m) => ((.error report, input), m.removeOutput) := by
  cases hcreate : m.createOutput name with
  | mk result created =>
    cases result with
    | error e => exact perform_bind_of_error input m (perform_orReport_of_error input m _ hcreate)
    | ok _ =>
      have hopen := perform_orReport_of_ok (p := ask (.createOutput name)) input m
        (Action.during s!"creating output: {name}") hcreate
      refine (perform_bind_of_ok input m hopen).trans ?_
      rw [perform_tryCatch]
      dsimp only
      rcases created.perform fill input with ⟨⟨report | ⟨⟩, input⟩, filled⟩
      · rfl
      · rfl

/-- **What is written to an output** changes no other file, and is gone after a failure. -/
theorem files_toOutput {fill : Action Unit} (hfill : fill.Only ShellRequest.Fills) (name : String)
    (input : Input) (m : Machine) :
    match m.createOutput name, m.perform (toOutput (some name) fill) input with
    | (.error _, _), ((result, _), after) =>
      (∃ report, result = .error report) ∧ after.files = m.files
    | (.ok (), created), ((result, _), after) =>
      m.files.locate name = .ok created.sink ∧
        match result with
        | .ok () => after.files.butFor created.sink = m.files.butFor created.sink
        | .error _ => after.files = m.files.butFor created.sink := by
  rw [perform_toOutput]
  obtain ⟨e, hcreate⟩ | ⟨sink, created, hcreate, hlocate, rfl, hfiles⟩ := createOutput_cases name m
  · rw [hcreate]
    exact ⟨⟨_, rfl⟩, rfl⟩
  rw [hcreate]
  dsimp only
  refine ⟨hlocate, ?_⟩
  have hfilled := butFor_perform hfill input created
  rw [hfiles] at hfilled
  generalize created.perform fill input = x at hfilled ⊢
  obtain ⟨⟨report | ⟨⟩, input'⟩, filled⟩ := x
  · -- What is removed is what was written to.
    show filled.removeOutput.files = _
    rw [files_removeOutput, hfilled.1]
    exact hfilled.2
  · exact hfilled.2

/-- What the output of a command is opened as; none if it stops before that, or because of that. -/
def openedAs (bound : Nat) (env : Environment) (i : Invocation) (name : String) (m : Machine) :
    Option Sink :=
  match m.perform (prepare bound env i) .direct with
  | ((.error _, _), _) => none
  | ((.ok _, _), prepared) =>
    match prepared.createOutput name with
    | (.error _, _) => none
    | (.ok (), created) => some created.sink

/-- **What a command changes**: nothing before its output is opened, and then nothing but that. -/
theorem files_runInvocation (bound : Nat) (env : Environment) {i : Invocation} {name : String}
    (houtput : i.command.output? = some name) (m : Machine) :
    match m.openedAs bound env i name, m.perform (runInvocation bound env i) .direct with
    | none, ((result, _), after) => (∃ report, result = .error report) ∧ after.files = m.files
    | some sink, ((result, _), after) =>
      m.files.locate name = .ok sink ∧
        match result with
        | .ok () => after.files.butFor sink = m.files.butFor sink
        | .error _ => after.files = m.files.butFor sink := by
  rw [openedAs, runInvocation_eq_prepare, houtput, perform_bind]
  have hkept := (only_prepare bound env i).perform (fun m' => m'.files = m.files)
    (fun r m' hr h => (files_answer hr m').trans h) .direct rfl
  have hfills := prepare_gives bound env houtput m .direct
  generalize m.perform (prepare bound env i) .direct = x at hkept hfills ⊢
  obtain ⟨⟨report | fill, input⟩, prepared⟩ := x
  · exact ⟨⟨report, rfl⟩, hkept⟩
  have h := files_toOutput (hfills _ _ _ rfl) name input prepared
  rw [show prepared.files = m.files from hkept] at h
  dsimp only
  generalize prepared.createOutput name = z at h ⊢
  obtain ⟨e | ⟨⟩, created⟩ := z
  · exact h
  · exact h

/-- What comes of the words of a command line that make sense. -/
theorem execute_eq {words : List String} {env : Environment} {i : Invocation}
    (h : Invocation.read words env = .ok i) (m : Machine) :
    m.execute words env =
      match m.perform (runInvocation (m.inputBound + 2) env i) .direct with
      | ((.ok (), _), after) => (.success, after)
      | ((.error report, _), after) => (.failure report, after) := by
  rw [execute, CommandLine.run, h]
  refine (m.run_bind (runInvocation (m.inputBound + 2) env i .direct) _).trans ?_
  rw [perform]
  rcases m.run (runInvocation (m.inputBound + 2) env i .direct) with ⟨⟨report | ⟨⟩, input⟩, after⟩
  · rfl
  · rfl

end Machine

end SealedStream.CommandLine
