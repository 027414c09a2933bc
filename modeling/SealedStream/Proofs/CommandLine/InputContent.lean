import SealedStream.Proofs.CommandLine.Processing

/-!
# What is processed, and what is left behind

A command processes what its input held when the command started (`Machine.processed`), although it
reads while it writes: what it writes to is another file.  Only where the output is the input is it
otherwise, since creating an output empties it and a failure removes it; armored text, however, has
been read by then.

* `execute_files`: the files after a command that has an output file.
* `execute_processes_input`: how a command ends that has an input file and an output file.
* `execute_in_place_loses_input`: what happens to a file that is written to while it is read.
-/

namespace SealedStream.CommandLine

variable {α : Type} {m m' : Machine} {env : Environment} {i : Invocation} {content : ByteArray}

/-! ### Settings and credentials -/

/-- The settings file of an invocation. -/
def Invocation.settingsFile (env : Environment) (i : Invocation) : String :=
  i.options.settings.getD (usualSettingsFile env)

namespace Machine

/-- What an action results in. -/
def result (a : Action α) (m : Machine) : Except Report α :=
  (m.perform a .direct).1.1

/-- A settings file may be standard input. -/
theorem hasRead_settings (name : String) (m : Machine) : m.HasRead (m.settings name).2 := by
  unfold settings
  split
  · exact .refl m
  · exact .refl m
  · exact .refl m
  · split
    · exact ⟨⟨⟨rfl, rfl, rfl, rfl, rfl, rfl⟩, rfl, rfl, rfl⟩, rfl⟩
    all_goals exact .refl m

theorem perform_loadSettings (file : String) (m : Machine) :
    m.perform (loadSettings file) .direct
      = ((m.result (loadSettings file), .direct), (m.settings file).2) := by
  have hask : m.perform (Action.ofProgram (ask (.settings file))) .direct
      = ((.ok (m.settings file).1, .direct), (m.settings file).2) := perform_ofProgram ..
  rw [result, loadSettings, perform_bind_of_ok .direct m hask]
  dsimp only
  split <;> rfl

theorem perform_readCredential (text : Option String) (m : Machine) :
    m.perform (readCredential text) .direct
      = ((m.result (readCredential text), .direct), m) := by
  obtain ⟨result, h⟩ := exists_readCredential_eq text
  rw [Machine.result, h, perform_ofExcept]

theorem result_readCredential (text : Option String) (m m' : Machine) :
    m'.result (readCredential text) = m.result (readCredential text) := by
  obtain ⟨result, h⟩ := exists_readCredential_eq text
  rw [Machine.result, Machine.result, h, perform_ofExcept, perform_ofExcept]

end Machine

/-! ### Inputs and outputs -/

namespace Command

/-- The file that a command reads, if it has one. -/
def input? : Command → Option String
  | encrypt options => options.input
  | decrypt options => options.input
  | info options => options.input
  | bench _ => none

/-- Whether a command writes what it makes of its input. -/
def processes : Command → Bool
  | encrypt _ | decrypt _ => true
  | info _ | bench _ => false

/-- Whether a command has read all its input when it creates its output. -/
def readsAhead : Command → Bool
  | decrypt options => options.armor
  | _ => false

theorem processes_of_output? {c : Command} {name : String} (h : c.output? = some name) :
    c.processes = true := by
  cases c with
  | encrypt _ | decrypt _ => rfl
  | info _ | bench _ => cases h

end Command

namespace Machine

/-- What the input of a command holds once its settings have been loaded, if it can be opened and
has an end. -/
def held? (env : Environment) (i : Invocation) (m : Machine) : Option ByteArray :=
  ((m.settings (i.settingsFile env)).2.opensInput i.command.input?).bind (·.unread? .direct)

/-- Where the input of a command comes from. -/
def origin (file : Option String) (m : Machine) : Option Source :=
  match file with
  | none => some m.source
  | some name => (m.files.find name).toOption

/-- No file is both read and written. -/
def Separate (input output : Option String) (m : Machine) : Prop :=
  ∀ name, m.origin input = some (.file name) → m.target output ≠ some (.file name)

theorem origin_of_opensInput {file : Option String} {opened : Machine}
    (h : m.opensInput file = some opened) : m.origin file = some opened.source := by
  cases file with
  | none =>
    cases h
    rfl
  | some name =>
    unfold opensInput openInput at h
    unfold origin
    dsimp only at h ⊢
    generalize m.files.find name = found at h ⊢
    rcases found with e | _ | device | file
    · cases h
    · cases h
      rfl
    · cases device <;> cases h <;> rfl
    · cases h
      rfl

theorem Separate.apart {input output : Option String} {opened : Machine} {place : Sink}
    (h : m.Separate input output) (hopens : m.opensInput input = some opened)
    (htarget : m.target output = some place) : opened.Apart place .direct := by
  intro _ name hname hplace
  refine h name ?_ (htarget.trans (congrArg some hplace))
  rw [origin_of_opensInput hopens, hname]

theorem Separate.of_hasRead {input output : Option String} (h : m.Separate input output)
    (hread : m.HasRead m') : m'.Separate input output := by
  unfold Separate origin at h ⊢
  rw [hread.source, hread.files, hread.target_eq]
  exact h

theorem opensInput_of_find {p file : String} (h : m.files.find p = .ok (.file file)) :
    m.opensInput (some p) = some { m with source := .file file, position := 0 } := by
  rw [opensInput, openInput, h]

/-- A file holds its content. -/
theorem held?_of_find {p file : String} (hinput : i.command.input? = some p)
    (h : m.files.find p = .ok (.file file)) : m.held? env i = some (m.files.content file) := by
  have hfiles := (m.hasRead_settings (i.settingsFile env)).files
  rw [held?, hinput, opensInput_of_find (hfiles.symm ▸ h), Option.bind_some, unread?]
  dsimp only
  rw [hfiles, ByteArray.extract_zero_size]

theorem locate_of_target {q file : String} (h : m.target (some q) = some (.file file)) :
    m.files.locate q = .ok (.file file) := by
  unfold target at h
  dsimp only at h
  generalize m.files.locate q = located at h ⊢
  rcases located with e | device | name
  · cases h
  · cases device with
    | terminal =>
      dsimp only at h
      split at h <;> cases h
    | _ => cases h
  · cases h
    rfl

/-- Names that lead to different files are separate. -/
theorem separate_of_locate_ne {p q file : String} (hfile : m.files.find p = .ok (.file file))
    (h : m.files.locate q ≠ .ok (.file file)) : m.Separate (some p) (some q) := by
  intro name horigin htarget
  rw [origin, hfile] at horigin
  cases horigin
  exact h (locate_of_target htarget)

/-- Only what a session reads of a machine is seen in its world. -/
theorem Idle.world_eq {provider : Provider}
    (hprovider : ∀ info, (provider info).Only ShellRequest.Prompts) (h : m.Idle m')
    (bytes : ByteArray) : m'.world provider bytes = m.world provider bytes := by
  have hanswers : ∀ infos, (m'.questioned provider infos).1 = (m.questioned provider infos).1 :=
    questioned_of_terminal_eq hprovider h.terminal
  rw [world, world, h.tape, h.drawn, h.keys, funext hanswers]

theorem Idle.encrypted_eq (h : m.Idle m') (options : EncryptOptions) (settings : CryptoSettings)
    (credential : Credential) (password : Option String) (content : ByteArray) :
    m'.encrypted options settings credential password content
      = m.encrypted options settings credential password content := by
  simp only [encrypted, h.world_eq (only_newPassword _ _)]

theorem Idle.decrypted_eq (h : m.Idle m') (options : DecryptOptions) (credential : Credential)
    (password : Option String) (content : ByteArray) :
    m'.decrypted options credential password content
      = m.decrypted options credential password content := by
  simp only [decrypted, h.world_eq (only_knownPassword _)]

/-! ### Processing -/

/-- What a command makes of what its input holds. -/
def processed (env : Environment) (i : Invocation) (content : ByteArray) (m : Machine) :
    Except Report ByteArray := do
  let settings ← m.result (loadSettings (i.settingsFile env))
  let password := env "QCRYPT_PASSWORD"
  match i.command with
  | .encrypt options =>
    m.encrypted options settings.crypto (← m.result (readCredential i.options.credential)) password
      content
  | .decrypt options =>
    m.decrypted options (← m.result (readCredential i.options.credential)) password content
  | .info _ | .bench _ => return .empty

/-- What a part of a command results in is what the rest goes on with, if it does. -/
theorem outputs_bind {a : Action α} {f : α → Action Unit} {result : Except Report α}
    {made : α → Except Report ByteArray} {file : Option String} {input input' : Input}
    (h : m.perform a input = ((result, input'), m')) (hkeeps : m.Keeps m')
    (hf : ∀ b, m'.Outputs (f b) input' file (made b)) :
    m.Outputs (a >>= f) input file (result >>= made) := by
  cases result with
  | error report => exact ⟨report, input', m', perform_bind_of_error input m h⟩
  | ok b => exact (hf b).of_perform_eq (perform_bind_of_ok input m h) hkeeps

end Machine

/-- **A command processes what its input held**, unless it writes to its input. -/
theorem outputs_runInvocation {bound : Nat} (hprocesses : i.command.processes = true)
    (hheld : m.held? env i = some content) (hbound : content.size + 2 ≤ bound)
    (hseparate : i.command.readsAhead = false →
      m.Separate i.command.input? i.command.output?)
    (hsink : i.command.output? = none → m.sink = .device .standardOutput) :
    m.Outputs (runInvocation bound env i) .direct i.command.output?
      (m.processed env i content) := by
  have hload := m.perform_loadSettings (i.settingsFile env)
  have hread := m.hasRead_settings (i.settingsFile env)
  have hcredential :=
    (m.settings (i.settingsFile env)).2.perform_readCredential i.options.credential
  rw [m.result_readCredential i.options.credential (m.settings (i.settingsFile env)).2]
    at hcredential
  obtain ⟨opened, hopens, hcontent⟩ := Option.bind_eq_some_iff.1 hheld
  have hapart : i.command.readsAhead = false → ∀ place,
      (m.settings (i.settingsFile env)).2.target i.command.output? = some place →
        opened.Apart place .direct :=
    fun hahead place => ((hseparate hahead).of_hasRead hread).apart hopens
  have hsink' := fun hnone => hread.sink.trans (hsink hnone)
  -- Loading settings has read standard input at most, so the input opens as it would have before.
  unfold Machine.processed runInvocation
  generalize (m.settings (i.settingsFile env)).2 = loaded at *
  generalize m.result (loadSettings (i.settingsFile env)) = settings at hload ⊢
  generalize m.result (readCredential i.options.credential) = credential at hcredential ⊢
  refine Machine.outputs_bind hload hread.toKeeps fun settings => ?_
  obtain ⟨options, command⟩ := i
  cases command with
  | info _ | bench _ => cases hprocesses
  | encrypt e =>
    refine Machine.outputs_bind hcredential (.refl loaded) fun credential => ?_
    rw [← hread.encrypted_eq]
    exact outputs_encrypt settings.crypto hopens hcontent hbound (hapart rfl) hsink'
  | decrypt d =>
    refine Machine.outputs_bind hcredential (.refl loaded) fun credential => ?_
    rw [← hread.decrypted_eq]
    exact outputs_decrypt hopens hcontent hbound hapart hsink'

/-- Variables that give a credential and a password. -/
def secretPassword : Environment
  | "QCRYPT_USER_CRED" => some "AAAAAAAAAAAAAAAAAAAAAAAAAAAAAAAAAAAAAAAAAAA"
  | "QCRYPT_PASSWORD" => some "secret"
  | _ => none

namespace Machine

/-! ### Endings -/

/-- A command succeeds, and what was made has been written; or it fails, if nothing was made, or if
there is no place or no room for it. -/
def EndsWith (file : Option String) (made : Except Report ByteArray) (m : Machine)
    (ending : Outcome × Machine) : Prop :=
  match made with
  | .error _ => ending.1.exitCode = 1
  | .ok text =>
    match m.target file with
    | none => ending.1.exitCode = 1
    | some place =>
      if place.takes text then ending.1.exitCode = 0 ∧ m.Wrote place text ending.2
      else ending.1.exitCode = 1

section endsWith

variable {file : Option String} {made : Except Report ByteArray} {text : ByteArray} {place : Sink}
  {ending : Outcome × Machine}

/-- What has been made is written, where there is a place and room for it. -/
theorem EndsWith.wrote (h : m.EndsWith file (.ok text) ending)
    (htarget : m.target file = some place) (hroom : place ≠ .device .full) :
    ending.1.exitCode = 0 ∧ m.Wrote place text ending.2 := by
  rw [EndsWith, htarget] at h
  dsimp only at h
  rwa [if_pos (Sink.takes_of_ne hroom text)] at h

theorem EndsWith.failed (h : m.EndsWith file made ending) (hmade : made.isOk = false) :
    ending.1.exitCode = 1 := by
  cases made with
  | error report => exact h
  | ok text => cases hmade

end endsWith

theorem Idle.inputBound_eq (h : m.Idle m') : m'.inputBound = m.inputBound := by
  rw [inputBound, inputBound, h.files, h.standardInput]

theorem size_held?_le (h : m.held? env i = some content) : content.size ≤ m.inputBound := by
  obtain ⟨opened, hopens, hcontent⟩ := Option.bind_eq_some_iff.1 h
  have hidle := (m.hasRead_settings (i.settingsFile env)).toIdle.trans (idle_of_opensInput hopens)
  rw [← hidle.inputBound_eq]
  exact size_unread_le hcontent

theorem Outputs.endsWith {words : List String} {file : Option String}
    {made : Except Report ByteArray} (hread : Invocation.read words env = .ok i)
    (h : m.Outputs (runInvocation (m.inputBound + 2) env i) .direct file made) :
    m.EndsWith file made (m.execute words env) := by
  have hfails : m.Stops (runInvocation (m.inputBound + 2) env i) .direct →
      (m.execute words env).1.exitCode = 1 := by
    rintro ⟨report, input', m', hperform⟩
    rw [execute_eq hread, hperform]
    rfl
  unfold EndsWith
  cases made with
  | error report => exact hfails h
  | ok text =>
    dsimp only
    split
    next htarget => exact hfails (by rwa [Outputs, htarget] at h)
    next place htarget =>
      by_cases htakes : place.takes text
      · obtain ⟨input', m', hperform, hwrote⟩ := (outputs_of_takes htarget htakes).1 h
        rw [if_pos htakes, execute_eq hread, hperform]
        exact ⟨rfl, hwrote⟩
      · rw [if_neg htakes]
        exact hfails ((outputs_of_not_takes htarget htakes).1 h)

/-- **How a command ends** is how processing what its input held ends, unless it writes to its
input. -/
theorem endsWith_execute {words : List String} (hread : Invocation.read words env = .ok i)
    (hprocesses : i.command.processes = true) (hheld : m.held? env i = some content)
    (hseparate : i.command.readsAhead = false →
      m.Separate i.command.input? i.command.output?)
    (hsink : i.command.output? = none → m.sink = .device .standardOutput) :
    m.EndsWith i.command.output? (m.processed env i content) (m.execute words env) :=
  (outputs_runInvocation hprocesses hheld (Nat.add_le_add_right (size_held?_le hheld) 2) hseparate
    hsink).endsWith hread

/-- **A file that is not written to** is as before, and so is any if the output is never opened. -/
theorem kept_execute {words : List String} {name file : String}
    (hread : Invocation.read words env = .ok i) (houtput : i.command.output? = some name)
    (h : m.files.locate name ≠ .ok (.file file) ∨
      m.openedAs (m.inputBound + 2) env i name = none) :
    (m.execute words env).2.files.has file = m.files.has file ∧
      (m.execute words env).2.files.content file = m.files.content file := by
  have hfiles := files_runInvocation (m.inputBound + 2) env houtput m
  have hafter : (m.execute words env).2.files
      = (m.perform (runInvocation (m.inputBound + 2) env i) .direct).2.files := by
    rw [execute_eq hread]
    rcases m.perform (runInvocation (m.inputBound + 2) env i) .direct with
      ⟨⟨report | ⟨⟩, input⟩, after⟩
    · rfl
    · rfl
  rw [hafter]
  generalize m.openedAs (m.inputBound + 2) env i name = opened at h hfiles
  generalize m.perform (runInvocation (m.inputBound + 2) env i) .direct = x at hfiles ⊢
  obtain ⟨⟨result, input⟩, after⟩ := x
  cases opened with
  | none =>
    rw [show after.files = m.files from hfiles.2]
    exact ⟨rfl, rfl⟩
  | some place =>
    obtain ⟨hlocate, hbut⟩ := hfiles
    have hne : place ≠ .file file := by
      rintro rfl
      exact h.elim (fun hne => hne hlocate) nofun
    -- What was removed after a failure is no longer there to be compared.
    have hothers : after.files.butFor place = m.files.butFor place := by
      rcases result with report | ⟨⟩
      · rw [show after.files = m.files.butFor place from hbut, Files.butFor_butFor]
      · exact hbut
    exact Files.kept_of_butFor_eq hothers hne

/-! ### Encryption of one file to another -/

/-- A machine with one file. -/
def withFile : Machine where
  files := [("f", ofList [1])]

theorem find_withFile : withFile.files.find "f" = .ok (.file "f") := by
  rw [Files.find, Files.resolve_letter _ (by decide)]
  rfl

theorem locate_withFile : withFile.files.locate "g" = .ok (.file "g") := by
  rw [Files.locate, Files.resolve_letter _ (by decide)]
  rfl

theorem settings_withFile : withFile.settings "x" = (none, withFile) := by
  rw [settings, Files.find, Files.resolve_letter _ (by decide)]
  rfl

/-- Variables that give a credential, and a password that cannot be used. -/
def emptyPassword : Environment
  | "QCRYPT_USER_CRED" => some "AAAAAAAAAAAAAAAAAAAAAAAAAAAAAAAAAAAAAAAAAAA"
  | "QCRYPT_PASSWORD" => some ""
  | _ => none

/-- Encryption of one file to another. -/
def fromTo (input output : String) : Invocation :=
  ⟨{ settings := some "x", credential := emptyPassword "QCRYPT_USER_CRED" },
    .encrypt { input := some input, output := some output }⟩

/-- The passes of the usual plan, which fill the output. -/
def fillOf (bound : Nat) (password : Option String) : Action Unit :=
  let plan := (Plan.single .xChaCha20Poly1305).withReadStart Limits.readStart
  drain EncryptedPass.engine (plan.outputBound bound) (newPassword password none) false
    (plan.pipeline ⟨.zeros 32⟩)

section fromTo

variable {p q file : String}

theorem result_loadSettings_of_none {name : String} (h : m.settings name = (none, m)) :
    m.result (loadSettings name) = .ok {} := by
  rw [result, perform_loadSettings_of_none h]

/-- Without settings, all that is prepared is to open the input. -/
theorem perform_prepare_fromTo (env : Environment) (bound : Nat)
    (hsettings : m.settings "x" = (none, m)) (hfind : m.files.find p = .ok (.file file)) :
    m.perform (prepare bound env (fromTo p q)) .direct
      = ((.ok (fillOf bound (env "QCRYPT_PASSWORD")), .direct),
          { m with source := .file file, position := 0 }) := by
  have hload : m.perform (loadSettings "x") .direct = ((.ok {}, .direct), m) :=
    perform_loadSettings_of_none hsettings
  have hcredential : m.perform (readCredential (emptyPassword "QCRYPT_USER_CRED")) .direct
      = ((.ok ⟨.zeros 32⟩, .direct), m) := rfl
  have hplan : m.perform (liftM (choosePlan { input := some p, output := some q } {})) .direct
      = ((.ok ((Plan.single .xChaCha20Poly1305).withReadStart Limits.readStart), .direct), m) := rfl
  have hopen : m.perform (CommandLine.openInput bound (some p) false) .direct
      = ((.ok (), .direct), { m with source := .file file, position := 0 }) := by
    rw [openInput_eq]
    exact perform_bind_of_ok .direct m (perform_openFile (opensInput_of_find hfind) .direct)
  exact ((perform_bind_of_ok .direct m hload).trans
    (perform_bind_of_ok .direct m hcredential)).trans
    ((perform_bind_of_ok .direct m hplan).trans (perform_bind_of_ok .direct m hopen))

/-- The output is opened where its name leads. -/
theorem openedAs_fromTo (env : Environment) (bound : Nat) {place : String}
    (hsettings : m.settings "x" = (none, m)) (hfind : m.files.find p = .ok (.file file))
    (hlocate : m.files.locate q = .ok (.file place)) :
    m.openedAs bound env (fromTo p q) q = some (.file place) := by
  rw [openedAs, perform_prepare_fromTo env bound hsettings hfind]
  dsimp only
  rw [createOutput, hlocate]

/-- What is made of the input is what encryption makes of it. -/
theorem processed_fromTo (env : Environment) (content : ByteArray)
    (hsettings : m.settings "x" = (none, m)) :
    m.processed env (fromTo p q) content
      = m.encrypted { input := some p, output := some q } {} ⟨.zeros 32⟩
          (env "QCRYPT_PASSWORD") content := by
  have hload : m.result (loadSettings ((fromTo p q).settingsFile env)) = .ok {} :=
    result_loadSettings_of_none hsettings
  have hcredential : m.result (readCredential (fromTo p q).options.credential)
      = .ok ⟨.zeros 32⟩ := rfl
  rw [processed, hload]
  dsimp only [bind, Except.bind]
  rw [hcredential]
  rfl

/-- With a password it succeeds. -/
theorem exists_processed_fromTo (content : ByteArray) (hsettings : m.settings "x" = (none, m)) :
    ∃ text, m.processed secretPassword (fromTo p q) content = .ok text := by
  have hplan : choosePlan { input := some p, output := some q } {}
      = .ok ((Plan.single .xChaCha20Poly1305).withReadStart Limits.readStart) := rfl
  obtain ⟨cipher, w', hencrypt, -⟩ := exists_run_encrypt_world
    ((Plan.single .xChaCha20Poly1305).withReadStart Limits.readStart) ⟨.zeros 32⟩ content
    (by decide : "secret" ≠ "") (by decide : ((none : Option String).getD "").length ≤ _) m
  have hpassword : secretPassword "QCRYPT_PASSWORD" = some "secret" := rfl
  rw [processed_fromTo secretPassword content hsettings, encrypted_of_plan hplan, hpassword,
    hencrypt]
  exact ⟨outputText false cipher, rfl⟩

/-- It ends as what is made of the input does. -/
theorem endsWith_fromTo {words : List String} (hread : Invocation.read words env = .ok (fromTo p q))
    (hfind : m.files.find p = .ok (.file file)) (hne : m.files.locate q ≠ .ok (.file file)) :
    m.EndsWith (some q) (m.processed env (fromTo p q) (m.files.content file))
      (m.execute words env) :=
  endsWith_execute hread rfl (held?_of_find rfl hfind)
    (fun _ => separate_of_locate_ne hfind hne) nofun

end fromTo

/-! ### What is left behind -/

/-- **The files after a command with an output file.**  If it fails before its output is opened, all
files are as before.  If it fails after that, the output is gone and all other files are as before,
and so are they if the command succeeds. -/
theorem execute_files {words : List String} {env : Environment} {i : Invocation} {name : String}
    (hread : Invocation.read words env = .ok i) (houtput : i.command.output? = some name)
    (m : Machine) :
    match m.openedAs (m.inputBound + 2) env i name, m.execute words env with
    | none, (outcome, after) => outcome.exitCode = 1 ∧ after.files = m.files
    | some sink, (outcome, after) =>
      m.files.locate name = .ok sink ∧
        (outcome.exitCode = 0 ∧ after.files.butFor sink = m.files.butFor sink ∨
          outcome.exitCode = 1 ∧ after.files = m.files.butFor sink) := by
  rw [execute_eq hread]
  have h := files_runInvocation (m.inputBound + 2) env houtput m
  generalize m.openedAs (m.inputBound + 2) env i name = opened at h ⊢
  generalize m.perform (runInvocation (m.inputBound + 2) env i) .direct = x at h ⊢
  obtain ⟨⟨result, input⟩, after⟩ := x
  cases opened with
  | none =>
    obtain ⟨⟨report, rfl⟩, hfiles⟩ := h
    exact ⟨rfl, hfiles⟩
  | some sink =>
    obtain ⟨hlocate, hfiles⟩ := h
    rcases result with report | ⟨⟩
    · exact ⟨hlocate, .inr ⟨rfl, hfiles⟩⟩
    · exact ⟨hlocate, .inl ⟨rfl, hfiles⟩⟩

/-- From one file to another that is there already: a command without a credential stops before its
output is opened, one with a password that cannot be used fails behind that, and one with a password
succeeds. -/
theorem execute_files_threeEndings :
    let words := ["-cx", "encrypt", "-if", "-og"]
    let i : Invocation :=
      ⟨{ settings := some "x" }, .encrypt { input := some "f", output := some "g" }⟩
    let m : Machine := { files := [("f", ofList [1]), ("g", ofList [2])] }
    (Invocation.read words (fun _ => none) = .ok i ∧ i.command.output? = some "g" ∧
      Invocation.read words emptyPassword = .ok (fromTo "f" "g") ∧
      Invocation.read words secretPassword = .ok (fromTo "f" "g") ∧
      (fromTo "f" "g").command.output? = some "g") ∧
    (m.openedAs (m.inputBound + 2) (fun _ => none) i "g" = none ∧
      (m.execute words fun _ => none).1.exitCode = 1 ∧
      (m.execute words fun _ => none).2.files = m.files) ∧
    (m.openedAs (m.inputBound + 2) emptyPassword (fromTo "f" "g") "g" = some (.file "g") ∧
      (m.execute words emptyPassword).1.exitCode = 1 ∧
      (m.execute words emptyPassword).2.files = [("f", ofList [1])]) ∧
    (m.openedAs (m.inputBound + 2) secretPassword (fromTo "f" "g") "g" = some (.file "g") ∧
      (m.execute words secretPassword).1.exitCode = 0 ∧
      (m.execute words secretPassword).2.files.butFor (.file "g") = [("f", ofList [1])]) := by
  intro words i m
  have hread : Invocation.read words (fun _ => none) = .ok i := rfl
  have hread₁ : Invocation.read words emptyPassword = .ok (fromTo "f" "g") := rfl
  have hread₂ : Invocation.read words secretPassword = .ok (fromTo "f" "g") := rfl
  have hsettings : m.settings "x" = (none, m) := by
    rw [settings, Files.find, Files.resolve_letter _ (by decide)]
    rfl
  have hfind : m.files.find "f" = .ok (.file "f") := by
    rw [Files.find, Files.resolve_letter _ (by decide)]
    rfl
  have hlocate : m.files.locate "g" = .ok (.file "g") := by
    rw [Files.locate, Files.resolve_letter _ (by decide)]
    rfl
  have hne : m.files.locate "g" ≠ .ok (.file "f") := by
    rw [hlocate]
    decide
  have hleft : m.files.butFor (.file "g") = [("f", ofList [1])] := rfl
  have hopened : m.openedAs (m.inputBound + 2) (fun _ => none) i "g" = none := by
    have hprepare : m.perform (prepare (m.inputBound + 2) (fun _ => none) i) .direct = _ :=
      perform_bind_of_ok .direct m (perform_loadSettings_of_none hsettings)
    rw [openedAs, hprepare]
    rfl
  refine ⟨⟨hread, rfl, hread₁, hread₂, rfl⟩, ?_, ?_, ?_⟩
  · have hfiles := execute_files hread rfl m
    rw [hopened] at hfiles
    exact ⟨hopened, hfiles⟩
  · have hplace := m.openedAs_fromTo emptyPassword (m.inputBound + 2) hsettings hfind hlocate
    have hmade : (m.processed emptyPassword (fromTo "f" "g") (ofList [1])).isOk = false := by
      rw [processed_fromTo emptyPassword _ hsettings]
      decide +kernel
    have hfails : (m.execute words emptyPassword).1.exitCode = 1 :=
      (endsWith_fromTo hread₁ hfind hne).failed hmade
    have hfiles := execute_files hread₁ rfl m
    rw [hplace] at hfiles
    dsimp only at hfiles
    rw [hleft] at hfiles
    obtain ⟨-, ⟨hsucceeds, -⟩ | ⟨-, hgone⟩⟩ := hfiles
    · cases hsucceeds.symm.trans hfails
    · exact ⟨hplace, hfails, hgone⟩
  · have hplace := m.openedAs_fromTo secretPassword (m.inputBound + 2) hsettings hfind hlocate
    obtain ⟨text, hmade⟩ := m.exists_processed_fromTo (ofList [1]) hsettings
    have hends := endsWith_fromTo hread₂ hfind hne
    rw [show m.files.content "f" = ofList [1] from rfl, hmade] at hends
    obtain ⟨hexit, -⟩ := hends.wrote (by rw [target, hlocate]) (by decide)
    have hfiles := execute_files hread₂ rfl m
    rw [hplace] at hfiles
    dsimp only at hfiles
    rw [hleft] at hfiles
    obtain ⟨-, ⟨-, hothers⟩ | ⟨hfails, -⟩⟩ := hfiles
    · exact ⟨hplace, hexit, hothers⟩
    · cases hexit.symm.trans hfails

/-- **The content of the input is what is processed.**  Where the input is a file and the output is
another, the command ends as processing what the file held at the start does, which it still holds
then.  Armored text may be decrypted in place; and where the output is never opened, nothing is
lost whatever it is. -/
theorem execute_processes_input {words : List String} {p q file : String} {m : Machine}
    (hread : Invocation.read words env = .ok i) (hinput : i.command.input? = some p)
    (houtput : i.command.output? = some q) (hfile : m.files.find p = .ok (.file file)) :
    (m.files.locate q ≠ .ok (.file file) ∨ i.command.readsAhead = true →
      m.EndsWith (some q) (m.processed env i (m.files.content file)) (m.execute words env)) ∧
    (m.files.locate q ≠ .ok (.file file) ∨ m.openedAs (m.inputBound + 2) env i q = none →
      (m.execute words env).2.files.has file = true ∧
        (m.execute words env).2.files.content file = m.files.content file) := by
  constructor
  · intro hplaces
    rw [← houtput]
    refine endsWith_execute hread (Command.processes_of_output? houtput)
      (held?_of_find hinput hfile) (fun hahead => ?_) fun hnone => ?_
    · rw [hinput, houtput]
      refine separate_of_locate_ne hfile (hplaces.resolve_right fun hreads => ?_)
      rw [hahead] at hreads
      cases hreads
    · rw [houtput] at hnone
      cases hnone
  · intro hkept
    obtain ⟨hhas, hcontent⟩ := kept_execute hread houtput hkept
    exact ⟨hhas.trans (Files.has_of_find hfile), hcontent⟩

/-- From one file to another, with a password that cannot be used and with one that can: what is
made of the input is nothing or is written, and the input is still there. -/
theorem execute_processes_input_toAnother :
    let words := ["-cx", "encrypt", "-if", "-og"]
    (Invocation.read words emptyPassword = .ok (fromTo "f" "g") ∧
      Invocation.read words secretPassword = .ok (fromTo "f" "g") ∧
      (fromTo "f" "g").command.input? = some "f" ∧ (fromTo "f" "g").command.output? = some "g" ∧
      withFile.files.find "f" = .ok (.file "f") ∧
      withFile.files.locate "g" ≠ .ok (.file "f")) ∧
    ((withFile.execute words emptyPassword).1.exitCode = 1 ∧
      (withFile.execute words emptyPassword).2.files.has "f" = true ∧
      (withFile.execute words emptyPassword).2.files.content "f" = ofList [1]) ∧
    ∃ text, withFile.processed secretPassword (fromTo "f" "g") (ofList [1]) = .ok text ∧
      (withFile.execute words secretPassword).1.exitCode = 0 ∧
      (withFile.execute words secretPassword).2.files.has "g" = true ∧
      (withFile.execute words secretPassword).2.files.content "g" = text ∧
      (withFile.execute words secretPassword).2.files.has "f" = true ∧
      (withFile.execute words secretPassword).2.files.content "f" = ofList [1] := by
  intro words
  have hread : Invocation.read words emptyPassword = .ok (fromTo "f" "g") := rfl
  have hread' : Invocation.read words secretPassword = .ok (fromTo "f" "g") := rfl
  have hne : withFile.files.locate "g" ≠ .ok (.file "f") := by
    rw [locate_withFile]
    decide
  have hcontent : withFile.files.content "f" = ofList [1] := rfl
  refine ⟨⟨hread, hread', rfl, rfl, find_withFile, hne⟩, ?_, ?_⟩
  · obtain ⟨hends, hkept⟩ := execute_processes_input hread rfl rfl find_withFile
    have hmade : (withFile.processed emptyPassword (fromTo "f" "g") (ofList [1])).isOk
        = false := by
      rw [processed_fromTo emptyPassword _ settings_withFile]
      decide +kernel
    exact ⟨(hends (.inl hne)).failed hmade, hkept (.inl hne)⟩
  · obtain ⟨hends, hkept⟩ := execute_processes_input hread' rfl rfl find_withFile
    obtain ⟨text, hmade⟩ := exists_processed_fromTo (ofList [1]) settings_withFile
    have hends := hends (.inl hne)
    rw [hcontent, hmade] at hends
    obtain ⟨hexit, hhas, htext⟩ := hends.wrote (by rw [target, locate_withFile]) (by decide)
    exact ⟨text, hmade, hexit, hhas, htext, hkept (.inl hne)⟩

/-- **A file that is written to while it is read** is lost if the command fails. -/
theorem execute_in_place_loses_input :
    Invocation.read ["-cx", "encrypt", "-if", "-of"] emptyPassword = .ok (fromTo "f" "f") ∧
      withFile.files.find "f" = .ok (.file "f") ∧
      (withFile.execute ["-cx", "encrypt", "-if", "-of"] emptyPassword).1.exitCode = 1 ∧
      (withFile.execute ["-cx", "encrypt", "-if", "-of"] emptyPassword).2.files.has "f"
        = false := by
  have hread : Invocation.read ["-cx", "encrypt", "-if", "-of"] emptyPassword
      = .ok (fromTo "f" "f") := rfl
  have hprepare := perform_prepare_fromTo (q := "f") emptyPassword 3 settings_withFile find_withFile
  -- The output is created over the input that has just been opened.
  let opened : Machine := { withFile with source := .file "f" }
  let created : Machine := { opened with files := [("f", .empty)], sink := .file "f" }
  let fill : Action Unit := fillOf 3 (some "")
  have hrun : withFile.perform (runInvocation 3 emptyPassword (fromTo "f" "f")) .direct
      = opened.perform (toOutput (some "f") fill) .direct := by
    rw [runInvocation_eq_prepare]
    exact perform_bind_of_ok .direct withFile hprepare
  have hcreate : opened.createOutput "f" = (.ok (), created) := by
    rw [createOutput, Files.locate, Files.resolve_letter _ (by decide)]
    rfl
  -- The password is refused, but only when the first block is made.
  have hfails : (created.perform fill .direct).1.1.isOk = false := by decide +kernel
  refine ⟨hread, find_withFile, ?_⟩
  rw [execute_eq hread, show withFile.inputBound + 2 = 3 from rfl, hrun, perform_toOutput, hcreate]
  dsimp only
  have hfill : fill.Only ShellRequest.Fills := only_drain _ _ (only_newPassword _ _) _ _
  have hfilled := butFor_perform hfill .direct created
  generalize created.perform fill .direct = x at hfails hfilled ⊢
  obtain ⟨⟨report | ⟨⟩, input⟩, filled⟩ := x
  · refine ⟨rfl, ?_⟩
    show filled.removeOutput.files.has "f" = false
    rw [files_removeOutput, hfilled.1]
    exact Files.has_remove _ _
  · cases hfails

end Machine

end SealedStream.CommandLine
