import SealedStream.Proofs.CommandLine.InputContent
import SealedStream.Proofs.RoundTrip

/-!
# Round trips of commands

What one command has encrypted another decrypts, armored or not, whatever the files and streams that
they read and write.  Each of them has to be able to work at all (`Machine.Ready`): its settings
load, it is given a credential and a password, and its input is not its output.

* `execute_decrypt_of_encrypt`: both commands succeed, and the second writes what the first read.
-/

namespace SealedStream.CommandLine

variable {m : Machine} {env : Environment} {credential : Credential} {password : String}
  {content : ByteArray}

/-! ### Worlds of a fixed answer -/

namespace Machine

/-- **What is encrypted with a password** that is fixed is decrypted with it. -/
theorem exists_encrypt_world (plan : Plan) (credential : Credential) (content : ByteArray)
    {hint : Option String} (hpassword : password ≠ "")
    (hhint : (hint.getD "").length ≤ Limits.hintMaxChars) (m : Machine) :
    ∃ cipher,
      ((m.world (newPassword (some password) hint) content).encrypt plan credential).1
        = .ok cipher ∧
      ∀ m' : Machine,
        ((m'.world (knownPassword (some password)) cipher).decrypt credential).1
          = .ok content := by
  obtain ⟨cipher, w', hrun, hthrough⟩ :=
    exists_run_encrypt_world plan credential content hpassword hhint m
  refine ⟨cipher, by rw [hrun], fun m' => ?_⟩
  let v := m'.world (knownPassword (some password)) cipher
  obtain ⟨made, shown, -, -, hopens⟩ := hthrough.exists_shown
  have hcount : plan.count ≠ 0 := Nat.ne_of_gt plan.length_mem.1
  have hv : OpensThrough credential v.provider v.asked v.bytes content := by
    rw [show v.bytes = cipher from m'.bytes_world _ cipher]
    -- Whatever is asked on either side, the password is the one that both commands are given.
    refine hopens v.provider v.asked hcount fun inside q outside before s after _ _ _ => ?_
    exact ⟨⟨password, hint⟩, ⟨password, none⟩, questioned_of_fixed (fun _ => rfl) inside q m,
      questioned_of_fixed (fun _ => rfl) before s m', rfl⟩
  obtain ⟨v', hv'⟩ := World.decrypt_of_opensThrough (m'.inPieces_world _ cipher) hv
  exact congrArg Prod.fst hv'

end Machine

/-! ### Commands -/

/-- Options and settings that encryption can go on with. -/
structure EncryptOptions.InRange (options : EncryptOptions) (settings : CryptoSettings) :
    Prop where
  algorithms : ∃ algorithms,
    chooseAlgorithms options.algorithms settings.algorithms = .ok algorithms ∧
      1 ≤ algorithms.length ∧ algorithms.length ≤ Limits.loopMax
  iterations : IterationsInRange (options.iterations.getD settings.iterations)
  hint : (options.hint.getD "").length ≤ Limits.hintMaxChars

theorem EncryptOptions.InRange.exists_plan {options : EncryptOptions} {settings : CryptoSettings}
    (h : options.InRange settings) : ∃ plan, choosePlan options settings = .ok plan := by
  obtain ⟨algorithms, hchoose, hlength⟩ := h.algorithms
  rw [choosePlan, hchoose]
  dsimp only [bind, Except.bind]
  rw [Plan.ofAlgorithms, dif_pos hlength, dif_pos h.iterations]
  exact ⟨_, rfl⟩

/-- A machine on which a command can process some content: its settings load, it has a credential
and a password, its input can be read, and its output is another place where there is room. -/
structure Machine.Ready (env : Environment) (i : Invocation) (settings : Settings)
    (credential : Credential) (password : String) (content : ByteArray) (place : Sink)
    (m : Machine) : Prop where
  settings : m.result (loadSettings (i.settingsFile env)) = .ok settings
  credential : m.result (readCredential i.options.credential) = .ok credential
  password : env "QCRYPT_PASSWORD" = some password
  input : m.held? env i = some content
  output : m.target i.command.output? = some place
  room : place ≠ .device .full
  separate : m.Separate i.command.input? i.command.output?
  sink : m.sink = .device .standardOutput

theorem Machine.Ready.processed_encrypt {o : GlobalOptions} {e : EncryptOptions}
    {settings : Settings} {place : Sink}
    (h : m.Ready env ⟨o, .encrypt e⟩ settings credential password content place) :
    m.processed env ⟨o, .encrypt e⟩ content
      = m.encrypted e settings.crypto credential (some password) content := by
  rw [processed, h.settings]
  dsimp only [bind, Except.bind]
  rw [h.credential, h.password]

theorem Machine.Ready.processed_decrypt {o : GlobalOptions} {d : DecryptOptions}
    {settings : Settings} {place : Sink}
    (h : m.Ready env ⟨o, .decrypt d⟩ settings credential password content place) :
    m.processed env ⟨o, .decrypt d⟩ content
      = m.decrypted d credential (some password) content := by
  rw [processed, h.settings]
  dsimp only [bind, Except.bind]
  rw [h.credential, h.password]

/-- **A command that is ready** writes what can be made of its input. -/
theorem Machine.Ready.execute {i : Invocation} {settings : Settings} {place : Sink}
    {words : List String} {text : ByteArray}
    (h : m.Ready env i settings credential password content place)
    (hread : Invocation.read words env = .ok i) (hprocesses : i.command.processes = true)
    (hmade : m.processed env i content = .ok text) :
    (m.execute words env).1.exitCode = 0 ∧ m.Wrote place text (m.execute words env).2 := by
  have hends := endsWith_execute hread hprocesses h.input (fun _ => h.separate) fun _ => h.sink
  rw [hmade] at hends
  exact hends.wrote h.output h.room

/-- **Decryption writes what encryption has read.**  Encryption with settings in range and a
password succeeds, and writes a text.  Decryption of this text, armored if it is, succeeds with the
same credential and password, and writes the content. -/
theorem execute_decrypt_of_encrypt {words : List String} {o : GlobalOptions} {e : EncryptOptions}
    {settings : Settings} {place : Sink} (hread : Invocation.read words env = .ok ⟨o, .encrypt e⟩)
    (hready : m.Ready env ⟨o, .encrypt e⟩ settings credential password content place)
    (hrange : e.InRange settings.crypto) (hpassword : password ≠ "") :
    ∃ text, (m.execute words env).1.exitCode = 0 ∧ m.Wrote place text (m.execute words env).2 ∧
      ∀ (words' : List String) (env' : Environment) (o' : GlobalOptions) (d : DecryptOptions)
        (settings' : Settings) (place' : Sink) (m' : Machine),
        Invocation.read words' env' = .ok ⟨o', .decrypt d⟩ → d.armor = e.armor →
        m'.Ready env' ⟨o', .decrypt d⟩ settings' credential password text place' →
          (m'.execute words' env').1.exitCode = 0 ∧
            m'.Wrote place' content (m'.execute words' env').2 := by
  obtain ⟨plan, hplan⟩ := hrange.exists_plan
  obtain ⟨cipher, hencrypt, hdecrypt⟩ :=
    Machine.exists_encrypt_world plan credential content hpassword hrange.hint m
  have hmade : m.processed env ⟨o, .encrypt e⟩ content = .ok (outputText e.armor cipher) := by
    rw [hready.processed_encrypt, Machine.encrypted_of_plan hplan, hencrypt]
    rfl
  obtain ⟨hexit, hwrote⟩ := hready.execute hread rfl hmade
  refine ⟨_, hexit, hwrote, fun words' env' o' d settings' place' m' hread' harmor hready' => ?_⟩
  refine hready'.execute hread' rfl ?_
  have hdecoded : decodedInput d.armor (outputText e.armor cipher) = .ok cipher := by
    rw [harmor]
    cases e.armor with
    | false => rfl
    | true => exact decodeArmor_outputText cipher
  rw [hready'.processed_decrypt, Machine.decrypted, hdecoded]
  dsimp only [bind, Except.bind]
  rw [hdecrypt m']
  rfl

/-- One byte from one file to another, armored, and then to standard output. -/
theorem execute_decrypt_of_encrypt_armored :
    let o : GlobalOptions :=
      { settings := some "x", credential := secretPassword "QCRYPT_USER_CRED" }
    let e : EncryptOptions := { input := some "f", output := some "g", armor := true }
    let m : Machine := { files := [("f", ofList [1])] }
    (Invocation.read ["-cx", "encrypt", "-if", "-og", "--armor"] secretPassword
        = .ok ⟨o, .encrypt e⟩ ∧
      m.Ready secretPassword ⟨o, .encrypt e⟩ {} ⟨.zeros 32⟩ "secret" (ofList [1]) (.file "g") ∧
      e.InRange {} ∧ "secret" ≠ "") ∧
    ∃ text,
      (m.execute ["-cx", "encrypt", "-if", "-og", "--armor"] secretPassword).1.exitCode = 0 ∧
      (m.execute ["-cx", "encrypt", "-if", "-og", "--armor"] secretPassword).2.files.content "g"
        = text ∧
      (Machine.execute ["-cx", "decrypt", "-ig", "--armor"] secretPassword
        { files := [("g", text)] }).1.exitCode = 0 ∧
      (Machine.execute ["-cx", "decrypt", "-ig", "--armor"] secretPassword
        { files := [("g", text)] }).2.standardOutput = ofList [1] := by
  intro o e m
  have hread : Invocation.read ["-cx", "encrypt", "-if", "-og", "--armor"] secretPassword
      = .ok ⟨o, .encrypt e⟩ := rfl
  have hfind : m.files.find "f" = .ok (.file "f") := Machine.find_withFile
  have hlocate : m.files.locate "g" = .ok (.file "g") := Machine.locate_withFile
  have hready : m.Ready secretPassword ⟨o, .encrypt e⟩ {} ⟨.zeros 32⟩ "secret" (ofList [1])
      (.file "g") :=
    { settings := Machine.result_loadSettings_of_none Machine.settings_withFile
      credential := rfl
      password := rfl
      input := Machine.held?_of_find rfl hfind
      output := by
        show m.target (some "g") = _
        rw [Machine.target, hlocate]
      room := by decide
      separate := Machine.separate_of_locate_ne hfind (by rw [hlocate]; decide)
      sink := rfl }
  have hrange : e.InRange {} :=
    ⟨⟨[.xChaCha20Poly1305], rfl, by decide, by decide⟩, by decide, by decide⟩
  refine ⟨⟨hread, hready, hrange, by decide⟩, ?_⟩
  obtain ⟨text, hexit, ⟨-, hcontent⟩, hdecrypts⟩ :=
    execute_decrypt_of_encrypt hread hready hrange (by decide)
  refine ⟨text, hexit, hcontent, ?_⟩
  let m' : Machine := { files := [("g", text)] }
  have hfind' : m'.files.find "g" = .ok (.file "g") := by
    rw [Files.find, Files.resolve_letter _ (by decide)]
    rfl
  have hsettings' : m'.settings "x" = (none, m') := by
    rw [Machine.settings, Files.find, Files.resolve_letter _ (by decide)]
    rfl
  obtain ⟨hexit', hwrote'⟩ := hdecrypts ["-cx", "decrypt", "-ig", "--armor"] secretPassword o
    { input := some "g", armor := true } {} (.device .standardOutput) m' rfl rfl
    { settings := Machine.result_loadSettings_of_none hsettings'
      credential := rfl
      password := rfl
      input := Machine.held?_of_find rfl hfind'
      output := rfl
      room := by decide
      separate := by
        intro name _ htarget
        cases htarget
      sink := rfl }
  exact ⟨hexit', hwrote'⟩

end SealedStream.CommandLine
