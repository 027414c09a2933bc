import SealedStream.Proofs.CommandLine.Output
import SealedStream.Proofs.CommandLine.Writing
import SealedStream.Proofs.Encryption
import SealedStream.Proofs.Text.Base64Url

/-!
# Commands and worlds

What a command writes is what encryption or decryption gives in a world whose input is what the
input of the command held when it was opened (`Machine.encrypted`, `Machine.decrypted`), as long as
the output is not the input.  The bounds that a command runs with are never exceeded.

* `armor_is_canonical`: armor is decoded however it is laid out, and means one thing only.
* `outputs_encrypt`, `outputs_decrypt`: what the two commands write.
-/

namespace SealedStream.CommandLine

variable {provider : Provider} {input : Input} {m m' : Machine} {w : World} {content : ByteArray}

/-! ### Bounds -/

/-- No answer says that a bound was exceeded. -/
def BoundedReply {α : Type} (reply : Except Fault α) : Prop :=
  reply ≠ .error .unbounded

theorem yields_typed (text : String) : (typed text).Yields BoundedReply := by
  refine Program.Yields.bind (P := fun _ => True) (.ask fun _ => .done trivial) fun reply _ => ?_
  rcases reply with e | _ | password
  · exact .done nofun
  · exact .done nofun
  · dsimp only
    split
    · exact .done nofun
    · exact .done nofun

theorem yields_typedTwice (first second : String) :
    (typedTwice first second).Yields BoundedReply := by
  refine (yields_typed first).bind fun result hresult => ?_
  cases result with
  | error fault => exact .done hresult
  | ok password =>
    refine (yields_typed second).bind fun result hresult => ?_
    cases result with
    | error fault => exact .done hresult
    | ok again =>
      dsimp only
      split
      · exact .done nofun
      · exact .done nofun

theorem BoundedReply.map {α β : Type} {reply : Except Fault α} (h : BoundedReply reply)
    (f : α → β) : BoundedReply (reply.map f) := by
  cases reply with
  | error fault => exact fun heq => h (congrArg Except.error (Except.error.inj heq))
  | ok a => exact nofun

theorem yields_newPassword (fixed hint : Option String) (info : PassInfo) :
    (newPassword fixed hint info).Yields BoundedReply := by
  cases fixed with
  | some password => exact .done nofun
  | none => exact (yields_typedTwice _ _).bind fun reply hreply => .done (hreply.map _)

theorem yields_knownPassword (fixed : Option String) (info : PassInfo) :
    (knownPassword fixed info).Yields BoundedReply := by
  cases fixed with
  | some password => exact .done nofun
  | none => exact (yields_typed _).bind fun reply hreply => .done (hreply.map _)

namespace Machine

theorem boundedReply_questioned (h : ∀ info, (provider info).Yields BoundedReply)
    (infos : List PassInfo) (m : Machine) : BoundedReply (m.questioned provider infos).1 := by
  suffices hfold : ∀ x : Except Fault Answer × Machine, BoundedReply x.1 →
      BoundedReply (infos.foldl (fun x info => x.2.run (provider info)) x).1 from hfold _ nofun
  induction infos with
  | nil => exact fun x hx => hx
  | cons info infos ih => exact fun x _ => ih _ ((h info).run answer x.2)

/-- **The world of a machine** exceeds no bound by itself. -/
theorem bounded_world (h : ∀ info, (provider info).Yields BoundedReply) (m : Machine)
    (bytes : ByteArray) : (m.world provider bytes).Bounded := by
  refine ⟨fun e he => ?_, fun infos => boundedReply_questioned h infos m⟩
  unfold world itemsOf at he
  dsimp only at he
  split at he
  · cases he
  · cases List.mem_singleton.1 he

theorem inputBound_world (provider : Provider) (m : Machine) (bytes : ByteArray) :
    (m.world provider bytes).inputBound = bytes.size + 2 := by
  unfold World.inputBound world itemsOf
  dsimp only
  split
  next hempty => rw [isEmpty_iff.1 hempty]; rfl
  next => rfl

/-- The bytes of the world that some input makes of a machine are those. -/
theorem bytes_world (provider : Provider) (bytes : ByteArray) (m : Machine) :
    (m.world provider bytes).bytes = bytes := by
  show itemsBytes (itemsOf bytes) = bytes
  unfold itemsOf
  split
  next hempty => exact (isEmpty_iff.1 hempty).symm
  next => exact ByteArray.append_empty

theorem inPieces_world (provider : Provider) (bytes : ByteArray) (m : Machine) :
    (m.world provider bytes).InPieces := by
  show Pieces (itemsOf bytes)
  unfold itemsOf
  split
  · exact nofun
  next hempty =>
    intro item hitem
    cases List.mem_singleton.1 hitem
    exact ⟨bytes, rfl, mt isEmpty_iff.2 hempty⟩

/-- Where any question has the same answer, so has the last of any number. -/
theorem questioned_of_fixed {answer : Answer} (h : ∀ info, provider info = .done (.ok answer))
    (before : List PassInfo) (info : PassInfo) (m : Machine) :
    (m.questioned provider (before ++ [info])).1 = .ok answer := by
  rw [questioned, List.foldl_append, List.foldl_cons, List.foldl_nil, h]
  rfl

/-- **A password that is given** is enough to encrypt any content. -/
theorem exists_run_encrypt_world (plan : Plan) (credential : Credential) (content : ByteArray)
    {password : String} {hint : Option String} (hpassword : password ≠ "")
    (hhint : (hint.getD "").length ≤ Limits.hintMaxChars) (m : Machine) :
    let w := m.world (newPassword (some password) hint) content
    ∃ cipher w', w.encrypt plan credential = (.ok cipher, w') ∧
      EncryptedThrough plan credential w.provider w.asked content plan.count w'.asked cipher := by
  have hencrypt := World.exists_encrypt_eq plan credential
    (m.inPieces_world (newPassword (some password) hint) content) fun before info =>
      ⟨⟨password, hint⟩, questioned_of_fixed (fun _ => rfl) before info m, hpassword, hhint⟩
  rw [bytes_world] at hencrypt
  exact hencrypt

/-- No input is larger than the bound of a machine. -/
theorem size_unread_le (h : m.unread? .direct = some content) : content.size ≤ m.inputBound := by
  show _ ≤ m.files.sizeFrom m.standardInput.size
  have hall : ∀ (bytes : ByteArray) i j, (bytes.extract i j).size ≤ bytes.size := by
    intro bytes i j
    rw [ByteArray.size_extract]
    omega
  cases hsource : m.source with
  | directory =>
    rw [unread?, hsource] at h
    cases h
  | file name =>
    rw [unread?, hsource] at h
    cases h
    exact Nat.le_trans (hall _ _ _) (Files.size_content_le _ _ _)
  | device device =>
    rw [unread?, hsource] at h
    cases device with
    | zero | full => cases h
    | standardInput =>
      cases h
      exact Nat.le_trans (hall _ _ _) (Files.le_sizeFrom _ _)
    | null | terminal | standardOutput | standardError =>
      cases h
      exact Nat.zero_le _

/-! ### Opening an input -/

/-- The machine after its input has been opened, if that can be. -/
def opensInput (file : Option String) (m : Machine) : Option Machine :=
  match file with
  | none => some m
  | some name =>
    match m.openInput name with
    | (.ok (), opened) => some opened
    | (.error _, _) => none

theorem openInput_cases (name : String) (m : Machine) :
    (∃ e, m.openInput name = (.error e, m)) ∨
      ∃ opened, m.openInput name = (.ok (), opened) ∧ m.Idle opened := by
  unfold openInput
  split
  · exact .inl ⟨_, rfl⟩
  · exact .inl ⟨_, rfl⟩
  · exact .inr ⟨_, rfl, ⟨rfl, rfl, rfl, rfl, rfl, rfl⟩, rfl, rfl, rfl⟩

theorem idle_of_opensInput {file : Option String} {opened : Machine}
    (h : m.opensInput file = some opened) : m.Idle opened := by
  cases file with
  | none =>
    cases h
    exact ⟨.refl m, rfl, rfl, rfl⟩
  | some name =>
    obtain ⟨e, hopen⟩ | ⟨opened', hopen, hidle⟩ := openInput_cases name m
    · rw [opensInput, hopen] at h
      cases h
    · rw [opensInput, hopen] at h
      cases h
      exact hidle

theorem perform_openFile {file : Option String} {opened : Machine}
    (h : m.opensInput file = some opened) (input : Input) :
    m.perform (openFile file) input = ((.ok (), input), opened) := by
  cases file with
  | none =>
    cases h
    rfl
  | some name =>
    obtain ⟨e, hopen⟩ | ⟨opened', hopen, -⟩ := openInput_cases name m
    · rw [opensInput, hopen] at h
      cases h
    · rw [opensInput, hopen] at h
      cases h
      exact perform_orReport_of_ok (p := ask (.openInput name)) input m _ hopen

/-- Armored input is read to its end.  The induction is on the number of reads. -/
theorem perform_slurp {n : Nat} {rest : ByteArray} (h : m.unread? .direct = some rest)
    (hn : rest.size < n) (out : ByteArray) :
    ∃ m', m.perform (slurp n out) .direct = ((.ok (out ++ rest), .direct), m') ∧
      m.HasRead m' := by
  induction n generalizing m rest out with
  | zero => cases hn
  | succ n ih =>
    obtain ⟨m', hread, hleft, hhas⟩ := exists_read h Pipeline.pieceSize
    have hslurp : m.perform (slurp (n + 1) out) .direct
        = m'.perform (if (rest.extract 0 Pipeline.pieceSize).isEmpty then pure out
          else slurp n (out ++ rest.extract 0 Pipeline.pieceSize)) .direct :=
      perform_bind_of_ok .direct m
        (perform_orReport_of_ok (p := ask (.read Pipeline.pieceSize)) .direct m _ hread)
    by_cases hend : rest = .empty
    · subst hend
      rw [extract_empty] at hslurp
      exact ⟨m', by rw [hslurp, ByteArray.append_empty]; rfl, hhas⟩
    · have hsize : 0 < rest.size :=
        Nat.pos_of_ne_zero fun hzero => hend (ByteArray.size_eq_zero_iff.1 hzero)
      have hpiece : ¬ (rest.extract 0 Pipeline.pieceSize).isEmpty = true := fun hempty => by
        have := ByteArray.extract_eq_empty_iff.1 (isEmpty_iff.1 hempty)
        rw [Pipeline.pieceSize] at this
        omega
      have hless : (rest.extract Pipeline.pieceSize rest.size).size < n := by
        rw [ByteArray.size_extract, Pipeline.pieceSize]
        omega
      have hall : rest.extract 0 Pipeline.pieceSize
          ++ rest.extract Pipeline.pieceSize rest.size = rest := by
        rw [ByteArray.extract_append_extract, Nat.zero_min, ByteArray.extract_zero_max_size]
      obtain ⟨m'', hperform, hhas'⟩ := ih hleft hless (out ++ rest.extract 0 Pipeline.pieceSize)
      refine ⟨m'', ?_, hhas.trans hhas'⟩
      rw [hslurp, if_neg hpiece, hperform, ByteArray.append_assoc, hall]

/-! ### Creating an output -/

/-- Where a command writes to, if it can. -/
def target (file : Option String) (m : Machine) : Option Sink :=
  match file with
  | none => some m.sink
  | some name =>
    match m.files.locate name with
    | .error _ => none
    | .ok (.device .terminal) => if m.terminal.isSome then some (.device .terminal) else none
    | .ok place => some place

/-- An output has been created, and is empty if it is a file. -/
structure HasCreated (place : Sink) (m m' : Machine) : Prop extends HasWritten place m m' where
  sink : m'.sink = place
  standardOutput : m'.standardOutput = m.standardOutput
  content : ∀ name, place = .file name → m'.files.content name = .empty
  has : ∀ name, place = .file name → m'.files.has name = true

theorem createOutput_of_target (name : String) (m : Machine) :
    match m.target (some name) with
    | none => ∃ e, m.createOutput name = (.error e, m)
    | some place =>
      ∃ created, m.createOutput name = (.ok (), created) ∧ m.HasCreated place created := by
  rw [target, createOutput]
  cases m.files.locate name with
  | error e => exact ⟨e, rfl⟩
  | ok place =>
    cases place with
    | file file =>
      refine ⟨_, rfl, ⟨fun other hother => ?_, rfl, rfl, rfl, rfl, rfl, rfl, rfl, rfl⟩, rfl, rfl,
        fun other hother => ?_, fun other hother => ?_⟩
      · exact Files.content_put_of_ne _ fun hname => hother (congrArg Sink.file hname.symm)
      · cases hother
        exact Files.content_put _ _ _
      · cases hother
        exact Files.has_put _ _ _
    | device device =>
      have hcreated : m.HasCreated (.device device) { m with sink := .device device } := by
        refine ⟨⟨fun _ _ => rfl, rfl, rfl, rfl, rfl, rfl, rfl, rfl, rfl⟩, rfl, rfl, ?_, ?_⟩
        · intro name hname
          cases hname
        · intro name hname
          cases hname
      cases device with
      | terminal =>
        cases hterminal : m.terminal with
        | none => exact ⟨.noDevice, if_pos ⟨rfl, rfl⟩⟩
        | some typed =>
          rw [hterminal] at hcreated
          exact ⟨_, if_neg fun h => Option.some_ne_none _ h.2, hcreated⟩
      | _ => exact ⟨_, if_neg fun h => absurd h.1 (by decide), hcreated⟩

/-- Some text has been written to a place of its own. -/
def Wrote (place : Sink) (text : ByteArray) (m m' : Machine) : Prop :=
  match place with
  | .file name => m'.files.has name = true ∧ m'.files.content name = text
  | .device .standardOutput => m'.standardOutput = m.standardOutput ++ text
  | .device _ => True

/-- An action writes what was made, or stops the command if nothing was, or if there is no place or
no room for it. -/
def Outputs {ε : Type} (a : Action Unit) (input : Input) (file : Option String)
    (made : Except ε ByteArray) (m : Machine) : Prop :=
  match made with
  | .error _ => m.Stops a input
  | .ok text =>
    match m.target file with
    | none => m.Stops a input
    | some place =>
      if place.takes text then
        ∃ input' m', m.perform a input = ((.ok (), input'), m') ∧ m.Wrote place text m'
      else m.Stops a input

theorem outputs_of_target_none {ε : Type} {a : Action Unit} {file : Option String}
    (htarget : m.target file = none) (h : m.Stops a input) (made : Except ε ByteArray) :
    m.Outputs a input file made := by
  cases made with
  | error fault => exact h
  | ok text =>
    rw [Outputs, htarget]
    exact h

theorem outputs_of_takes {ε : Type} {a : Action Unit} {file : Option String} {place : Sink}
    {text : ByteArray} (htarget : m.target file = some place) (htakes : place.takes text = true) :
    m.Outputs a input file (.ok text : Except ε ByteArray) ↔
      ∃ input' m', m.perform a input = ((.ok (), input'), m') ∧ m.Wrote place text m' := by
  rw [Outputs, htarget]
  dsimp only
  rw [if_pos htakes]

theorem outputs_of_not_takes {ε : Type} {a : Action Unit} {file : Option String} {place : Sink}
    {text : ByteArray} (htarget : m.target file = some place)
    (htakes : ¬ place.takes text = true) :
    m.Outputs a input file (.ok text : Except ε ByteArray) ↔ m.Stops a input := by
  rw [Outputs, htarget]
  dsimp only
  rw [if_neg htakes]

theorem Outputs.mapError {ε ε' : Type} {a : Action Unit} {file : Option String}
    {made : Except ε ByteArray} (h : m.Outputs a input file made) (f : ε → ε') :
    m.Outputs a input file (made.mapError f) := by
  cases made with
  | error fault => exact h
  | ok text => exact h

theorem Keeps.target_eq (h : m.Keeps m') (file : Option String) :
    m'.target file = m.target file := by
  unfold target
  rw [h.sink, h.files, h.hasTerminal]

/-- What is prepared makes no difference to where and what is written. -/
theorem Outputs.of_perform_eq {ε : Type} {a b : Action Unit} {input' : Input}
    {file : Option String} {made : Except ε ByteArray} (hb : m'.Outputs b input' file made)
    (h : m.perform a input = m'.perform b input') (hkeeps : m.Keeps m') :
    m.Outputs a input file made := by
  unfold Outputs at hb ⊢
  cases made with
  | error fault => exact Stops.of_perform_eq hb h
  | ok text =>
    rw [hkeeps.target_eq file] at hb
    generalize m.target file = place? at hb ⊢
    cases place? with
    | none => exact Stops.of_perform_eq hb h
    | some place =>
      dsimp only at hb ⊢
      split at hb
      next htakes =>
        rw [if_pos htakes]
        obtain ⟨input'', m'', hperform, hwrote⟩ := hb
        refine ⟨input'', m'', h.trans hperform, ?_⟩
        unfold Wrote at hwrote ⊢
        rwa [hkeeps.standardOutput] at hwrote
      next htakes =>
        rw [if_neg htakes]
        exact Stops.of_perform_eq hb h

/-- What is added to a new output is all that has been written to it. -/
theorem HasCreated.wrote {place : Sink} {created : Machine} {text : ByteArray}
    (h : m.HasCreated place created) (hadds : created.Adds text m') : m.Wrote place text m' := by
  have houtput := hadds.output
  unfold output? at houtput
  rw [hadds.sink, h.sink] at houtput
  cases place with
  | file name =>
    have hcontent : m'.files.content name = created.files.content name ++ text :=
      Option.some.inj houtput
    rw [h.content name rfl, ByteArray.empty_append] at hcontent
    exact ⟨hadds.has name h.sink (h.has name rfl), hcontent⟩
  | device device =>
    cases device with
    | standardOutput =>
      have hcontent : m'.standardOutput = created.standardOutput ++ text :=
        Option.some.inj houtput
      rwa [h.standardOutput] at hcontent
    | _ => trivial

/-- **An output file is filled** if what fills a new one delivers what was made. -/
theorem outputs_toOutput {ε : Type} {fill : Action Unit} {made : Except ε ByteArray}
    {name : String}
    (hfill : ∀ place created, m.target (some name) = some place → m.HasCreated place created →
      match made with
      | .error _ => created.Stops fill input
      | .ok text => created.Delivers fill input text) :
    m.Outputs (toOutput (some name) fill) input (some name) made := by
  have hcreate := m.createOutput_of_target name
  have hperform := perform_toOutput fill name input m
  cases htarget : m.target (some name) with
  | none =>
    rw [htarget] at hcreate
    obtain ⟨e, hcreate⟩ := hcreate
    rw [hcreate] at hperform
    exact outputs_of_target_none htarget ⟨_, _, _, hperform⟩ made
  | some place =>
    rw [htarget] at hcreate
    obtain ⟨created, hcreate, hcreated⟩ := hcreate
    rw [hcreate] at hperform
    dsimp only at hperform
    have hfill := hfill place created htarget hcreated
    have hstops : created.Stops fill input → m.Stops (toOutput (some name) fill) input := by
      rintro ⟨report, input', m', hstopped⟩
      rw [hstopped] at hperform
      exact ⟨_, _, _, hperform⟩
    cases made with
    | error fault => exact hstops hfill
    | ok text =>
      by_cases htakes : place.takes text
      · obtain ⟨input', m', hfilled, hadds⟩ :=
          (delivers_of_takes (hcreated.sink.symm ▸ htakes)).1 hfill
        rw [hfilled] at hperform
        exact (outputs_of_takes htarget htakes).2 ⟨input', m', hperform, hcreated.wrote hadds⟩
      · exact (outputs_of_not_takes htarget htakes).2
          (hstops ((delivers_of_not_takes (hcreated.sink.symm ▸ htakes)).1 hfill))

/-- Standard output is written to as it is. -/
theorem outputs_of_delivers {ε : Type} {fill : Action Unit} {text : ByteArray}
    (hsink : m.sink = .device .standardOutput) (h : m.Delivers fill input text) :
    m.Outputs fill input none (.ok text : Except ε ByteArray) := by
  have htakes : m.sink.takes text = true := by
    rw [hsink]
    rfl
  obtain ⟨input', m', hperform, hadds⟩ := (delivers_of_takes htakes).1 h
  refine (outputs_of_takes rfl htakes).2 ⟨input', m', hperform, ?_⟩
  have houtput := hadds.output
  unfold output? at houtput
  rw [hadds.sink, hsink] at houtput
  rw [hsink]
  exact Option.some.inj houtput

end Machine

/-! ### Commands -/

section Outputs

variable {ε : Type} (E : Engine ε) (bound : Nat)
  (hprovider : ∀ info, (provider info).Only ShellRequest.Prompts)
include hprovider

/-- **An output is filled** with what the passes give, unless it is the input. -/
theorem Mirrors.outputs (armor : Bool) (p : Pipeline ε) {file : Option String}
    (h : Mirrors provider input m w)
    (hapart : ∀ place, m.target file = some place → m.Apart place input)
    (hsink : file = none → m.sink = .device .standardOutput) :
    m.Outputs (toOutput file (drain E bound provider armor p)) input file
      ((w.run (p.readAll E bound)).1.map (outputText armor)) := by
  cases file with
  | none =>
    have hdrain := Mirrors.perform_drain E bound hprovider armor p h (hapart m.sink rfl)
    generalize (w.run (p.readAll E bound)).1 = result at hdrain ⊢
    cases result with
    | error fault => exact hdrain
    | ok bytes => exact Machine.outputs_of_delivers (hsink rfl) hdrain
  | some name =>
    refine Machine.outputs_toOutput fun place created htarget hcreated => ?_
    have hapart' : created.Apart created.sink input := by
      rw [hcreated.sink]
      exact (hapart place htarget).of_source_eq hcreated.source rfl
    have hdrain := Mirrors.perform_drain E bound hprovider armor p
      (h.written hprovider (hapart place htarget) hcreated.toHasWritten) hapart'
    generalize (w.run (p.readAll E bound)).1 = result at hdrain ⊢
    cases result with
    | error fault => exact hdrain
    | ok bytes => exact hdrain

end Outputs

/-- What encryption makes of the content of an input. -/
def Machine.encrypted (options : EncryptOptions) (settings : CryptoSettings)
    (credential : Credential) (password : Option String) (content : ByteArray) (m : Machine) :
    Except Report ByteArray := do
  let plan ← choosePlan options settings
  let world := m.world (newPassword password options.hint) content
  let cipher ← (world.encrypt plan credential).1.mapError Report.explain
  return outputText options.armor cipher

theorem Machine.encrypted_of_plan {options : EncryptOptions} {settings : CryptoSettings}
    {plan : Plan} (h : choosePlan options settings = .ok plan) (credential : Credential)
    (password : Option String) (content : ByteArray) (m : Machine) :
    m.encrypted options settings credential password content
      = (((m.world (newPassword password options.hint) content).encrypt plan credential).1.map
        (outputText options.armor)).mapError Report.explain := by
  rw [encrypted, h]
  dsimp only [bind, Except.bind]
  generalize
    ((m.world (newPassword password options.hint) content).encrypt plan credential).1 = made
  cases made with
  | error fault => rfl
  | ok cipher => rfl

/-- The bytes that decryption goes on with. -/
def decodedInput (armor : Bool) (content : ByteArray) : Except Report ByteArray :=
  if armor then decodeArmor content else .ok content

/-- What decryption makes of the content of an input. -/
def Machine.decrypted (options : DecryptOptions) (credential : Credential)
    (password : Option String) (content : ByteArray) (m : Machine) : Except Report ByteArray := do
  let cipher ← decodedInput options.armor content
  let world := m.world (knownPassword password) cipher
  (world.decrypt credential).1.mapError Report.explain

/-- Armor that is well-formed as UTF-8 is decoded as text. -/
theorem decodeArmor_toUTF8 (text : String) :
    decodeArmor text.toUTF8 = match Text.Base64Url.decodeArmor? text.toList with
      | some bytes => .ok bytes
      | none => .error { message := "input is not valid base64url" } := by
  have hvalid : String.fromUTF8? text.toUTF8 = some text := by
    simp [String.fromUTF8?, String.fromUTF8, String.isValidUTF8]
  cases h : Text.Base64Url.decodeArmor? text.toList with
  | none => simp only [decodeArmor, hvalid, h]
  | some bytes => simp only [decodeArmor, hvalid, h]

theorem decodeArmor_toUTF8_eq_ok {text : String} {bytes : ByteArray} :
    decodeArmor text.toUTF8 = .ok bytes ↔
      Text.Base64Url.decodeArmor? text.toList = some bytes := by
  rw [decodeArmor_toUTF8]
  cases Text.Base64Url.decodeArmor? text.toList with
  | none => exact ⟨nofun, nofun⟩
  | some decoded => rw [Except.ok.injEq, Option.some.injEq]

/-- Armored text decodes as a whole. -/
theorem decodeArmor_outputText (bytes : ByteArray) :
    decodeArmor (outputText true bytes) = .ok bytes := by
  rw [outputText, if_pos rfl, decodeArmor_toUTF8_eq_ok]
  exact Text.Base64Url.decodeArmor?_encodeArmor bytes

section Layout

open Text Text.Base64Url

/-- **Armor is decoded however it is laid out**, and means one thing only.  A text decodes to some
bytes exactly if it is their base64url text, with any number of equals signs behind it and blank
characters put in anywhere; what is written as armor is one such text.  Without blank characters,
and without the equals signs at its end, a text that decodes is the base64url text itself. -/
theorem armor_is_canonical (bytes : ByteArray) :
    (∀ text : String, decodeArmor text.toUTF8 = .ok bytes ↔
      ∃ k, Spaced ((encode bytes).toList ++ List.replicate k '=') text.toList) ∧
    (∀ text : String, decodeArmor text.toUTF8 = .ok bytes →
      dropPadding (text.toList.filter fun c => !isBlank c) = (encode bytes).toList) ∧
    Spaced (encode bytes).toList (encodeArmor bytes).toList := by
  refine ⟨fun text => ?_, fun text h => ?_, spaced_encodeArmor bytes⟩
  · rw [decodeArmor_toUTF8_eq_ok, decodeArmor?_eq_some_iff]
  · rw [decodeArmor_toUTF8_eq_ok, decodeArmor?, decode?_eq_some_iff] at h
    exact h

end Layout

/-- Decoding makes nothing larger. -/
theorem size_decodeArmor_le {text bytes : ByteArray} (h : decodeArmor text = .ok bytes) :
    bytes.size ≤ text.size := by
  unfold decodeArmor at h
  split at h
  · cases h
  next s hvalid =>
    have htext : s.toByteArray = text := by
      rw [String.fromUTF8?] at hvalid
      split at hvalid
      · exact congrArg String.toByteArray (Option.some.inj hvalid).symm
      · cases hvalid
    split at h
    next decoded hdecoded =>
      cases h
      have hle := Text.Base64Url.size_decodeArmor?_le hdecoded
      rw [← htext]
      exact Nat.le_trans hle (Text.Base64Url.length_toList_le s)
    · cases h

/-- The bytes that decryption goes on with are no more than those of its input. -/
theorem size_decodedInput_le {armor : Bool} {cipher : ByteArray}
    (h : decodedInput armor content = .ok cipher) : cipher.size ≤ content.size := by
  unfold decodedInput at h
  split at h
  · exact size_decodeArmor_le h
  · cases h
    exact Nat.le_refl _

section Commands

variable {bound : Nat} {credential : Credential} {password : Option String} {opened : Machine}

/-- **An input is opened and decoded.** -/
theorem perform_openInput {file : Option String} (armor : Bool)
    (hopens : m.opensInput file = some opened) (hcontent : opened.unread? .direct = some content)
    (hbound : content.size < bound) :
    match decodedInput armor content with
    | .error _ => ∃ report input' m',
      m.perform (openInput bound file armor) .direct = ((.error report, input'), m')
    | .ok cipher => ∃ input' m',
      m.perform (openInput bound file armor) .direct = ((.ok (), input'), m') ∧ m.Idle m' ∧
        m'.unread? input' = some cipher ∧ m'.source = opened.source ∧
        input'.isDirect = !armor := by
  have hopen := Machine.perform_bind_of_ok .direct m (f := fun _ => decodeInput bound armor)
    (Machine.perform_openFile hopens .direct)
  rw [openInput_eq, hopen]
  have hidle := Machine.idle_of_opensInput hopens
  cases armor with
  | false => exact ⟨.direct, opened, rfl, hidle, hcontent, rfl, rfl⟩
  | true =>
    obtain ⟨m', hslurp, hread⟩ := Machine.perform_slurp hcontent hbound .empty
    rw [ByteArray.empty_append] at hslurp
    have hdecode : opened.perform (decodeInput bound true) .direct
        = m'.perform (do set (Input.memory (← decodeArmor content))) .direct :=
      Machine.perform_bind_of_ok .direct opened hslurp
    rw [hdecode]
    show match decodeArmor content with
      | .error _ => _
      | .ok cipher => _
    cases decodeArmor content with
    | error report => exact ⟨_, _, _, rfl⟩
    | ok cipher =>
      exact ⟨.memory cipher, m', rfl, hidle.trans hread.toIdle, rfl, hread.source, rfl⟩

/-- **Encryption** processes what its input held when it was opened. -/
theorem outputs_encrypt {options : EncryptOptions} (settings : CryptoSettings)
    (hopens : m.opensInput options.input = some opened)
    (hcontent : opened.unread? .direct = some content) (hbound : content.size + 2 ≤ bound)
    (hapart : ∀ place, m.target options.output = some place → opened.Apart place .direct)
    (hsink : options.output = none → m.sink = .device .standardOutput) :
    m.Outputs (encrypt bound options settings credential password) .direct options.output
      (m.encrypted options settings credential password content) := by
  rw [encrypt]
  cases hplan : choosePlan options settings with
  | error report =>
    rw [Machine.encrypted, hplan]
    exact Machine.stops_bind_of_error (Machine.perform_ofExcept ..)
  | ok plan =>
    rw [Machine.encrypted_of_plan hplan]
    have hopen := perform_openInput false hopens hcontent (show content.size < bound by omega)
    obtain ⟨input, m', hopen, hidle, hunread, hsource, hdirect⟩ := hopen
    let provider := newPassword password options.hint
    have hmirrors : Mirrors provider input m' (m.world provider content) :=
      .of_idle (only_newPassword _ _) hidle hunread
    have houtputs := Mirrors.outputs EncryptedPass.engine (plan.outputBound bound)
      (only_newPassword _ _) options.armor (plan.pipeline credential) hmirrors
      (fun place htarget =>
        (hapart place (hidle.target_eq _ ▸ htarget)).of_source_eq hsource hdirect)
      (fun hnone => hidle.sink.trans (hsink hnone))
    have hle : plan.outputBound (m.world provider content).inputBound ≤ plan.outputBound bound := by
      rw [plan.outputBound_eq, plan.outputBound_eq, Machine.inputBound_world]
      exact foldl_bound_mono plan.passes hbound
    rw [World.run_encryption_of_le (Machine.bounded_world (yields_newPassword _ _) m content) plan
      credential hle] at houtputs
    have hplanned := Machine.perform_bind_of_ok .direct m
      (f := fun plan => (do
        openInput bound options.input false
        toOutput options.output
          (drain EncryptedPass.engine (plan.outputBound bound) provider options.armor
            (plan.pipeline credential)) : Action Unit))
      (Machine.perform_ofExcept .direct m (.ok plan))
    exact (houtputs.of_perform_eq
      (hplanned.trans (Machine.perform_bind_of_ok .direct m hopen)) hidle.toKeeps).mapError _

/-- The passes of a stream are opened before an output is created, and then read to their end. -/
theorem Mirrors.outputs_decryption (bound : Nat) (credential : Credential) {file : Option String}
    (hprovider : ∀ info, (provider info).Only ShellRequest.Prompts)
    (h : Mirrors provider input m w)
    (hapart : ∀ place, m.target file = some place → m.Apart place input)
    (hsink : file = none → m.sink = .device .standardOutput) :
    m.Outputs (do
        let passes ← Action.orExplain (← Action.session provider (openStream bound credential))
        toOutput file (drain Decryptor.engine bound provider false passes)) input file
      (w.run (decryption bound credential)).1 := by
  obtain ⟨input', m', hsession, hmirrors, haside, hkind⟩ :=
    h.perform_session hprovider (openStream bound credential)
  rw [decryption, World.run_bind]
  generalize w.run (openStream bound credential) = opening at hsession hmirrors ⊢
  refine Machine.Outputs.of_perform_eq ?_ (Machine.perform_bind_of_ok input m hsession)
    haside.toKeeps
  obtain ⟨fault | passes, w'⟩ := opening
  · -- A pass does not open, and no output is created.
    exact ⟨_, _, _, rfl⟩
  · have houtputs := Mirrors.outputs Decryptor.engine bound hprovider false passes hmirrors
      (fun place htarget => (hapart place (haside.target_eq file ▸ htarget)).of_source_eq
        haside.source hkind)
      (fun hnone => haside.sink.trans (hsink hnone))
    have hplain : ∀ made : Except Fault ByteArray, made.map (outputText false) = made := by
      intro made
      cases made <;> rfl
    rwa [hplain] at houtputs

/-- **Decryption** processes what its input held when it was opened.  Armored input has been read
before anything is written. -/
theorem outputs_decrypt {options : DecryptOptions}
    (hopens : m.opensInput options.input = some opened)
    (hcontent : opened.unread? .direct = some content) (hbound : content.size + 2 ≤ bound)
    (hapart : options.armor = false →
      ∀ place, m.target options.output = some place → opened.Apart place .direct)
    (hsink : options.output = none → m.sink = .device .standardOutput) :
    m.Outputs (decrypt bound options credential password) .direct options.output
      (m.decrypted options credential password content) := by
  have hopen := perform_openInput options.armor hopens hcontent
    (show content.size < bound by omega)
  rw [decrypt, Machine.decrypted]
  cases hcipher : decodedInput options.armor content with
  | error report =>
    rw [hcipher] at hopen
    obtain ⟨report, input', m', hopen⟩ := hopen
    exact Machine.stops_bind_of_error hopen
  | ok cipher =>
    rw [hcipher] at hopen
    obtain ⟨input', m', hopen, hidle, hunread, hsource, hdirect⟩ := hopen
    have hmirrors : Mirrors (knownPassword password) input' m'
        (m.world (knownPassword password) cipher) :=
      .of_idle (only_knownPassword _) hidle hunread
    have hsize : (m.world (knownPassword password) cipher).inputBound ≤ bound := by
      have := size_decodedInput_le hcipher
      rw [Machine.inputBound_world]
      omega
    have houtputs := hmirrors.outputs_decryption bound credential (only_knownPassword _)
      (fun place htarget hdirect' => by
        rw [hdirect, Bool.not_eq_true'] at hdirect'
        rw [hsource]
        exact hapart hdirect' place (hidle.target_eq _ ▸ htarget) rfl)
      (fun hnone => hidle.sink.trans (hsink hnone))
    rw [World.run_decryption_of_le (Machine.bounded_world (yields_knownPassword _) m cipher)
      credential hsize] at houtputs
    have hopened := Machine.perform_bind_of_ok .direct m
      (f := fun _ => (do
        let passes ← Action.orExplain
          (← Action.session (knownPassword password) (openStream bound credential))
        toOutput options.output
          (drain Decryptor.engine bound (knownPassword password) false passes) : Action Unit))
      hopen
    exact (houtputs.of_perform_eq hopened hidle.toKeeps).mapError _

end Commands

end SealedStream.CommandLine
