import SealedStream.CommandLine.Arguments
import SealedStream.CommandLine.Password
import SealedStream.Settings
import SealedStream.Stream
import SealedStream.Text.Base64Url

/-!
# Running a command

What each command does, in order.  Everything that can be checked is checked before an output file
is created; an output file that could not be completed is removed.

A command that reads until its input ends takes a bound on the size of the input, so that it is sure
to end.
-/

namespace SealedStream.CommandLine

/-! ### Preparation -/

/-- The settings in a file, or the usual ones if there is no such file. -/
def loadSettings (file : String) : Action Settings := do
  let content ← Action.ofProgram (ask (.settings file))
  let what := s!"loading config: {file}"
  match Settings.load (content.map fun r => r.mapError OsError.message) with
  | .ok settings => return settings
  | .error .malformed =>
    throw ⟨what, [s!"config error: parsing config {file}: TOML parse error"]⟩
  | .error (.unreadable reason) => throw ⟨what, [s!"I/O error: {reason}", reason]⟩

/-- The credential in a text, which may have blanks around it, and padding. -/
def readCredential : Option String → Action Credential
  | none =>
    throw { message := "user credential not set\nPass --user-cred or set QCRYPT_USER_CRED" }
  | some text =>
    match Text.Base64Url.decode? (Text.Base64Url.dropPadding (Text.trimBlank text.toList)) with
    | none => throw { message := "user credential is not valid base64url" }
    | some bytes =>
      match Credential.ofByteArray bytes with
      | .ok c => return c
      | .error fault => throw (.ofFault fault)

/-- The algorithms that were asked for, or those of the settings if there were none. -/
def chooseAlgorithms (given : List Algorithm) (named : List String) :
    Except Report (List Algorithm) :=
  if given.isEmpty then
    named.mapM fun name =>
      match Algorithm.ofName name with
      | .ok a => .ok a
      | .error fault => .error ⟨s!"config crypto.algorithms: {name}", [fault.message]⟩
  else .ok given

/-- The plan of an encryption, from options and settings. -/
def choosePlan (options : EncryptOptions) (settings : CryptoSettings) : Except Report Plan := do
  let algorithms ← chooseAlgorithms options.algorithms settings.algorithms
  match Plan.ofAlgorithms algorithms (options.iterations.getD settings.iterations) with
  | .ok plan => return plan.withReadStart settings.readStart
  | .error fault => throw (.ofFault fault)

/-! ### Input -/

/-- The rest of the input, in pieces of which there are at most `n`; `out` has been read. -/
def slurp : (n : Nat) → (out : ByteArray) → Action ByteArray
  | 0, _ => throw (.ofFault .unbounded)
  | n + 1, out => do
    let piece ← Action.orReport (ask (.read Pipeline.pieceSize))
      (Action.during "reading armored input")
    if piece.isEmpty then return out else slurp n (out ++ piece)

/-- The bytes of an armored text. -/
def decodeArmor (text : ByteArray) : Except Report ByteArray :=
  match String.fromUTF8? text with
  | none =>
    .error ⟨"reading armored input", ((Text.defect? text).map Text.Defect.message).toList⟩
  | some s =>
    match Text.Base64Url.decodeArmor? s.toList with
    | some bytes => .ok bytes
    | none => .error { message := "input is not valid base64url" }

/-- Opens the input, and decodes it if it is armored. -/
def openInput (bound : Nat) (file : Option String) (armor : Bool) : Action Unit := do
  if let some name := file then
    Action.orReport (ask (.openInput name)) (Action.during s!"opening input: {name}")
  if armor then
    set (Input.memory (← decodeArmor (← slurp bound .empty)))

/-! ### Output -/

section Output

variable {ε : Type} (E : Engine ε) (bound : Nat) (provider : Provider)

/-- Writes what the passes give as it comes, in pieces of which there are at most `n`. -/
def copy : (n : Nat) → Pipeline ε → Action Unit
  | 0, _ => throw (.ofFault .unbounded)
  | n + 1, p => do
    let (result, p) ← Action.session provider (p.read E bound Pipeline.pieceSize)
    let piece ← Action.orExplain (result.mapError Fault.ofIoFault)
    if piece.isEmpty then return
    Action.write piece fun e => .explain e.toFault
    copy n p

/-- How many bytes an output holds back until it is finished.  A failure to write them shows
then. -/
def heldBack : Nat := 0x200000

/-- Writes a text as a whole. -/
def writeText (text : ByteArray) : Action Unit :=
  Action.write text
    (Action.during (if text.size ≤ heldBack then "flushing output" else "writing output"))

/-- Writes all that the passes give, as one armored text or as it comes. -/
def drain (armor : Bool) (p : Pipeline ε) : Action Unit := do
  if armor then
    let result ← Action.session provider (p.readAll E bound)
    let bytes ← Action.orExplain result
    writeText (Text.Base64Url.encodeArmor bytes).toUTF8
  else copy E bound provider bound p

end Output

/-- Writes to a file, which is removed again if that fails; or to standard output. -/
def toOutput (file : Option String) (action : Action Unit) : Action Unit := do
  match file with
  | none => action
  | some name =>
    Action.orReport (ask (.createOutput name)) (Action.during s!"creating output: {name}")
    tryCatch action fun report => do
      Action.ofProgram (ask .removeOutput)
      throw report

/-- Writes lines. -/
def printLines (lines : List String) : Action Unit :=
  lines.forM fun line =>
    Action.write (line ++ "\n").toUTF8 fun e => .ofFault e.toFault

/-! ### Commands -/

/-- Encrypts the input. -/
def encrypt (bound : Nat) (options : EncryptOptions) (settings : CryptoSettings)
    (credential : Credential) (password : Option String) : Action Unit := do
  let plan ← choosePlan options settings
  openInput bound options.input false
  toOutput options.output
    (drain EncryptedPass.engine (plan.outputBound bound) (newPassword password options.hint)
      options.armor (plan.pipeline credential))

/-- Decrypts the input. -/
def decrypt (bound : Nat) (options : DecryptOptions) (credential : Credential)
    (password : Option String) : Action Unit := do
  openInput bound options.input options.armor
  let provider := knownPassword password
  let passes ← Action.orExplain (← Action.session provider (openStream bound credential))
  toOutput options.output (drain Decryptor.engine bound provider false passes)

/-- The metadata of a pass in lines. -/
def infoLines (info : PassInfo) : List String :=
  let encode := Text.Base64Url.encode
  let hint := info.hint.getD "(none)"
  [s!"version:     {info.version}",
    s!"algorithm:   {info.algorithm.name} ({info.algorithm.description})",
    s!"iterations:  {info.iterations}",
    s!"loop:        {info.loop.index}/{info.loop.count}",
    s!"salt:        {encode info.salt.data}",
    s!"iv:          {encode info.iv}",
    s!"hint:        {hint}"]

/-- The metadata of a pass as a value. -/
def infoJson (info : PassInfo) : Text.Json :=
  .object ([("ver", .ofNat info.version), ("alg", .string info.algorithm.name),
    ("ic", .ofNat info.iterations), ("lp", .ofNat info.loop.index),
    ("lp_end", .ofNat info.loop.count), ("iv", .ofBytes info.iv),
    ("slt", .ofBytes info.salt.data)] ++ (info.hint.map fun h => ("hint", .string h)).toList)

/-- Shows the metadata of the outermost pass. -/
def showInfo (bound : Nat) (options : InfoOptions) (credential : Credential) : Action Unit := do
  openInput bound options.input options.armor
  let info ← Action.orExplain
    (← Action.session (fun _ => .done (.error .cancelled)) (streamInfo credential))
  printLines (if options.json then [(infoJson info).pretty] else infoLines info)

/-- Times a derivation, and shows what the machine can afford. -/
def bench (json : Bool) : Action Unit := do
  let random ← Action.ofProgram (ask (.draw 32))
  let derivation := WorkFactor.testDerivation WorkFactor.testIterations random
  let elapsed ← Action.ofProgram (ask (.time derivation))
  let factor := WorkFactor.estimate WorkFactor.testIterations elapsed
    (.ofMillis WorkFactor.targetMillis) (.ofMillis WorkFactor.maximumMillis)
  printLines (if json then [factor.toJson.pretty] else factor.lines)

/-- A command with its options. -/
def runInvocation (bound : Nat) (env : Environment) (i : Invocation) : Action Unit := do
  let settings ← loadSettings (i.options.settings.getD (usualSettingsFile env))
  let password := env "QCRYPT_PASSWORD"
  match i.command with
  | .encrypt options =>
    encrypt bound options settings.crypto (← readCredential i.options.credential) password
  | .decrypt options => decrypt bound options (← readCredential i.options.credential) password
  | .info options => showInfo bound options (← readCredential i.options.credential)
  | .bench json => bench json

/-! ### The program -/

/-- How the program ends. -/
inductive Outcome
  | success
  | failure (report : Report)
  /-- The words of the command line do not make sense. -/
  | usage
  deriving DecidableEq

/-- The number that an outcome is reported by. -/
def Outcome.exitCode : Outcome → Nat
  | success => 0
  | failure _ => 1
  | usage => 2

/-- The version of the program. -/
def versionLine : String := "qcrypt 0.5.0"

/-- How the program is used. -/
def usageText : String :=
  "Usage: qcrypt [OPTIONS] encrypt|decrypt|info|bench [OPTIONS]"

/-- The outcome of an action. -/
def Action.outcome (action : Action Unit) : Program Shell Outcome := do
  let (result, _) ← action Input.direct
  return match result with
    | .ok () => .success
    | .error report => .failure report

/-- Runs the command that some words ask for, on an input of at most `bound` bytes. -/
def run (bound : Nat) (words : List String) (env : Environment) : Program Shell Outcome :=
  match Invocation.read words env with
  | .ok i => (runInvocation (bound + 2) env i).outcome
  | .error .version => (printLines [versionLine]).outcome
  | .error .help => (printLines [usageText]).outcome
  | .error .usage => .done .usage

end SealedStream.CommandLine
