import SealedStream.Block
import SealedStream.ChunkReader
import SealedStream.Plan
import SealedStream.Text.Utf8

/-!
# Encrypting one pass

An encryptor turns its input into blocks, one a step.  The head takes the first chunk of input,
draws salt and nonce, asks for the password, and derives the keys; each further block takes a chunk
twice as large as the one before, up to a limit.  A chunk that looks one byte ahead knows whether it
is the last, so the last block can say that it is, and is never empty unless the input is.

A step that fails leaves the session failed and without keys; nothing can be done with it any more.
-/

namespace SealedStream

/-- A session that encrypts one pass. -/
structure Encryptor where
  credential : Credential
  /-- The input. -/
  reader : ChunkReader := {}
  stage : Stage := .initialized
  /-- The size of the next chunk. -/
  readTarget : Nat := Limits.readStart
  /-- The keys, from the head to the last block. -/
  keys : Option PassKeys := none
  /-- The tag of the last block; zeros when the session is over. -/
  lastTag : Option (Bytes 32) := none
  deriving DecidableEq

namespace Encryptor

/-- A session whose first chunk has at most `n` bytes. -/
def start (credential : Credential) (n : Nat := Limits.readStart) : Encryptor :=
  { credential, readTarget := clampReadStart n }

/-- Forgets the keys. -/
def dropKeys (e : Encryptor) : Encryptor :=
  { e with keys := none, lastTag := e.lastTag.map fun _ => Bytes.zeros 32 }

/-! ### Parts of a step -/

/-- A step of which a fault ends the session. -/
def settle {α : Type} (step : Step Encryptor α) : Step Encryptor α :=
  tryCatch step fun fault => do
    modify fun e => { e.dropKeys with stage := .failed }
    throw fault

/-- Fails unless the session is at the stage given. -/
def require (expected : Stage) (operation : String) : Step Encryptor Unit := do
  (← get).stage.require [expected] operation

/-- The next chunk, after which chunks are twice as large. -/
def nextChunk : Step Encryptor Chunk := do
  let target := (← get).readTarget
  let chunk ← Step.onPart reader (fun e reader => { e with reader })
    (ChunkReader.readAvailable target false)
  modify fun e => { e with readTarget := min (target * 2) Limits.readMax }
  return chunk

/-- The nonce and salt of a head, from the bytes drawn for it. -/
def splitRandom (algorithm : Algorithm) (random : Bytes Limits.headRandomBytes) :
    Bytes 16 × ByteArray :=
  (.takeFrom 16 random.data 0 (by rw [random.size_data]; decide),
    random.data.extract Limits.saltBytes (Limits.saltBytes + algorithm.ivBytes))

/-- The sealed form of a hint, of which no more is kept than fits; nothing for an empty hint. -/
def sealHint (algorithm : Algorithm) (key : Key) (iv : ByteArray) (hint : String) :
    Except Fault ByteArray :=
  if hint.isEmpty then .ok .empty
  else
    let kept := String.ofList (Text.takeUtf8 Limits.hintMaxBytes hint.toList)
    algorithm.encrypt key iv kept.toUTF8 .empty

/-- Takes note of a block that was sealed. -/
def finishBlock (parts : SealedParts) (terminal : Bool) : Step Encryptor Block := do
  let stage ← (← get).stage.transition (if terminal then .finished else .headDone)
  modify fun e =>
    let e := { e with stage, lastTag := some parts.tag }
    if terminal then e.dropKeys else e
  return ⟨parts.header, parts.associated, parts.text, stage⟩

/-! ### Steps -/

/-- The head of the pass. -/
def encryptHead (settings : PassSettings) : Step Encryptor Block := settle do
  require .initialized "encrypt block0"
  let chunk ← nextChunk
  let algorithm := settings.algorithm
  let (salt, iv) := splitRandom algorithm (← Step.ofProgram (Host.draw Limits.headRandomBytes))
  let answer ← (← Step.ofProgram (Host.password
    ⟨Limits.version5, algorithm, settings.iterations, settings.loop, iv, salt, none⟩))
  let hint := answer.hint.getD ""
  -- Of an answer with several faults the hint is named first, and the password last.
  if Limits.hintMaxChars < hint.length then throw .longHint
  let credential := (← get).credential
  let derivation ← Derivation.ofPassword settings.iterations answer.password credential salt.data
  let keys : PassKeys :=
    ⟨← Step.ofProgram (Host.derive derivation), credential.signingKey salt⟩
  let sealedHint ← sealHint algorithm (credential.hintKey salt) iv hint
  let data : AssociatedData :=
    ⟨algorithm, iv, salt, settings.iterations, settings.loop, sealedHint⟩
  -- A head follows no block: the chain begins with it.
  let parts ← sealBlock keys .empty data chunk.bytes chunk.done
  modify fun e => { e with keys := some keys }
  finishBlock parts chunk.done

/-- A further block. -/
def encryptFurther (settings : PassSettings) : Step Encryptor Block := settle do
  require .headDone "encrypt blockN"
  let chunk ← nextChunk
  let algorithm := settings.algorithm
  let iv ← Step.ofProgram (Host.draw algorithm.ivBytes)
  let e ← get
  match e.keys, e.lastTag with
  | some keys, some previous =>
    let parts ← sealBlock keys previous.data { algorithm, iv := iv.data } chunk.bytes chunk.done
    finishBlock parts chunk.done
  | _, _ => throw (.stageViolation e.stage "encrypt blockN without keys")

/-- The head or a further block, whichever is next. -/
def encryptBlock (settings : PassSettings) : Step Encryptor Block := do
  match (← get).stage with
  | .initialized => encryptHead settings
  | _ => encryptFurther settings

end Encryptor

end SealedStream
