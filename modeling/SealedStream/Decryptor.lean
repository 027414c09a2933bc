import SealedStream.Block
import SealedStream.ChunkReader
import SealedStream.Message

/-!
# Decrypting one pass

A decryptor reads the first header of its input, which tells the format, and then gives the clear
text of one block a step.  The head can be verified on its own, which shows its metadata without a
password (`Decryptor.info`).  A further step at the end of the input finishes the session, unless
the format requires a last block and there was none.

A step that fails leaves the session failed and without keys; nothing can be done with it any more.
-/

namespace SealedStream

/-- A session that decrypts one pass. -/
structure Decryptor where
  format : WireFormat
  credential : Credential
  /-- The input. -/
  reader : ChunkReader
  stage : Stage := .initialized
  /-- The first header, until the head is verified. -/
  header : Option ByteArray
  /-- The verified head, until it is decrypted. -/
  head : Option VerifiedHead := none
  /-- The metadata of the pass, once the head is verified. -/
  metadata : Option PassInfo := none
  /-- The keys, from the head to the end. -/
  keys : Option PassKeys := none
  /-- The tag of the last block; zeros when the session is over. -/
  lastTag : Option (Bytes 32) := none
  /-- The flags of the last block. -/
  lastFlags : Nat := 0
  deriving DecidableEq

namespace Decryptor

/-- A session on the input from here on. -/
def start (credential : Credential) : Program Host (Except Fault Decryptor) := do
  let (chunk, reader) ← ChunkReader.readFill Limits.headerBytes false {}
  return do
    let chunk ← chunk
    let format ← WireFormat.ofHeader chunk.bytes
    return { format, credential, reader, header := chunk.bytes }

/-- Forgets the keys. -/
def dropKeys (d : Decryptor) : Decryptor :=
  { d with keys := none, lastTag := d.lastTag.map fun _ => Bytes.zeros 32 }

/-! ### Parts of a step -/

/-- A step of which a fault ends the session. -/
def settle {α : Type} (step : Step Decryptor α) : Step Decryptor α :=
  tryCatch step fun fault => do
    modify fun d => { d.dropKeys with stage := .failed, head := none }
    throw fault

/-- Fails unless the session is at one of the stages given. -/
def require (expected : List Stage) (operation : String) : Step Decryptor Unit := do
  (← get).stage.require expected operation

/-- Moves the session to another stage. -/
def enter (next : Stage) : Step Decryptor Unit := do
  let stage ← (← get).stage.transition next
  modify ({ · with stage })

/-- A step on the input. -/
def onReader {α : Type} (step : Step ChunkReader α) : Step Decryptor α :=
  Step.onPart reader (fun d reader => { d with reader }) step

/-- A payload of exactly `size` bytes, which follows a header that is still in use. -/
def readPayload (size : Nat) : Step Decryptor ByteArray := do
  let chunk ← onReader (ChunkReader.readFill size true)
  if chunk.bytes.size < size then
    throw (.sizeMismatch "cipher data payload" size chunk.bytes.size)
  return chunk.bytes

/-- Reads the rest of the head and verifies it. -/
def verifyHead (d : Decryptor) (header : ByteArray) : Step Decryptor VerifiedHead := do
  match d.format with
  | .message =>
    let rest ← onReader (ChunkReader.readToLimit Limits.payloadMax true)
    Message.verify (header ++ rest.bytes) d.credential
  | _ =>
    let frame ← FrameHeader.parse d.format header
    let payload ← readPayload frame.size
    frame.verifyHead d.format header payload d.credential

/-- The metadata of the pass, for which the head is verified if it has not been. -/
def decodeHead : Step Decryptor PassInfo := do
  let d ← get
  -- A failed session says nothing any more, not even what it knew.
  match d.metadata with
  | some info => if d.stage ≠ .failed then return info
  | none => pure ()
  require [.initialized] "decode block0"
  match d.header with
  | none => throw (.stageViolation d.stage "decode block0 without header")
  | some header =>
    modify ({ · with header := none })
    let head ← verifyHead d header
    enter .headDecoded
    modify ({ · with metadata := head.info, head })
    return head.info

/-- The end of the pass. -/
def finish : Step Decryptor ByteArray := do
  enter .finished
  modify dropKeys
  return .empty

/-! ### Steps -/

/-- The metadata of the pass, with its hint.  It needs no password, and can be had any number of
times. -/
def info : Step Decryptor PassInfo :=
  settle decodeHead

/-- The clear text of the head, for which the password is asked. -/
def decryptHead : Step Decryptor ByteArray := settle do
  require [.initialized, .headDecoded] "decrypt block0"
  let info ← decodeHead
  let d ← get
  match d.head with
  | none => throw (.stageViolation d.stage "decrypt block0 twice")
  | some head =>
    modify ({ · with head := none })
    let answer ← (← Step.ofProgram (Host.password info))
    let derivation ←
      Derivation.ofPassword info.iterations answer.password d.credential info.salt.data
    let cipher ← Step.ofProgram (Host.derive derivation)
    let clear ← info.algorithm.decrypt cipher info.iv head.text head.associated
    enter .headDone
    modify ({ · with
      keys := some ⟨cipher, head.signingKey⟩, lastTag := some head.tag, lastFlags := head.flags })
    return clear

/-- The clear text of the block with a header that has been read. -/
def decryptFrame (header : ByteArray) : Step Decryptor ByteArray := do
  let d ← get
  let frame ← FrameHeader.parse d.format header
  let payload ← readPayload frame.size
  match d.keys with
  | none => throw (.stageViolation d.stage "decrypt blockN without keys")
  | some keys =>
    let previous := if d.format.isChained then d.lastTag.elim .empty Bytes.data else .empty
    let block ← frame.verifyFurther header payload keys.signing previous
    -- Only now is it certain that the block belongs to the stream, and is one too many.
    if d.format.requiresTerminal ∧ d.lastFlags = Limits.flagTerminal then throw .extraTerminal
    let clear ← block.algorithm.decrypt keys.cipher block.iv block.text block.associated
    enter .headDone
    modify ({ · with lastTag := some block.tag, lastFlags := block.flags })
    return clear

/-- The clear text of a further block; nothing at the end of the pass, which finishes it. -/
def decryptFurther : Step Decryptor ByteArray := settle do
  require [.headDone] "decrypt blockN"
  let d ← get
  match d.format with
  | .message => finish
  | _ =>
    let chunk ← onReader (ChunkReader.readFill Limits.headerBytes false)
    if chunk.bytes.isEmpty then
      if d.format.requiresTerminal ∧ d.lastFlags ≠ Limits.flagTerminal then throw .missingTerminal
      finish
    else if chunk.bytes.size < Limits.headerBytes then
      throw (.sizeMismatch "cipher data header" Limits.headerBytes chunk.bytes.size)
    else decryptFrame chunk.bytes

/-- The head or a further block, whichever is next. -/
def decryptBlock : Step Decryptor ByteArray := do
  match (← get).stage with
  | .initialized => decryptHead
  | .headDecoded => decryptHead
  | _ => decryptFurther

end Decryptor

end SealedStream
