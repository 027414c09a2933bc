import SealedStream.AssociatedData
import SealedStream.BlockTag
import SealedStream.Host
import SealedStream.Text.Utf8
import SealedStream.WireFormat

/-!
# Verified blocks

Taking a received block apart and verifying it: the header, the associated data, the tag, and, in a
head, the hint.  Nothing of a block is given back before its tag has been verified.

The two framed generations share a header.  The older one has four bytes for the size, of which the
highest stands where the newer one has its flags; payloads never need it, so it is zero, and both
generations sign the same six bytes.
-/

namespace SealedStream

/-! ### Headers -/

/-- The header of a block. -/
structure FrameHeader where
  tag : Bytes 32
  size : Nat
  flags : Nat
  deriving DecidableEq

namespace FrameHeader

/-- Reads a header of a stream of the given format. -/
def read (format : WireFormat) : Reading FrameHeader := do
  let tag ← FieldReader.mac
  let version ← FieldReader.version
  if version ≠ format.version then throw (.protocolVersion version)
  let size ← FieldReader.size
  match format with
  | .chained =>
    let flags ← FieldReader.flags
    return ⟨tag, size, flags⟩
  | _ =>
    let rest ← FieldReader.rest "size"
    if rest ≠ zeros 1 then throw (.malformedField "size" "V4 payload size above 3 bytes")
    return ⟨tag, size, 0⟩

/-- The header in some bytes. -/
def parse (format : WireFormat) (header : ByteArray) : Except Fault FrameHeader :=
  ((read format).run { bytes := header }).1

end FrameHeader

/-! ### Blocks -/

/-- A head that has been verified, and waits for its password. -/
structure VerifiedHead where
  info : PassInfo
  signingKey : Key
  tag : Bytes 32
  flags : Nat
  associated : ByteArray
  text : ByteArray
  deriving DecidableEq

/-- A further block that has been verified. -/
structure VerifiedBlock where
  algorithm : Algorithm
  iv : ByteArray
  tag : Bytes 32
  flags : Nat
  associated : ByteArray
  text : ByteArray
  deriving DecidableEq

/-- A payload cut at the end of its associated data.  The text holds at least a tag, so it cannot be
empty. -/
def splitPayload (payload : ByteArray) (n : Nat) : Except Fault (ByteArray × ByteArray) :=
  if payload.size ≤ n then .error .noText
  else .ok (payload.extract 0 n, payload.extract n payload.size)

/-- The hint in its sealed form; there is none if that is empty. -/
def openHint (algorithm : Algorithm) (key : Key) (iv sealedHint : ByteArray) :
    Except Fault (Option String) := do
  if sealedHint.isEmpty then return none
  return Text.decodeLossy (← algorithm.decrypt key iv sealedHint .empty)

namespace FrameHeader

/-- The head of a framed pass, from its whole header and its payload. -/
def verifyHead (frame : FrameHeader) (format : WireFormat) (header payload : ByteArray)
    (credential : Credential) : Except Fault VerifiedHead := do
  let (data, n) ← AssociatedData.decodeHead payload
  let (associated, text) ← splitPayload payload n
  match data.salt, data.iterations, data.loop with
  | some salt, some iterations, some loop =>
    let signingKey := credential.signingKey salt
    let signed := header.extract Limits.macBytes header.size
    let tag := blockTag signingKey signed associated text .empty
    verifyTag frame.tag tag
    let hint ← openHint data.algorithm (credential.hintKey salt) data.iv (data.hint.getD .empty)
    let info : PassInfo :=
      ⟨format.version, data.algorithm, iterations, loop, data.iv, salt, hint⟩
    return ⟨info, signingKey, tag, frame.flags, associated, text⟩
  | _, _, _ => throw (.malformedField "additional data" "block0 fields missing")

/-- A further block, after one whose tag is `previous`; nothing where there is no chain. -/
def verifyFurther (frame : FrameHeader) (header payload : ByteArray) (signingKey : Key)
    (previous : ByteArray) : Except Fault VerifiedBlock := do
  let (data, n) ← AssociatedData.decodeFurther payload
  let (associated, text) ← splitPayload payload n
  let signed := header.extract Limits.macBytes header.size
  let tag := blockTag signingKey signed associated text previous
  verifyTag frame.tag tag
  return ⟨data.algorithm, data.iv, tag, frame.flags, associated, text⟩

end FrameHeader

end SealedStream
