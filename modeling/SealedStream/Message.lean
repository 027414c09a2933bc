import SealedStream.Frame

/-!
# Signed messages

In the first generation the whole stream is one message, signed as a whole.  It knows no passes, so
it is pass one of one:

```text
tag(32) algorithm(2) nonce(n) salt(16) iterations(4) version(2) length(1) hint(length) text
        └──────────────────────── associated data ───────────────────────┘
```
-/

namespace SealedStream.Message

/-- The fields of a message. -/
structure Fields where
  tag : Bytes 32
  algorithm : Algorithm
  iv : ByteArray
  salt : Bytes 16
  iterations : Nat
  sealedHint : ByteArray
  /-- Where the text starts. -/
  textStart : Nat

/-- Reads a message to its end. -/
def readFields : Reading Fields := do
  let tag ← FieldReader.mac
  let algorithm ← FieldReader.readAlgorithm
  let iv ← FieldReader.iv
  let salt ← FieldReader.salt
  let iterations ← FieldReader.iterations
  let version ← FieldReader.version
  if version ≠ Limits.version1 then throw (.protocolVersion version)
  let sealedHint ← FieldReader.hint
  let textStart := (← get).offset
  discard (FieldReader.rest "edata")
  return ⟨tag, algorithm, iv, salt, iterations, sealedHint, textStart⟩

/-- The message in some bytes, as the head of its only pass. -/
def verify (message : ByteArray) (credential : Credential) : Except Fault VerifiedHead := do
  if message.size < Limits.payloadMin then
    throw (.malformedField "size" s!"{message.size} bytes is below {Limits.payloadMin}")
  let fields ← (readFields.run { bytes := message }).1
  let associated := message.extract Limits.macBytes fields.textStart
  let text := message.extract fields.textStart message.size
  let signingKey := credential.signingKey fields.salt
  verifyTag fields.tag (messageTag signingKey associated text)
  let hint ← openHint fields.algorithm (credential.hintKey fields.salt) fields.iv fields.sealedHint
  let info : PassInfo :=
    ⟨Limits.version1, fields.algorithm, fields.iterations, ⟨1, 1⟩, fields.iv, fields.salt, hint⟩
  return ⟨info, signingKey, fields.tag, 0, associated, text⟩

end SealedStream.Message
