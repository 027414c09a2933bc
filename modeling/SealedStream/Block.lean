import SealedStream.AssociatedData
import SealedStream.BlockTag

/-!
# Sealed blocks

A block on the wire is a header, its associated data, and the sealed text:

```text
header: tag(32) version(2) size(3) flags(1)      size: of the associated data and the text
```

The tag covers the rest of the header, the associated data, the text, and the tag of the block
before, if there is one.
-/

namespace SealedStream

/-- A block, in the order of the wire, and the stage of the session after it. -/
structure Block where
  header : ByteArray
  associated : ByteArray
  text : ByteArray
  stage : Stage
  deriving DecidableEq

namespace Block

/-- The bytes of a block. -/
def toByteArray (b : Block) : ByteArray :=
  b.header ++ b.associated ++ b.text

/-- The number of bytes of a block. -/
def size (b : Block) : Nat :=
  b.header.size + b.associated.size + b.text.size

/-- Whether a block has no bytes at all. -/
def isEmpty (b : Block) : Bool :=
  b.header.isEmpty && b.associated.isEmpty && b.text.isEmpty

end Block

/-! ### Making a block -/

/-- The part of a header that is signed. -/
def writeSignedHeader (size : Nat) (terminal : Bool) : Writing Unit := do
  FieldWriter.version Limits.version5
  FieldWriter.size size
  FieldWriter.flags (if terminal then Limits.flagTerminal else 0)

/-- The keys of a pass. -/
structure PassKeys where
  cipher : Key
  signing : Key
  deriving DecidableEq

/-- The parts of a block before it is handed out, and its tag. -/
structure SealedParts where
  header : ByteArray
  associated : ByteArray
  text : ByteArray
  tag : Bytes 32

/-- Seals a chunk and signs the block, after one with the tag `previous`. -/
def sealBlock (keys : PassKeys) (previous : ByteArray) (data : AssociatedData)
    (clear : ByteArray) (terminal : Bool) : Except Fault SealedParts := do
  let associated ← data.encode
  let text ← data.algorithm.encrypt keys.cipher data.iv clear associated
  let (written, w) :=
    (writeSignedHeader (associated.size + text.size) terminal).run
      (.ofSize Limits.headerBytes Limits.macBytes)
  written
  let signed := w.buffer.extract Limits.macBytes w.buffer.size
  let tag := blockTag keys.signing signed associated text previous
  let (written, w) := (do FieldWriter.seek 0; FieldWriter.mac tag.data : Writing Unit).run w
  written
  return ⟨w.buffer, associated, text, tag⟩

end SealedStream
