import SealedStream.Algorithm
import SealedStream.Field.Range
import SealedStream.LoopIndex

/-!
# Writing fields

A field writer is a string of fixed length and a place in it.  Each field checks its value and that
there is room for it, then replaces the bytes at the place and moves the place past them.  A field
that is refused changes nothing.
-/

namespace SealedStream

attribute [local instance (2000)] instPowNat

/-- A string and a place in it. -/
structure FieldWriter where
  buffer : ByteArray
  offset : Nat

/-- Writing changes string and place, but not when it fails. -/
abbrev Writing := ExceptT Fault (StateM FieldWriter)

namespace FieldWriter

/-- `n` zero bytes, to be written from `offset` on, or from their end if that is before. -/
def ofSize (n : Nat) (offset : Nat := 0) : FieldWriter :=
  ⟨zeros n, min offset n⟩

/-- The room after the place. -/
def free (w : FieldWriter) : Nat :=
  w.buffer.size - w.offset

/-- The bytes before the place. -/
def written (w : FieldWriter) : ByteArray :=
  w.buffer.extract 0 w.offset

/-- The string with `bytes` at the place, and the place after them. -/
def replace (w : FieldWriter) (bytes : ByteArray) : FieldWriter :=
  ⟨w.written ++ bytes ++ w.buffer.extract (w.offset + bytes.size) w.buffer.size,
    w.offset + bytes.size⟩

/-- Writes bytes. -/
def put (field : String) (bytes : ByteArray) : Writing Unit := do
  let w ← get
  if w.free < bytes.size then
    throw (.malformedField field s!"needs {bytes.size} bytes, {w.free} free")
  set (w.replace bytes)

/-- Writes a number in `width` bytes. -/
def putNat (field : String) (n width : Nat) : Writing Unit := do
  if 256 ^ width ≤ n then
    throw (.malformedField field s!"{n} does not fit in {width} bytes")
  put field (writeLE width n)

/-- Moves the place. -/
def seek (offset : Nat) : Writing Unit := do
  let w ← get
  if w.buffer.size < offset then
    throw (.invalidArgument s!"offset {offset} beyond buffer of {w.buffer.size} bytes")
  set { w with offset }

/-! ### The fields -/

/-- A block tag. -/
def mac (tag : ByteArray) : Writing Unit := do
  if tag.size ≠ Limits.macBytes then
    throw (.malformedField "mac" s!"must be {Limits.macBytes} bytes")
  put "mac" tag

/-- An algorithm. -/
def algorithm (a : Algorithm) : Writing Unit :=
  putNat "alg" a.id Limits.algorithmBytes

/-- A nonce. -/
def iv (a : Algorithm) (nonce : ByteArray) : Writing Unit := do
  if nonce.size ≠ a.ivBytes then throw (.ivField a.name a.ivBytes nonce.size)
  put "iv" nonce

/-- A salt. -/
def salt (bytes : ByteArray) : Writing Unit := do
  if bytes.size ≠ Limits.saltBytes then
    throw (.malformedField "slt" s!"must be {Limits.saltBytes} bytes")
  put "slt" bytes

/-- An iteration count. -/
def iterations (n : Nat) : Writing Unit := do
  let n ← checkIterationsField n
  putNat "ic" n Limits.iterationsBytes

/-- A version. -/
def version (n : Nat) : Writing Unit := do
  let n ← checkVersion n
  putNat "ver" n Limits.versionBytes

/-- A loop index. -/
def loopIndex (l : LoopIndex) : Writing Unit := do
  let l ← l.check
  put "lpp" (ofList [l.toByte])

/-- Flags. -/
def flags (n : Nat) : Writing Unit := do
  let n ← checkFlags n
  put "flags" (writeLE Limits.flagsBytes n)

/-- A sealed hint, after its length.  There must be room for both. -/
def hint (bytes : ByteArray) : Writing Unit := do
  if Limits.sealedHintMax < bytes.size then throw (.hintField bytes.size)
  put "hint" (writeLE Limits.hintLengthBytes bytes.size ++ bytes)

/-- The size of a payload. -/
def size (n : Nat) : Writing Unit := do
  let n ← checkSize n
  putNat "size" n Limits.sizeBytes

/-- Bytes of any kind. -/
def bytes (b : ByteArray) : Writing Unit :=
  put "bytes" b

end FieldWriter

end SealedStream
