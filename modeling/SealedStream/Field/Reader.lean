import SealedStream.Algorithm
import SealedStream.Field.Range
import SealedStream.LoopIndex

/-!
# Reading fields

A field reader is a string and a place in it.  Each field checks that enough bytes remain, moves the
place past them, and then checks the value: a field that is cut short leaves the place where it was,
a value out of range leaves it after the field.  How long a nonce is depends on the algorithm that
was read last; a sealed hint has its length in front of it.
-/

namespace SealedStream

/-- A string, a place in it, and the algorithm read last. -/
structure FieldReader where
  bytes : ByteArray
  offset : Nat := 0
  algorithm : Option Algorithm := none

/-- Reading changes the place, also when it fails. -/
abbrev Reading := ExceptT Fault (StateM FieldReader)

namespace FieldReader

/-- The number of bytes after the place. -/
def remaining (r : FieldReader) : Nat :=
  r.bytes.size - r.offset

/-- The next `n` bytes. -/
def take (field : String) (n : Nat) : Reading ByteArray := do
  let r ← get
  if r.remaining < n then
    throw (.malformedField field s!"needs {n} bytes, {r.remaining} remain")
  set { r with offset := r.offset + n }
  return r.bytes.extract r.offset (r.offset + n)

/-- The next `n` bytes, with their number in the type. -/
def takeBytes (field : String) (n : Nat) : Reading (Bytes n) := do
  let r ← get
  if h : r.offset + n ≤ r.bytes.size then
    set { r with offset := r.offset + n }
    return .takeFrom n r.bytes r.offset h
  else
    throw (.malformedField field s!"needs {n} bytes, {r.remaining} remain")

/-- The number in the next `n` bytes. -/
def takeNat (field : String) (n : Nat) : Reading Nat := do
  return readLE (← take field n)

/-! ### The fields -/

/-- A block tag. -/
def mac : Reading (Bytes 32) :=
  takeBytes "mac" 32

/-- An algorithm. -/
def readAlgorithm : Reading Algorithm := do
  let n ← takeNat "alg" Limits.algorithmBytes
  match Algorithm.ofId? n with
  | some a =>
    modify ({ · with algorithm := some a })
    return a
  | none => throw (.malformedField "alg" s!"unknown algorithm id {n}")

/-- A nonce for the algorithm read last. -/
def iv : Reading ByteArray := do
  match (← get).algorithm with
  | some a => take "iv" a.ivBytes
  | none => throw (.malformedField "iv" "algorithm must be read first")

/-- A salt. -/
def salt : Reading (Bytes 16) :=
  takeBytes "slt" 16

/-- An iteration count. -/
def iterations : Reading Nat := do
  let n ← takeNat "ic" Limits.iterationsBytes
  checkIterationsField n

/-- A version. -/
def version : Reading Nat := do
  let n ← takeNat "ver" Limits.versionBytes
  checkVersion n

/-- A loop index. -/
def loopIndex : Reading LoopIndex := do
  let b ← take "lpp" Limits.loopBytes
  LoopIndex.ofByte (byteAt b 0)

/-- Flags. -/
def flags : Reading Nat := do
  let n ← takeNat "flags" Limits.flagsBytes
  checkFlags n

/-- A sealed hint, which may be empty. -/
def hint : Reading ByteArray := do
  let start ← get
  let n ← takeNat "hint" Limits.hintLengthBytes
  tryCatch (take "hint" n) fun fault => do
    set start
    throw fault

/-- The size of a payload. -/
def size : Reading Nat := do
  let n ← takeNat "size" Limits.sizeBytes
  checkSize n

/-- All that follows, which must not be nothing. -/
def rest (field : String) : Reading ByteArray := do
  let r ← get
  if r.remaining = 0 then throw (.malformedField field "no bytes remain")
  set { r with offset := r.bytes.size }
  return r.bytes.extract r.offset r.bytes.size

end FieldReader

end SealedStream
