import SealedStream.Hash.Words

/-!
# Blocks of 128 bits

The block ciphers and the authenticator of the Galois mode work on blocks of sixteen bytes, kept
as two words with the first byte in the highest place.  A string shorter than a block is read as if
zeros followed it.
-/

namespace SealedStream

/-- Sixteen bytes, the first eight in `hi`. -/
structure Block128 where
  (hi lo : UInt64)
  deriving DecidableEq

namespace Block128

/-- The block of zeros. -/
def zero : Block128 := ⟨0, 0⟩

instance : XorOp Block128 where
  xor x y := ⟨x.hi ^^^ y.hi, x.lo ^^^ y.lo⟩

instance : AndOp Block128 where
  and x y := ⟨x.hi &&& y.hi, x.lo &&& y.lo⟩

/-- The first sixteen bytes of `data`. -/
def ofByteArray (data : ByteArray) : Block128 :=
  ⟨be64At data 0, be64At data 8⟩

/-- Appends the bytes of a block. -/
def push (out : ByteArray) (x : Block128) : ByteArray :=
  pushBe64 (pushBe64 out x.hi) x.lo

@[simp] theorem size_push (out : ByteArray) (x : Block128) : (push out x).size = out.size + 16 := by
  simp [push]

/-- The bytes of a block. -/
def toBytes (x : Block128) : Bytes 16 :=
  ⟨x.push .empty, by simp⟩

end Block128

end SealedStream
