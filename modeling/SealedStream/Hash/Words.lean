import SealedStream.Bytes

/-!
# Rows of words

The hash functions and stream ciphers work on rows of eight or sixteen words of 32 or 64 bits.  A
row is a record with one field a word, so that a round over it needs no indices, and no bounds.
-/

namespace SealedStream

/-- Eight 32-bit words. -/
structure Words8x32 where
  (a b c d e f g h : UInt32)
  deriving DecidableEq

/-- Sixteen 32-bit words. -/
structure Words16x32 where
  (w0 w1 w2 w3 w4 w5 w6 w7 : UInt32)
  (w8 w9 w10 w11 w12 w13 w14 w15 : UInt32)
  deriving DecidableEq

/-- Eight 64-bit words. -/
structure Words8x64 where
  (a b c d e f g h : UInt64)
  deriving DecidableEq

/-- Sixteen 64-bit words. -/
structure Words16x64 where
  (w0 w1 w2 w3 w4 w5 w6 w7 : UInt64)
  (w8 w9 w10 w11 w12 w13 w14 w15 : UInt64)
  deriving DecidableEq

/-! ### Rotations -/

/-- Rotation to the right by `n` bits, `0 < n < 64`. -/
@[inline] def rotr64 (x n : UInt64) : UInt64 :=
  (x >>> n) ||| (x <<< (64 - n))

/-- Rotation to the right by `n` bits, `0 < n < 32`. -/
@[inline] def rotr32 (x n : UInt32) : UInt32 :=
  (x >>> n) ||| (x <<< (32 - n))

/-- Rotation to the left by `n` bits, `0 < n < 32`. -/
@[inline] def rotl32 (x n : UInt32) : UInt32 :=
  (x <<< n) ||| (x >>> (32 - n))

/-! ### Word by word -/

namespace Words8x32

/-- The sums of the words, modulo `2 ^ 32`. -/
@[inline] def add (x y : Words8x32) : Words8x32 :=
  ⟨x.a + y.a, x.b + y.b, x.c + y.c, x.d + y.d, x.e + y.e, x.f + y.f, x.g + y.g, x.h + y.h⟩

end Words8x32

namespace Words16x32

/-- The sums of the words, modulo `2 ^ 32`. -/
@[inline] def add (x y : Words16x32) : Words16x32 :=
  ⟨x.w0 + y.w0, x.w1 + y.w1, x.w2 + y.w2, x.w3 + y.w3, x.w4 + y.w4, x.w5 + y.w5, x.w6 + y.w6,
    x.w7 + y.w7, x.w8 + y.w8, x.w9 + y.w9, x.w10 + y.w10, x.w11 + y.w11, x.w12 + y.w12,
    x.w13 + y.w13, x.w14 + y.w14, x.w15 + y.w15⟩

end Words16x32

namespace Words8x64

/-- The sums of the words, modulo `2 ^ 64`. -/
@[inline] def add (x y : Words8x64) : Words8x64 :=
  ⟨x.a + y.a, x.b + y.b, x.c + y.c, x.d + y.d, x.e + y.e, x.f + y.f, x.g + y.g, x.h + y.h⟩

/-- The exclusive ors of the words. -/
@[inline] def xor (x y : Words8x64) : Words8x64 :=
  ⟨x.a ^^^ y.a, x.b ^^^ y.b, x.c ^^^ y.c, x.d ^^^ y.d, x.e ^^^ y.e, x.f ^^^ y.f, x.g ^^^ y.g,
    x.h ^^^ y.h⟩

end Words8x64

/-! ### Reading a row from a byte string -/

/-- The 64 bytes at `i`, the most significant byte of each word first. -/
def Words16x32.readBE (data : ByteArray) (i : Nat) : Words16x32 :=
  ⟨be32At data i, be32At data (i + 4), be32At data (i + 8), be32At data (i + 12),
    be32At data (i + 16), be32At data (i + 20), be32At data (i + 24), be32At data (i + 28),
    be32At data (i + 32), be32At data (i + 36), be32At data (i + 40), be32At data (i + 44),
    be32At data (i + 48), be32At data (i + 52), be32At data (i + 56), be32At data (i + 60)⟩

/-- The 128 bytes at `i`, the most significant byte of each word first. -/
def Words16x64.readBE (data : ByteArray) (i : Nat) : Words16x64 :=
  ⟨be64At data i, be64At data (i + 8), be64At data (i + 16), be64At data (i + 24),
    be64At data (i + 32), be64At data (i + 40), be64At data (i + 48), be64At data (i + 56),
    be64At data (i + 64), be64At data (i + 72), be64At data (i + 80), be64At data (i + 88),
    be64At data (i + 96), be64At data (i + 104), be64At data (i + 112), be64At data (i + 120)⟩

/-- The 128 bytes at `i`, the least significant byte of each word first. -/
def Words16x64.readLE (data : ByteArray) (i : Nat) : Words16x64 :=
  ⟨le64At data i, le64At data (i + 8), le64At data (i + 16), le64At data (i + 24),
    le64At data (i + 32), le64At data (i + 40), le64At data (i + 48), le64At data (i + 56),
    le64At data (i + 64), le64At data (i + 72), le64At data (i + 80), le64At data (i + 88),
    le64At data (i + 96), le64At data (i + 104), le64At data (i + 112), le64At data (i + 120)⟩

/-! ### Writing a row to a byte string -/

/-- Appends the words, the most significant byte of each first. -/
def Words8x32.pushBE (out : ByteArray) (x : Words8x32) : ByteArray :=
  [x.a, x.b, x.c, x.d, x.e, x.f, x.g, x.h].foldl pushBe32 out

@[simp] theorem Words8x32.size_pushBE (out : ByteArray) (x : Words8x32) :
    (Words8x32.pushBE out x).size = out.size + 32 := by
  simp [Words8x32.pushBE]

/-- Appends the words, the least significant byte of each first. -/
def Words8x32.pushLE (out : ByteArray) (x : Words8x32) : ByteArray :=
  [x.a, x.b, x.c, x.d, x.e, x.f, x.g, x.h].foldl pushLe32 out

@[simp] theorem Words8x32.size_pushLE (out : ByteArray) (x : Words8x32) :
    (Words8x32.pushLE out x).size = out.size + 32 := by
  simp [Words8x32.pushLE]

/-- Appends the words, the most significant byte of each first. -/
def Words8x64.pushBE (out : ByteArray) (x : Words8x64) : ByteArray :=
  [x.a, x.b, x.c, x.d, x.e, x.f, x.g, x.h].foldl pushBe64 out

@[simp] theorem Words8x64.size_pushBE (out : ByteArray) (x : Words8x64) :
    (Words8x64.pushBE out x).size = out.size + 64 := by
  simp [Words8x64.pushBE]

/-- Appends the words, the least significant byte of each first. -/
def Words8x64.pushLE (out : ByteArray) (x : Words8x64) : ByteArray :=
  [x.a, x.b, x.c, x.d, x.e, x.f, x.g, x.h].foldl pushLe64 out

@[simp] theorem Words8x64.size_pushLE (out : ByteArray) (x : Words8x64) :
    (Words8x64.pushLE out x).size = out.size + 64 := by
  simp [Words8x64.pushLE]

/-- Appends the words, the least significant byte of each first. -/
def Words16x32.pushLE (out : ByteArray) (x : Words16x32) : ByteArray :=
  [x.w0, x.w1, x.w2, x.w3, x.w4, x.w5, x.w6, x.w7, x.w8, x.w9, x.w10, x.w11, x.w12, x.w13, x.w14,
    x.w15].foldl pushLe32 out

@[simp] theorem Words16x32.size_pushLE (out : ByteArray) (x : Words16x32) :
    (Words16x32.pushLE out x).size = out.size + 64 := by
  simp [Words16x32.pushLE]

end SealedStream
