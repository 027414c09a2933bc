import SealedStream.Hash.Sha256
import SealedStream.Hash.Sha512

/-!
# HMAC

A keyed hash made of two plain ones, over SHA-256 and SHA-512.  Over SHA-512 a key is kept as the
two chaining values it leads to (`HmacKey`), because key stretching uses the same key for every one
of its many hashes.
-/

namespace SealedStream

/-- A key as a block of `n` bytes: cut by hashing when it is longer, filled up with zeros. -/
def hmacBlock (n : Nat) (hash : ByteArray → ByteArray) (key : ByteArray) : ByteArray :=
  let short := if key.size ≤ n then key else hash key
  short ++ zeros (n - short.size)

/-! ### Over SHA-256 -/

/-- HMAC-SHA256 of `data`. -/
def hmacSha256 (key data : ByteArray) : Bytes 32 :=
  let block := hmacBlock 64 (fun k => (Sha256.hash k).data) key
  let inner := Sha256.hash (xorBytes block (replicate 64 0x36) ++ data)
  Sha256.hash (xorBytes block (replicate 64 0x5c) ++ inner.data)

/-! ### Over SHA-512 -/

/-- An HMAC-SHA512 key: the chaining values after its inner and outer block. -/
structure HmacKey where
  (inner outer : Words8x64)

namespace HmacKey

/-- Both chaining values of a key. -/
def ofByteArray (key : ByteArray) : HmacKey :=
  let block := hmacBlock 128 (fun k => (Sha512.hash k).data) key
  ⟨Sha512.absorb Sha512.initial (xorBytes block (replicate 128 0x36)),
    Sha512.absorb Sha512.initial (xorBytes block (replicate 128 0x5c))⟩

/-- HMAC-SHA512 of `data`, as words. -/
def words (k : HmacKey) (data : ByteArray) : Words8x64 :=
  let inner := Sha512.hashFrom k.inner 128 data
  Sha512.hashFrom k.outer 128 (inner.pushBE .empty)

/-- HMAC-SHA512 of `data`. -/
def mac (k : HmacKey) (data : ByteArray) : Bytes 64 :=
  ⟨(k.words data).pushBE .empty, by simp⟩

/-- The only block of a 64-byte message that follows one key block: the message, a one bit, zeros,
and the length of both in bits. -/
@[inline] def digestBlock (x : Words8x64) : Words16x64 :=
  ⟨x.a, x.b, x.c, x.d, x.e, x.f, x.g, x.h, 0x8000000000000000, 0, 0, 0, 0, 0, 0, 1536⟩

/-- HMAC-SHA512 of a message that is itself such a hash.  Both of its hashes take one block. -/
def again (k : HmacKey) (x : Words8x64) : Words8x64 :=
  let inner := Sha512.compress k.inner (digestBlock x)
  Sha512.compress k.outer (digestBlock inner)

end HmacKey

end SealedStream
