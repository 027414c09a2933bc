import SealedStream.Hash.Words

/-!
# Poly1305

A one-time authenticator: the blocks of a string are the coefficients of a polynomial modulo the
prime `2 ^ 130 - 5`, evaluated at the first half of the key; the second half is added.
-/

namespace SealedStream.Poly1305

/-- The prime. -/
def prime : Nat := (1 <<< 130) - 5

/-- The first half of the key, with the bits cleared that the scheme wants clear. -/
def multiplier (key : Bytes 32) : Nat :=
  ((le64At key.data 0).toNat + (le64At key.data 8).toNat <<< 64)
    &&& 0x0ffffffc0ffffffc0ffffffc0fffffff

/-- The number of a whole block, with a one above its highest byte. -/
def coefficient (block : ByteArray) : Nat :=
  (le64At block 0).toNat + (le64At block 8).toNat <<< 64 + 1 <<< 128

/-- The value of the polynomial whose coefficients are the blocks of `data`, by Horner's rule. -/
def evaluate (r : Nat) (data : ByteArray) : Nat :=
  (chunks 16 data).foldl (fun a c => (a + coefficient c) * r % prime) 0

/-- The tag of a string of whole blocks. -/
def tag (key : Bytes 32) (data : ByteArray) : Bytes 16 :=
  let s := (le64At key.data 16).toNat + (le64At key.data 24).toNat <<< 64
  let t := evaluate (multiplier key) data + s
  -- A carry past the sixteenth byte is dropped.
  ⟨pushLe64 (pushLe64 .empty t.toUInt64) (t >>> 64).toUInt64, by simp⟩

end SealedStream.Poly1305
