import SealedStream.Hash.Hmac

/-!
# Key expansion

HKDF over HMAC-SHA512: `extract` distils a pseudorandom key from a secret and a salt, and `derive`
expands it for the purpose that `info` names.
-/

namespace SealedStream.Hkdf

/-- The pseudorandom key of a secret. -/
def extract (salt secret : ByteArray) : HmacKey :=
  .ofByteArray ((HmacKey.ofByteArray salt).mac secret).data

/-- A key of 32 bytes; one block of the expansion is enough for it. -/
def derive (salt secret info : ByteArray) : Bytes 32 :=
  .takeFrom 32 ((extract salt secret).mac (info.push 1)).data 0 (by rw [Bytes.size_data]; decide)

end SealedStream.Hkdf
