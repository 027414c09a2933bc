import SealedStream.Hash.Hmac

/-!
# Key stretching

PBKDF2 over HMAC-SHA512: a password is hashed `iterations` times, and all the hashes are added up
bit by bit, so that each guess at the password costs as much.
-/

namespace SealedStream.Pbkdf2

/-- The loop of `block`: `u` is the last hash, `t` the exclusive or of all so far. -/
def iterate (k : HmacKey) : (n : Nat) → (u t : Words8x64) → Words8x64
  | 0, _, t => t
  | n + 1, u, t =>
    let u := k.again u
    iterate k n u (t.xor u)

/-- The first 64 bytes of key material; the keys here need no more. -/
def block (password salt : ByteArray) (iterations : Nat) : Bytes 64 :=
  let k := HmacKey.ofByteArray password
  let u := k.words (salt ++ ofList [0, 0, 0, 1])
  ⟨(iterate k (iterations - 1) u u).pushBE .empty, by simp⟩

/-- A key of 32 bytes. -/
def derive (password salt : ByteArray) (iterations : Nat) : Bytes 32 :=
  .takeFrom 32 (block password salt iterations).data 0 (by rw [Bytes.size_data]; decide)

end SealedStream.Pbkdf2
