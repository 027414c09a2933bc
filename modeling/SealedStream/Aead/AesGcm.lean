import SealedStream.Aead.Aes
import SealedStream.Aead.Ghash
import SealedStream.Aead.Tagged

/-!
# AES-256-GCM

The Galois/Counter Mode with nonces of 96 bits: the key stream is the cipher of a counter that
starts at two, and the tag is the hash of both texts and their lengths, covered by the cipher of the
counter one.
-/

namespace SealedStream.AesGcm

/-- The counter block of a nonce; counters wrap around after 32 bits. -/
def counterBlock (nonce : ByteArray) (counter : Nat) : Block128 :=
  .ofByteArray (pushBe32 nonce counter.toUInt32)

/-- A key stream of whole blocks for `n` bytes. -/
def keystream (s : Aes.Schedule) (nonce : ByteArray) (n : Nat) : ByteArray :=
  (List.range ((n + 15) / 16)).foldl
    (fun out i => Block128.push out (Aes.encrypt s (counterBlock nonce (i + 2))))
    (.emptyWithCapacity (n + 16))

/-- What the tag is a hash of: the additional data and the cipher text, each in whole blocks, and
their lengths in bits. -/
def authenticated (aad text : ByteArray) : ByteArray :=
  pushBe64 (pushBe64 (padTo 16 aad ++ padTo 16 text) (8 * aad.size).toUInt64)
    (8 * text.size).toUInt64

/-- The tag of a cipher text. -/
def tag (s : Aes.Schedule) (nonce aad text : ByteArray) : Bytes 16 :=
  let key := Aes.encrypt s .zero
  (Ghash.hash key (authenticated aad text) ^^^ Aes.encrypt s (counterBlock nonce 1)).toBytes

/-- The cipher under a key and a nonce of twelve bytes. -/
def stream (key : Bytes 32) (nonce aad : ByteArray) : TaggedStream :=
  let s := Aes.schedule key
  ⟨keystream s nonce, tag s nonce aad⟩

end SealedStream.AesGcm
