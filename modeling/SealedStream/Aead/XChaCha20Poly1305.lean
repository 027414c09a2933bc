import SealedStream.Aead.ChaCha20
import SealedStream.Aead.Poly1305
import SealedStream.Aead.Tagged

/-!
# XChaCha20-Poly1305

ChaCha20 under the key that the first sixteen bytes of the nonce lead to; the last eight are the
nonce of the stream.  The first block of the stream is the key of the tag, the text starts with the
second.
-/

namespace SealedStream.XChaCha20Poly1305

/-- A key stream of whole blocks for `n` bytes. -/
def keystream (key : Bytes 32) (nonce : ByteArray) (n : Nat) : ByteArray :=
  (List.range ((n + 63) / 64)).foldl (fun out i => ChaCha20.pushBlock key nonce out (i + 1))
    (.emptyWithCapacity (n + 64))

/-- The key of the tag. -/
def tagKey (key : Bytes 32) (nonce : ByteArray) : Bytes 32 :=
  .takeFrom 32 (ChaCha20.pushBlock key nonce .empty 0) 0 (by simp [ChaCha20.pushBlock])

/-- What the tag is a hash of: the additional data and the cipher text, each in whole blocks, and
their lengths in bytes. -/
def authenticated (aad text : ByteArray) : ByteArray :=
  pushLe64 (pushLe64 (padTo 16 aad ++ padTo 16 text) aad.size.toUInt64) text.size.toUInt64

/-- The cipher under a key and a nonce of 24 bytes. -/
def stream (key : Bytes 32) (nonce aad : ByteArray) : TaggedStream :=
  let sub := ChaCha20.subkey key nonce
  let short := zeros 4 ++ nonce.extract 16 24
  ⟨keystream sub short, fun text => Poly1305.tag (tagKey sub short) (authenticated aad text)⟩

end SealedStream.XChaCha20Poly1305
