import SealedStream.Bytes

/-!
# Key streams with a tag

Two of the three ciphers add a key stream to the text and append a tag of the result.  Both the key
stream and the tag are functions here (`TaggedStream`), fixed by the key, the nonce and the
additional data, so what encryption and decryption have to do with each other is settled once for
both.
-/

namespace SealedStream

/-- A key stream for each length of text, at least that long, and a tag for each cipher text. -/
structure TaggedStream where
  /-- The key stream for a text of the given length. -/
  keystream : Nat → ByteArray
  /-- The tag of a cipher text. -/
  tag : ByteArray → Bytes 16

namespace TaggedStream

/-- The text with the key stream added, then the tag of the sum. -/
def encrypt (a : TaggedStream) (clear : ByteArray) : ByteArray :=
  let text := xorBytes clear (a.keystream clear.size)
  text ++ (a.tag text).data

/-- The text of a sealed string whose last sixteen bytes are its tag. -/
def decrypt? (a : TaggedStream) (sealed : ByteArray) : Option ByteArray :=
  let n := sealed.size - 16
  let text := sealed.extract 0 n
  if (a.tag text).data = sealed.extract n sealed.size then some (xorBytes text (a.keystream n))
  else none

end TaggedStream

end SealedStream
