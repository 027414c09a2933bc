import SealedStream.Algorithm
import SealedStream.Hash.Blake2b
import SealedStream.Hash.Hmac

/-!
# Block tags

Each block is signed under the signing key of its pass before anything in it is believed.  Framed
blocks are signed with keyed BLAKE2b; in the present generation the tag covers that of the block
before, which chains the blocks of a pass.  The first generation signs its one message with
HMAC-SHA256.
-/

namespace SealedStream

/-- The tag of a block: `signed` is the part of the header after the tag, and `previous` the tag of
the block before where there is a chain. -/
def blockTag (key : Key) (signed associated text previous : ByteArray) : Bytes 32 :=
  Blake2b.keyedHash key (signed ++ associated ++ text ++ previous)

/-- The tag of a message. -/
def messageTag (key : Key) (associated text : ByteArray) : Bytes 32 :=
  hmacSha256 key.data (associated ++ text)

/-- Fails unless a tag is the one computed. -/
def verifyTag (expected computed : Bytes 32) : Except Fault Unit :=
  if expected = computed then .ok () else .error .integrityFailure

end SealedStream
