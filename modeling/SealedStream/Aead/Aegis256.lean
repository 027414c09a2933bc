import SealedStream.Aead.Aes

/-!
# AEGIS-256

The authenticated cipher of six AES states that are stirred together, with nonces and tags of 32
bytes.  The text itself is stirred in, so that decrypting a block has to go on with the text it
found (`decryptStep`), not with the bytes it was given.
-/

namespace SealedStream.Aegis256

/-! ### The state -/

/-- Six blocks. -/
structure State where
  (s0 s1 s2 s3 s4 s5 : Block128)
  deriving DecidableEq

/-- Stirs one block in: each block goes through a round of AES into the next. -/
def update (s : State) (x : Block128) : State :=
  ⟨Aes.round s.s5 (s.s0 ^^^ x), Aes.round s.s0 s.s1, Aes.round s.s1 s.s2, Aes.round s.s2 s.s3,
    Aes.round s.s3 s.s4, Aes.round s.s4 s.s5⟩

/-- The first constant: the Fibonacci numbers modulo 256. -/
def constant0 : Block128 := ⟨0x000101020305080d, 0x1522375990e97962⟩

@[inherit_doc constant0] def constant1 : Block128 := ⟨0xdb3d18556dc22ff1, 0x2011314273b528dd⟩

/-- The state of a key and a nonce of 32 bytes. -/
def start (key : Bytes 32) (nonce : ByteArray) : State :=
  let k0 := Block128.ofByteArray key.data
  let k1 := Block128.ofByteArray (key.data.extract 16 32)
  let n0 := Block128.ofByteArray nonce
  let n1 := Block128.ofByteArray (nonce.extract 16 32)
  let x0 := k0 ^^^ n0
  let x1 := k1 ^^^ n1
  let s : State := ⟨x0, x1, constant1, constant0, k0 ^^^ constant0, k1 ^^^ constant1⟩
  [k0, k1, x0, x1, k0, k1, x0, x1, k0, k1, x0, x1, k0, k1, x0, x1].foldl update s

/-- The state after the additional data. -/
def absorb (s : State) (aad : ByteArray) : State :=
  (chunks 16 aad).foldl (fun s c => update s (.ofByteArray c)) s

/-! ### Text -/

/-- The key stream of the next block. -/
def keystream (s : State) : ByteArray :=
  (s.s1 ^^^ s.s4 ^^^ s.s5 ^^^ (s.s2 &&& s.s3)).toBytes.data

/-- A state, and the output so far. -/
structure Progress where
  state : State
  out : ByteArray

/-- Encrypts one piece of the text, of at most sixteen bytes. -/
def encryptStep (p : Progress) (clear : ByteArray) : Progress :=
  ⟨update p.state (.ofByteArray clear), p.out ++ xorBytes clear (keystream p.state)⟩

/-- Decrypts one piece of the cipher text, of at most sixteen bytes. -/
def decryptStep (p : Progress) (text : ByteArray) : Progress :=
  let clear := xorBytes text (keystream p.state)
  ⟨update p.state (.ofByteArray clear), p.out ++ clear⟩

/-- The tag, from the state after the text and the lengths of both texts. -/
def tag (s : State) (aadSize textSize : Nat) : Bytes 32 :=
  let lengths := (pushLe64 (pushLe64 .empty (8 * aadSize).toUInt64) (8 * textSize).toUInt64)
  let t := s.s3 ^^^ .ofByteArray lengths
  let s := [t, t, t, t, t, t, t].foldl update s
  ⟨(s.s3 ^^^ s.s4 ^^^ s.s5).push ((s.s0 ^^^ s.s1 ^^^ s.s2).push .empty), by simp⟩

/-- The cipher text and the tag of `clear`. -/
def encrypt (key : Bytes 32) (nonce clear aad : ByteArray) : ByteArray :=
  let p := (chunks 16 clear).foldl encryptStep ⟨absorb (start key nonce) aad, .empty⟩
  p.out ++ (tag p.state aad.size clear.size).data

/-- The text of a sealed string whose last 32 bytes are its tag. -/
def decrypt? (key : Bytes 32) (nonce sealed aad : ByteArray) : Option ByteArray :=
  let n := sealed.size - 32
  let p := (chunks 16 (sealed.extract 0 n)).foldl decryptStep ⟨absorb (start key nonce) aad, .empty⟩
  if (tag p.state aad.size n).data = sealed.extract n sealed.size then some p.out else none

end SealedStream.Aegis256
