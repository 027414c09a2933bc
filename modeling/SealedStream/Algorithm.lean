import SealedStream.Aead.Aegis256
import SealedStream.Aead.AesGcm
import SealedStream.Aead.XChaCha20Poly1305
import SealedStream.Fault
import SealedStream.Text.Blank

/-!
# Algorithms

The three authenticated ciphers a block may be sealed with, their numbers and names, and encryption
and decryption with one of them.  A sealed text is the cipher text followed by its tag.

| name        | number | nonce | tag |
|-------------|--------|-------|-----|
| `AES-GCM`   | 1      | 12    | 16  |
| `X20-PLY`   | 2      | 24    | 16  |
| `AEGIS-256` | 3      | 32    | 32  |
-/

namespace SealedStream

/-- A key of any purpose. -/
abbrev Key := Bytes 32

/-- An authenticated cipher. -/
inductive Algorithm
  | aesGcm
  | xChaCha20Poly1305
  | aegis256
  deriving DecidableEq, Repr

namespace Algorithm

/-- All algorithms, in the order of their numbers. -/
def all : List Algorithm := [aesGcm, xChaCha20Poly1305, aegis256]

/-- The number of an algorithm on the wire. -/
def id : Algorithm → Nat
  | aesGcm => 1
  | xChaCha20Poly1305 => 2
  | aegis256 => 3

/-- The algorithm of a number. -/
def ofId? (n : Nat) : Option Algorithm :=
  all.find? (·.id = n)

/-- The short name of an algorithm. -/
def name : Algorithm → String
  | aesGcm => "AES-GCM"
  | xChaCha20Poly1305 => "X20-PLY"
  | aegis256 => "AEGIS-256"

/-- The full name of an algorithm. -/
def description : Algorithm → String
  | aesGcm => "AES 256 Galois Counter Mode"
  | xChaCha20Poly1305 => "XChaCha20 Poly1305"
  | aegis256 => "AEGIS 256"

/-- The length of a nonce. -/
def ivBytes : Algorithm → Nat
  | aesGcm => 12
  | xChaCha20Poly1305 => 24
  | aegis256 => 32

/-- The length of a tag. -/
def tagBytes : Algorithm → Nat
  | aesGcm => 16
  | xChaCha20Poly1305 => 16
  | aegis256 => 32

/-- The algorithm of a short name.  Blanks around the name and the case of ASCII letters do not
matter. -/
def ofName (s : String) : Except Fault Algorithm :=
  let lower (cs : List Char) := cs.map Char.toLower
  match all.find? fun a => lower a.name.toList = lower (Text.trimBlank s.toList) with
  | some a => .ok a
  | none => .error (.invalidArgument s!"unknown algorithm: {s}")

/-! ### Encryption and decryption -/

/-- The nonce in the first bytes of an `iv`; bytes after those do not matter. -/
def nonce (a : Algorithm) (iv : ByteArray) : Except Fault ByteArray :=
  if a.ivBytes ≤ iv.size then .ok (iv.extract 0 a.ivBytes)
  else .error (.invalidArgument s!"{a.name} needs a {a.ivBytes} byte iv, got {iv.size}")

/-- The sealed form of `clear`, which binds `aad` too. -/
def encrypt (a : Algorithm) (key : Key) (iv clear aad : ByteArray) : Except Fault ByteArray := do
  let nonce ← a.nonce iv
  match a with
  | aesGcm => .ok ((AesGcm.stream key nonce aad).encrypt clear)
  | xChaCha20Poly1305 => .ok ((XChaCha20Poly1305.stream key nonce aad).encrypt clear)
  | aegis256 => .ok (Aegis256.encrypt key nonce clear aad)

/-- The text of a string no shorter than a tag, if it is a sealed form. -/
def decrypt? (a : Algorithm) (key : Key) (nonce sealed aad : ByteArray) : Option ByteArray :=
  match a with
  | aesGcm => (AesGcm.stream key nonce aad).decrypt? sealed
  | xChaCha20Poly1305 => (XChaCha20Poly1305.stream key nonce aad).decrypt? sealed
  | aegis256 => Aegis256.decrypt? key nonce sealed aad

/-- The text of a sealed form.  The fault does not tell why a string is none. -/
def decrypt (a : Algorithm) (key : Key) (iv sealed aad : ByteArray) : Except Fault ByteArray := do
  let nonce ← a.nonce iv
  if sealed.size < a.tagBytes then .error .decryptionFailure
  else match a.decrypt? key nonce sealed aad with
    | some clear => .ok clear
    | none => .error .decryptionFailure

end Algorithm

end SealedStream
