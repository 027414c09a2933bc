import SealedStream.Algorithm
import SealedStream.Kdf.Hkdf
import SealedStream.Kdf.Pbkdf2

/-!
# Credentials and keys

Each pass has three keys of its own, which its salt keeps apart from those of other passes:

```text
password and credential ── stretched with the salt ──▶ cipher key
credential ── expanded with the salt for "cipherdata signing key" ──▶ signing key
credential ── expanded with the salt for "hint encryption key" ──▶ hint key
```

The purposes are part of the format.  Stretching takes long, so what is to be stretched
(`Derivation`) is a value that can be handed on and remembered.
-/

namespace SealedStream

/-! ### Credentials -/

/-- The secret of a user at one site, which every key depends on. -/
structure Credential where
  secret : Bytes 32
  deriving DecidableEq

/-- How a secret value is shown. -/
def redacted (kind : String) : String :=
  kind ++ " \x7b bytes: \"[REDACTED]\" \x7d"

namespace Credential

/-- The credential of the right number of bytes. -/
def ofByteArray (b : ByteArray) : Except Fault Credential :=
  match Bytes.ofByteArray? 32 b with
  | some secret => .ok ⟨secret⟩
  | none => .error (.invalidArgument
      s!"userCred must be {Limits.credentialBytes} bytes, got {b.size}")

/-! ### Expanded keys -/

/-- The key of block tags. -/
def signingKey (c : Credential) (salt : Bytes 16) : Key :=
  Hkdf.derive salt.data c.secret.data "cipherdata signing key".toUTF8

/-- The key of hints. -/
def hintKey (c : Credential) (salt : Bytes 16) : Key :=
  Hkdf.derive salt.data c.secret.data "hint encryption key".toUTF8

end Credential

/-- A salt of the right number of bytes. -/
def checkSalt (b : ByteArray) : Except Fault (Bytes 16) :=
  match Bytes.ofByteArray? 16 b with
  | some salt => .ok salt
  | none => .error (.invalidArgument s!"salt must be {Limits.saltBytes} bytes, got {b.size}")

/-! ### The stretched key -/

/-- A secret, and how it is to be stretched. -/
structure Derivation where
  secret : ByteArray
  salt : Bytes 16
  iterations : Nat
  deriving DecidableEq, Hashable

namespace Derivation

/-- The key of a derivation. -/
def key (d : Derivation) : Key :=
  Pbkdf2.derive d.secret d.salt.data d.iterations

/-- The derivation of a cipher key.  The iteration count is checked first, then the salt, then the
password. -/
def ofPassword (iterations : Nat) (password : String) (c : Credential) (salt : ByteArray) :
    Except Fault Derivation := do
  checkIterations iterations
  let salt ← checkSalt salt
  if password.isEmpty then throw .emptyPassword
  return ⟨password.toUTF8 ++ c.secret.data, salt, iterations⟩

end Derivation

end SealedStream
