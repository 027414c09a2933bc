import SealedStream.KeyCache
import SealedStream.Stream

/-!
# A world of values

A host whose input, random bytes and answers are given in advance, and which keeps track of what a
session did: how many random bytes it drew, and which passes it asked about.

* `World.run`: the result of a program, and the world after it.
-/

namespace SealedStream

/-- What one read finds. -/
inductive InputItem
  /-- Bytes, delivered by one read, or by several that ask for fewer.  No bytes are the end. -/
  | data (bytes : ByteArray)
  /-- A failure. -/
  | failure (e : IoFault)
  deriving DecidableEq

/-- What one read of at most `size` bytes finds, and what is left. -/
def readItems (size : Nat) : List InputItem → Except IoFault ByteArray × List InputItem
  | [] => (.ok .empty, [])
  | .failure e :: items => (.error e, items)
  | .data bytes :: items =>
    if bytes.size ≤ size then (.ok bytes, items)
    else (.ok (bytes.extract 0 size), .data (bytes.extract size bytes.size) :: items)

/-- The number of bytes in some items. -/
def itemsSize : List InputItem → Nat
  | [] => 0
  | .data bytes :: items => bytes.size + itemsSize items
  | .failure _ :: items => itemsSize items

/-- A world. -/
structure World where
  /-- The input that has not been read. -/
  input : List InputItem
  /-- The random bytes. -/
  tape : Nat → UInt8 := fun _ => 0
  /-- How many of them have been drawn. -/
  drawn : Nat := 0
  /-- The answer to the last of all the questions so far. -/
  provider : List PassInfo → Except Fault Answer := fun _ => .error .cancelled
  /-- All questions so far, the first in front. -/
  asked : List PassInfo := []
  /-- The keys that have been stretched. -/
  keys : KeyCache := {}

namespace World

/-- `n` bytes of the tape from `start` on. -/
def tapeBytes (tape : Nat → UInt8) (start n : Nat) : Bytes n :=
  ⟨⟨Array.ofFn fun i : Fin n => tape (start + i)⟩, by simp [ByteArray.size]⟩

/-- The reply to a request. -/
def answer (r : HostRequest) (w : World) : r.Reply × World :=
  match r with
  | .read size =>
    let (reply, input) := readItems size w.input
    (reply, { w with input })
  | .draw size => (tapeBytes w.tape w.drawn size, { w with drawn := w.drawn + size })
  | .password info =>
    let asked := w.asked ++ [info]
    (w.provider asked, { w with asked })
  | .derive d =>
    let (key, keys) := w.keys.derive d
    (key, { w with keys })

/-- The result of a program, and the world after it. -/
def run {α : Type} (p : Program Host α) (w : World) : α × World :=
  p.run (I := Host) answer w

/-- A bound for everything that decrypting the input does. -/
def inputBound (w : World) : Nat :=
  itemsSize w.input + 2

/-! ### Whole streams -/

/-- Encrypts the input with a plan. -/
def encrypt (plan : Plan) (credential : Credential) (w : World) : Except Fault ByteArray × World :=
  let bound := plan.outputBound w.inputBound
  w.run ((plan.pipeline credential).readAll EncryptedPass.engine bound)

/-- Decrypts the input, all its passes. -/
def decrypt (credential : Credential) (w : World) : Except Fault ByteArray × World :=
  w.run do
    match ← openStream w.inputBound credential with
    | .error fault => return .error fault
    | .ok p => p.readAll Decryptor.engine w.inputBound

end World

end SealedStream
