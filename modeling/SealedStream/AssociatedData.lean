import SealedStream.Field.Reader
import SealedStream.Field.Writer

/-!
# Associated data

What a block says about itself in the clear, and its tag covers.  The head of a pass carries all
fields, a further block only the first two:

```text
head:           algorithm(2) nonce(n) salt(16) iterations(4) loop(1) length(1) hint(length)
further block:  algorithm(2) nonce(n)
```
-/

namespace SealedStream

/-- The associated data of a block.  The hint is the sealed one, empty when there is none. -/
structure AssociatedData where
  algorithm : Algorithm
  iv : ByteArray
  salt : Option (Bytes 16) := none
  iterations : Option Nat := none
  loop : Option LoopIndex := none
  hint : Option ByteArray := none
  deriving DecidableEq

namespace AssociatedData

/-! ### Encoding -/

/-- Salt and iteration count come together, and the count is within its range. -/
def validateStretching : (salt : Option (Bytes 16)) → (iterations : Option Nat) →
    Except Fault Unit
  | some _, none => .error (.invalidArgument "salt present without iteration count")
  | none, some _ => .error (.invalidArgument "iteration count present without salt")
  | some _, some n => checkIterations n
  | none, none => .ok ()

/-- Fails unless every field that is there is within its range. -/
def validate (a : AssociatedData) : Except Fault Unit := do
  if a.iv.size ≠ a.algorithm.ivBytes then
    throw (.ivField a.algorithm.name a.algorithm.ivBytes a.iv.size)
  validateStretching a.salt a.iterations
  if let some l := a.loop then
    discard l.check
  if let some h := a.hint then
    if Limits.sealedHintMax < h.size then throw (.hintField h.size)

/-- The length of the encoding. -/
def encodedSize (a : AssociatedData) : Nat :=
  Limits.algorithmBytes + a.iv.size + (a.salt.elim 0 fun _ => Limits.saltBytes)
    + (a.iterations.elim 0 fun _ => Limits.iterationsBytes)
    + (a.loop.elim 0 fun _ => Limits.loopBytes)
    + (a.hint.elim 0 fun h => Limits.hintLengthBytes + h.size)

/-- Writes the fields that are there. -/
def write (a : AssociatedData) : Writing Unit := do
  FieldWriter.algorithm a.algorithm
  FieldWriter.iv a.algorithm a.iv
  if let (some salt, some n) := (a.salt, a.iterations) then
    FieldWriter.salt salt.data
    FieldWriter.iterations n
  if let some l := a.loop then
    FieldWriter.loopIndex l
  if let some h := a.hint then
    FieldWriter.hint h

/-- The encoding of valid associated data. -/
def encode (a : AssociatedData) : Except Fault ByteArray := do
  a.validate
  let (result, w) := a.write.run (.ofSize a.encodedSize)
  result
  return w.written

/-! ### Decoding -/

/-- Reads the associated data of a head. -/
def readHead : Reading AssociatedData := do
  let algorithm ← FieldReader.readAlgorithm
  let iv ← FieldReader.iv
  let salt ← FieldReader.salt
  let iterations ← FieldReader.iterations
  let loop ← FieldReader.loopIndex
  let hint ← FieldReader.hint
  return ⟨algorithm, iv, salt, iterations, loop, hint⟩

/-- Reads the associated data of a further block. -/
def readFurther : Reading AssociatedData := do
  let algorithm ← FieldReader.readAlgorithm
  let iv ← FieldReader.iv
  return { algorithm, iv }

/-- What `reading` finds at the start of a payload, and where it ends. -/
def decodeWith (reading : Reading AssociatedData) (payload : ByteArray) :
    Except Fault (AssociatedData × Nat) :=
  match reading.run { bytes := payload } with
  | (.ok a, r) => .ok (a, r.offset)
  | (.error fault, _) => .error fault

/-- The associated data of a head, and where the cipher text starts. -/
def decodeHead (payload : ByteArray) : Except Fault (AssociatedData × Nat) :=
  decodeWith readHead payload

/-- The associated data of a further block, and where the cipher text starts. -/
def decodeFurther (payload : ByteArray) : Except Fault (AssociatedData × Nat) :=
  decodeWith readFurther payload

end AssociatedData

end SealedStream
