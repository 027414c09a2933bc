import SealedStream.Pipeline

/-!
# Whole streams

Encryption with a plan, and decryption of all the passes that a stream turns out to have: the head
of a pass says which of how many it is, and while it is not the first, its clear text is another
pass.  The passwords of all but the innermost pass are therefore asked for while a stream is being
opened.
-/

namespace SealedStream

/-! ### Encryption -/

/-- The encryptor of a pass with its settings. -/
structure EncryptedPass where
  encryptor : Encryptor
  settings : PassSettings

namespace EncryptedPass

/-- The next block of a pass. -/
def next : Step EncryptedPass ByteArray := do
  let settings := (← get).settings
  let block ← Step.onPart encryptor (fun p encryptor => { p with encryptor })
    (Encryptor.encryptBlock settings)
  return block.toByteArray

/-- A pass gives blocks until the last. -/
def engine : Engine EncryptedPass :=
  ⟨fun p => p.encryptor.stage = .finished, next⟩

end EncryptedPass

namespace Plan

/-- The passes of a plan, before anything has been read. -/
def pipeline (p : Plan) (credential : Credential) : Pipeline EncryptedPass :=
  p.passes.foldl (fun l settings => l.push ⟨.start credential p.readStart, settings⟩) .empty

/-- More bytes than encrypting `n` bytes can give: a block has at most 381 bytes besides its clear
text, and each but the only block of an empty pass has clear text. -/
def outputBound (p : Plan) (n : Nat) : Nat :=
  p.algorithms.foldl (fun n _ => 400 * (n + 1)) n

end Plan

/-! ### Decryption -/

/-- A pass is decrypted block by block. -/
def Decryptor.engine : Engine Decryptor :=
  ⟨fun d => d.stage = .finished, Decryptor.decryptBlock⟩

/-- A session and the metadata of its pass. -/
def Decryptor.openPass (credential : Credential) :
    Program Host (Except Fault (PassInfo × Decryptor)) := do
  match ← Decryptor.start credential with
  | .error fault => return .error fault
  | .ok d =>
    let (result, d) ← Decryptor.info d
    return result.map (·, d)

/-- Opens the passes of a stream from the outermost to the innermost, at most `n` more of them. -/
def openPasses (bound : Nat) (credential : Credential) :
    (n : Nat) → Pipeline Decryptor → Program Host (Except Fault (Pipeline Decryptor))
  | 0, _ => .done (.error .unbounded)
  | n + 1, p => do
    let (result, p) ← p.feed Decryptor.engine bound (Decryptor.openPass credential)
    match result with
    | .error fault => return .error fault
    | .ok (info, d) =>
      if 1 < info.loop.index then openPasses bound credential n (p.push d)
      else return .ok (p.push d)

/-- All passes of a stream. -/
def openStream (bound : Nat) (credential : Credential) :
    Program Host (Except Fault (Pipeline Decryptor)) :=
  openPasses bound credential bound .empty

/-- The metadata of the outermost pass.  It needs no password. -/
def streamInfo (credential : Credential) : Program Host (Except Fault PassInfo) := do
  return (← Decryptor.openPass credential).map (·.1)

end SealedStream
