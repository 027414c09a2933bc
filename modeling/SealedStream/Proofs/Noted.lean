import SealedStream.Proofs.Log

/-!
# Notes of what went wrong

When a pass fails, the passes around it fail as well, and the outcome alone does not tell which was
the first.  Notes are a log of what goes wrong: each read of the input that fails, each question
that is declined and each session that fails is put down when that happens, with the level of the
pass, counted from the input, and with the fault as it was raised there, before it crosses to the
next pass.

* `encryptNoted_eq`, `decryptNoted_eq`: encryption and decryption do what they do without notes.
-/

namespace SealedStream

/-- Something that went wrong. -/
inductive Mishap
  /-- A read of the input failed. -/
  | source (e : IoFault)
  /-- The question that the pass at a level asked was declined. -/
  | answer (level : Nat) (fault : Fault)
  /-- The session of the pass at a level failed. -/
  | session (level : Nat) (fault : Fault)
  deriving DecidableEq

/-- The fault that was raised.  A failure of the system has its kind and its wording. -/
def Mishap.fault : Mishap → Fault
  | source (.system kind reason) => .io kind reason
  | source (.carrying fault) => fault
  | answer _ fault => fault
  | session _ fault => fault

/-- Puts down what goes wrong. -/
def Logger.notes : Logger Mishap where
  reply
    | _, .read _, .error e => some (.source e)
    | level, .password _, .error fault => some (.answer level fault)
    | _, _, _ => none
  turn level _ turn := turn.failure?.map (.session level)

/-! ### Whole streams -/

/-- What a run ends with: its result, the passes as they are then, if there are any by then, and
what went wrong, the first in front. -/
structure NotedRun (ε : Type) where
  result : Except Fault ByteArray
  reader : Option (Pipeline ε)
  mishaps : List Mishap

/-- Everything that some passes give. -/
def Pipeline.readAllNoted {ε : Type} (E : Engine ε) (bound : Nat) (s : Logged Mishap (Pipeline ε)) :
    Program Host (NotedRun ε) := do
  let (result, s) ← drainLogged .notes E bound bound .empty s
  return ⟨result, s.state, s.log⟩

namespace World

/-- Encrypts the input with a plan, and notes what goes wrong. -/
def encryptNoted (plan : Plan) (credential : Credential) (w : World) :
    NotedRun EncryptedPass × World :=
  let bound := plan.outputBound w.inputBound
  w.run (Pipeline.readAllNoted EncryptedPass.engine bound ⟨plan.pipeline credential, []⟩)

/-- Decrypts the input, all its passes, and notes what goes wrong. -/
def decryptNoted (credential : Credential) (w : World) : NotedRun Decryptor × World :=
  w.run do
    match ← openLogged .notes w.inputBound credential w.inputBound ⟨.empty, []⟩ with
    | (.error fault, mishaps) => return ⟨.error fault, none, mishaps⟩
    | (.ok p, mishaps) => Pipeline.readAllNoted Decryptor.engine w.inputBound ⟨p, mishaps⟩

end World

/-! ### Notes change nothing -/

theorem Pipeline.result_map_readAllNoted {ε : Type} {E : Engine ε} (bound : Nat)
    (s : Logged Mishap (Pipeline ε)) :
    NotedRun.result <$> readAllNoted E bound s = s.state.readAll E bound := by
  rw [readAll, ← fst_map_drainLogged (L := .notes), readAllNoted, map_bind, map_eq_pure_bind]
  rfl

namespace World

/-- **Notes change nothing** about encryption. -/
theorem encryptNoted_eq (plan : Plan) (credential : Credential) (w : World) :
    w.encrypt plan credential
      = ((w.encryptNoted plan credential).1.result, (w.encryptNoted plan credential).2) := by
  have h := Pipeline.result_map_readAllNoted (E := EncryptedPass.engine)
    (plan.outputBound w.inputBound) ⟨plan.pipeline credential, []⟩
  rw [encrypt, ← h, run_map]
  rfl

/-- **Notes change nothing** about decryption. -/
theorem decryptNoted_eq (credential : Credential) (w : World) :
    w.decrypt credential
      = ((w.decryptNoted credential).1.result, (w.decryptNoted credential).2) := by
  have hopen := fst_map_openLogged (L := .notes) w.inputBound credential w.inputBound ⟨.empty, []⟩
  rw [decryptNoted, ← run_map, decrypt, openStream, ← hopen, bind_map_left, map_bind]
  refine congrArg (fun f => w.run (_ >>= f)) (funext fun x => ?_)
  rcases x with ⟨fault | p, mishaps⟩
  · rfl
  · exact (Pipeline.result_map_readAllNoted w.inputBound ⟨p, mishaps⟩).symm

end World

end SealedStream
