import SealedStream.Proofs.LogRules

/-!
# The ledger of a run

A ledger is the log of all steps that sessions take, in the order in which they end, whatever pass
they are of: with the level of the pass, the random bytes that the step drew, the passes that it
asked about, and the block that it made if it did not fail (`Attempt`).

* `World.encryptReads_eq`, `World.encryptLedgered_eq`: encryption does what it does without a
  ledger, read by read and as a whole.
* `World.exists_encryptReads_eq`, `World.exists_drains_of_encrypt`: encrypting all of an input is
  reading so often that its end is found.
-/

namespace SealedStream

/-- A step of the session at a level, counted from the input: the random bytes that it drew, what it
asked, and the block that it made if it did not fail. -/
structure Attempt where
  level : Nat
  random : ByteArray
  asked : List PassInfo
  block : Option ByteArray
  deriving DecidableEq

/-- What a step that these events belong to has to be remembered for. -/
def Attempt.ofEvents (level : Nat) (events : List Event) (block : Option ByteArray) : Attempt :=
  ⟨level, drawnBytes events, (questions events).map Prod.fst, block⟩

/-- Every turn is an attempt. -/
def Attempt.ofTurn (level : Nat) (events : List Event) (turn : Turn) : Option Attempt :=
  some (.ofEvents level events turn.block?)

/-- Puts down every turn. -/
abbrev Logger.ledger : Logger Attempt :=
  .ofTurns Attempt.ofTurn

namespace Logged

variable {σ : Type} (s : Logged Attempt σ) (level : Nat) (events : List Event)

theorem put_gave (bytes : ByteArray) : s.put (Attempt.ofTurn level events (.gave bytes))
    = s.add (.ofEvents level events (some bytes)) := rfl

theorem put_failed (fault : Fault) : s.put (Attempt.ofTurn level events (.failed fault))
    = s.add (.ofEvents level events none) := rfl

end Logged

/-! ### Encryption -/

namespace World

/-- Encrypts the input with a plan, as far as some reads of the sizes given go. -/
def encryptReads (plan : Plan) (credential : Credential) (sizes : List Nat) (w : World) :
    List (Except IoFault ByteArray) × World :=
  let bound := plan.outputBound w.inputBound
  let ((results, _), w) := w.run
    ((plan.pipeline credential).readEach EncryptedPass.engine bound sizes)
  (results, w)

/-- The same, and the ledger of it. -/
def encryptReadsLedgered (plan : Plan) (credential : Credential) (sizes : List Nat) (w : World) :
    (List (Except IoFault ByteArray) × List Attempt) × World :=
  let bound := plan.outputBound w.inputBound
  let ((results, s), w) := w.run
    (Pipeline.readEachLogged .ledger EncryptedPass.engine bound sizes
      ⟨plan.pipeline credential, []⟩)
  ((results, s.log), w)

/-- Encrypts the input with a plan, and gives the ledger besides. -/
def encryptLedgered (plan : Plan) (credential : Credential) (w : World) :
    (Except Fault ByteArray × List Attempt) × World :=
  let bound := plan.outputBound w.inputBound
  let ((result, s), w) := w.run
    (Pipeline.drainLogged .ledger EncryptedPass.engine bound bound .empty
      ⟨plan.pipeline credential, []⟩)
  ((result, s.log), w)

end World

/-! ### A ledger changes nothing -/

namespace World

/-- **A ledger changes nothing** about encryption, read by read. -/
theorem encryptReads_eq (plan : Plan) (credential : Credential) (sizes : List Nat) (w : World) :
    w.encryptReads plan credential sizes
      = ((w.encryptReadsLedgered plan credential sizes).1.1,
        (w.encryptReadsLedgered plan credential sizes).2) := by
  have h := Pipeline.map_readEachLogged (L := .ledger) (E := EncryptedPass.engine)
    (plan.outputBound w.inputBound) sizes ⟨plan.pipeline credential, []⟩
  rw [encryptReads, ← h, run_map]
  rfl

/-- **A ledger changes nothing** about encryption. -/
theorem encryptLedgered_eq (plan : Plan) (credential : Credential) (w : World) :
    w.encrypt plan credential
      = ((w.encryptLedgered plan credential).1.1, (w.encryptLedgered plan credential).2) := by
  have h := Pipeline.fst_map_drainLogged (L := .ledger) (E := EncryptedPass.engine)
    (plan.outputBound w.inputBound) (plan.outputBound w.inputBound) .empty
    ⟨plan.pipeline credential, []⟩
  rw [encrypt, Pipeline.readAll, ← h, run_map]
  rfl

end World

/-- **Encrypting all of an input** is reading so often that its end is found. -/
theorem World.exists_encryptReads_eq (plan : Plan) (credential : Credential) (w : World) :
    ∃ count results,
      w.encryptReadsLedgered plan credential (List.replicate count Pipeline.pieceSize)
        = ((results, (w.encryptLedgered plan credential).1.2),
          (w.encryptLedgered plan credential).2) := by
  let bound := plan.outputBound w.inputBound
  rcases Pipeline.exists_readEach_of_drain (L := .ledger) (E := EncryptedPass.engine) bound .empty
    ⟨plan.pipeline credential, []⟩ w with ⟨count, results, hrun⟩
  refine ⟨count, results, ?_⟩
  rw [encryptReadsLedgered, hrun]
  rfl

/-- **An encryption that succeeds** reads all its bytes in pieces. -/
theorem World.exists_drains_of_encrypt {plan : Plan} {credential : Credential} {w w' : World}
    {cipher : ByteArray} (h : w.encrypt plan credential = (.ok cipher, w')) :
    ∃ s, w.encryptLedgered plan credential = ((.ok cipher, s.log), w') ∧
      Pipeline.Drains .ledger EncryptedPass.engine (plan.outputBound w.inputBound)
        ⟨plan.pipeline credential, []⟩ w cipher s w' := by
  let bound := plan.outputBound w.inputBound
  rcases hrun : w.run (Pipeline.drainLogged .ledger EncryptedPass.engine bound bound .empty
    ⟨plan.pipeline credential, []⟩) with ⟨⟨result, s⟩, w''⟩
  have hledgered : w.encryptLedgered plan credential = ((result, s.log), w'') := by
    rw [encryptLedgered, hrun]
  have hsame := encryptLedgered_eq plan credential w
  rw [hledgered, h] at hsame
  cases hsame
  rcases Pipeline.drains_of_drainLogged hrun with ⟨rest, hrest, hdrains⟩
  rw [ByteArray.empty_append] at hrest
  subst hrest
  exact ⟨s, hledgered, hdrains⟩

end SealedStream
