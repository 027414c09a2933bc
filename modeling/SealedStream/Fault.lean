import SealedStream.Limits
import SealedStream.Stage

/-!
# Faults

What can go wrong, as causes with their particulars (`Fault`), and one wording for each
(`Fault.message`).  A fault of one pass reaches the pass around it as a failed read; `IoFault` is
what a read fails with, and a fault carried by one comes out as it went in
(`Fault.ofIoFault_toIoFault`).
-/

namespace SealedStream

/-! ### Failed reads -/

/-- The kind of a failure of the system: any name.  Nothing is made to depend on it. -/
structure IoKind where
  name : String
  deriving DecidableEq, Repr

namespace IoKind

def brokenPipe : IoKind := ⟨"BrokenPipe"⟩
def unexpectedEof : IoKind := ⟨"UnexpectedEof"⟩
def notFound : IoKind := ⟨"NotFound"⟩
/-- A failure that has no kind of its own. -/
def other : IoKind := ⟨"Other"⟩

end IoKind

/-! ### Causes -/

/-- Why an operation failed. -/
inductive Fault
  /-- An argument is outside its range. -/
  | invalidArgument (reason : String)
  /-- A field on the wire does not hold what it should. -/
  | malformedField (field reason : String)
  /-- A version that is not known, or not the one of the stream. -/
  | protocolVersion (version : Nat)
  /-- More or fewer bytes than there should be. -/
  | sizeMismatch (what : String) (expected actual : Nat)
  /-- A block does not have the tag it should have. -/
  | integrityFailure
  /-- A text does not open: a wrong key, or one that was altered. -/
  | decryptionFailure
  /-- An operation out of its order. -/
  | stageViolation (stage : Stage) (operation : String)
  /-- The stream ended without its last block. -/
  | missingTerminal
  /-- A block follows the last one. -/
  | extraTerminal
  /-- The person asked declined to answer. -/
  | cancelled
  /-- More blocks, passes or pieces than the bound that was set for a stream. -/
  | unbounded
  /-- The system failed. -/
  | io (kind : IoKind) (reason : String)
  deriving DecidableEq, Repr

/-- What a read fails with: a failure of the system, or a fault of the pass that was read. -/
inductive IoFault
  | system (kind : IoKind) (reason : String)
  | carrying (fault : Fault)
  deriving DecidableEq, Repr

namespace Fault

/-- The wording of a fault. -/
def message : Fault → String
  | invalidArgument reason => s!"invalid argument: {reason}"
  | malformedField field reason => s!"malformed {field}: {reason}"
  | protocolVersion version => s!"unsupported protocol version: {version}"
  | sizeMismatch what expected actual =>
    s!"{what} length mismatch: expected {expected} bytes, got {actual}"
  | integrityFailure => "invalid MAC"
  | decryptionFailure => "decryption failed"
  | stageViolation stage operation =>
    s!"invalid state: {operation} not allowed in state {stage.name}"
  | missingTerminal => "missing terminal data block"
  | extraTerminal => "terminal block already read"
  | cancelled => "process cancelled"
  | unbounded => "stream exceeds its bound"
  | io _ reason => s!"I/O error: {reason}"

/-! ### Across a reader -/

/-- A fault as the failure of a read. -/
def toIoFault : Fault → IoFault
  | io kind reason => .system kind reason
  | fault => .carrying fault

/-- The fault behind a failed read. -/
def ofIoFault : IoFault → Fault
  | .system kind reason => .io kind reason
  | .carrying fault => fault

/-- **Faults cross readers unchanged.** -/
@[simp] theorem ofIoFault_toIoFault (f : Fault) : ofIoFault f.toIoFault = f := by
  cases f <;> rfl

end Fault

namespace IoFault

/-- The wording of a failed read. -/
def message : IoFault → String
  | system _ reason => reason
  | carrying fault => fault.message

/-- The kind of a failed read; one that carries a fault has none of its own. -/
def kind : IoFault → IoKind
  | system kind _ => kind
  | carrying _ => .other

/-- A failure that has been wrapped in another, which keeps no more than its wording. -/
def wrapped (e : IoFault) : IoFault :=
  .system .other e.message

end IoFault

/-! ### Faults of single values -/

namespace Fault

/-- An iteration count outside its range. -/
def iterationsOutside (n : Nat) : Fault :=
  .invalidArgument
    s!"iteration count {n} outside [{Limits.iterationsMin}, {Limits.iterationsMax}]"

/-- An iteration count on the wire that is outside its range. -/
def iterationsField (n : Nat) : Fault :=
  .malformedField "ic" s!"iteration count {n} out of range"

/-- A nonce of the wrong length for an algorithm. -/
def ivField (algorithm : String) (needed got : Nat) : Fault :=
  .malformedField "iv" s!"{algorithm} needs {needed} bytes, got {got}"

/-- A sealed hint that is too long for its field. -/
def hintField (size : Nat) : Fault :=
  .malformedField "hint" s!"{size} bytes exceeds {Limits.sealedHintMax}"

/-- An empty password. -/
def emptyPassword : Fault :=
  .invalidArgument "password must not be empty"

/-- A hint of too many characters. -/
def longHint : Fault :=
  .invalidArgument s!"hint longer than {Limits.hintMaxChars} characters"

/-- A payload that ends with its associated data. -/
def noText : Fault :=
  .malformedField "edata" "no encrypted data"

end Fault

/-! ### Checks -/

namespace Stage

/-- The step from one stage to the next, if it is allowed. -/
def transition (stage next : Stage) : Except Fault Stage :=
  if stage.allows next then .ok next else .error (.stageViolation stage next.entering)

/-- Fails unless `stage` is one of `expected`. -/
def require (stage : Stage) (expected : List Stage) (operation : String) : Except Fault Unit :=
  if stage ∈ expected then .ok () else .error (.stageViolation stage operation)

end Stage

/-- Fails unless an iteration count is within its range. -/
def checkIterations (n : Nat) : Except Fault Unit :=
  if Limits.iterationsMin ≤ n ∧ n ≤ Limits.iterationsMax then .ok ()
  else .error (.iterationsOutside n)

end SealedStream
