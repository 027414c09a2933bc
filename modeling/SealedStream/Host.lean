import SealedStream.Credential
import SealedStream.LoopIndex
import SealedStream.Program

/-!
# What a session asks of its host

A session reads its input, draws random bytes, asks for the password of a pass, and has keys
stretched.  Each step of a session is a program with these requests over a state; a failed step
still leaves a state behind.
-/

namespace SealedStream

/-- What is known of a pass when its password is asked for.  There is no hint while encrypting. -/
structure PassInfo where
  version : Nat
  algorithm : Algorithm
  iterations : Nat
  loop : LoopIndex
  iv : ByteArray
  salt : Bytes 16
  hint : Option String
  deriving DecidableEq

/-- The answer to the question for a password.  The hint matters only for encryption. -/
structure Answer where
  password : String
  hint : Option String
  deriving DecidableEq

/-- A request of a session. -/
inductive HostRequest
  /-- At most `size` bytes of input; none means that it has ended. -/
  | read (size : Nat)
  /-- Exactly `size` random bytes. -/
  | draw (size : Nat)
  /-- The password of a pass. -/
  | password (info : PassInfo)
  /-- A stretched key. -/
  | derive (derivation : Derivation)

/-- The replies to a request. -/
abbrev HostRequest.Reply : HostRequest → Type
  | read _ => Except IoFault ByteArray
  | draw size => Bytes size
  | password _ => Except Fault Answer
  | derive _ => Key

/-- The requests of a session and their replies. -/
abbrev Host : Interface :=
  ⟨HostRequest, HostRequest.Reply⟩

namespace Host

/-- At most `size` bytes of input. -/
def read (size : Nat) : Program Host (Except IoFault ByteArray) :=
  Program.request (I := Host) (HostRequest.read size)

/-- Exactly `size` random bytes. -/
def draw (size : Nat) : Program Host (Bytes size) :=
  Program.request (I := Host) (HostRequest.draw size)

/-- The password of a pass. -/
def password (info : PassInfo) : Program Host (Except Fault Answer) :=
  Program.request (I := Host) (HostRequest.password info)

/-- A stretched key. -/
def derive (derivation : Derivation) : Program Host Key :=
  Program.request (I := Host) (HostRequest.derive derivation)

end Host

/-- A step of a session with states in `σ`. -/
abbrev Step (σ α : Type) := ExceptT Fault (StateT σ (Program Host)) α

namespace Step

variable {σ τ α : Type}

/-- A program as a step that cannot fail. -/
def ofProgram (p : Program Host α) : Step σ α :=
  ExceptT.lift (StateT.lift p)

/-- A step on a part of the state. -/
def onPart (part : σ → τ) (update : σ → τ → σ) (step : Step τ α) : Step σ α :=
  fun s => do
    let (result, t) ← step (part s)
    return (result, update s t)

end Step

end SealedStream
