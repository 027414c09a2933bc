/-!
# Stages of a session

A session that encrypts or decrypts one pass goes through stages.  The first block of a pass is its
head; a decryptor may verify the head before it has a password.

```text
initialized ──▶ headDecoded ──▶ headDone ──▶ finished
     │         (decryption)      ▲   │ │
     └───────────────────────────┘   └─┘ (a further block)

any stage ──▶ failed, which is never left
```
-/

namespace SealedStream

/-- The stage of a session. -/
inductive Stage
  /-- Nothing has been read. -/
  | initialized
  /-- The head has been verified, but not decrypted. -/
  | headDecoded
  /-- The head has been processed, and perhaps further blocks. -/
  | headDone
  /-- The last block has been processed. -/
  | finished
  /-- A step has failed. -/
  | failed
  deriving DecidableEq, Repr

namespace Stage

/-- The name of a stage in messages. -/
def name : Stage → String
  | initialized => "Initialized"
  | headDecoded => "Block0Decoded"
  | headDone => "Block0Done"
  | finished => "Finished"
  | failed => "Error"

/-- What a session does when it enters a stage, in the words of messages. -/
def entering : Stage → String
  | initialized => "reset"
  | headDecoded => "decode block0"
  | headDone => "process block"
  | finished => "finish"
  | failed => "fail"

/-- Whether a session may step from one stage to the next.  An encryptor skips `headDecoded`, and
its pass may end with the head. -/
def allows : (stage next : Stage) → Bool
  | failed, _ => false
  | _, failed => true
  | initialized, headDecoded => true
  | initialized, headDone => true
  | initialized, finished => true
  | headDecoded, headDone => true
  | headDone, headDone => true
  | headDone, finished => true
  | _, _ => false

/-- Whether a session can do no more. -/
def isTerminal : Stage → Bool
  | finished => true
  | failed => true
  | _ => false

end Stage

end SealedStream
