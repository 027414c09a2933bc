import SealedStream.Fault

/-!
# Error reports

What is told to a person when a command has failed: what could not be done, and what caused that.
-/

namespace SealedStream

/-- A message, and its causes, each of which caused the one before. -/
structure Report where
  message : String
  causes : List String := []
  deriving DecidableEq

namespace Report

/-- A text after a number, or after blanks if it has none; its further lines are set in too. -/
def indented (number : Option Nat) (text : String) : String :=
  let lines := text.splitOn "\n"
  match number with
  | some n => s!"    {n}: " ++ "\n       ".intercalate lines
  | none => "    " ++ "\n    ".intercalate lines

/-- The text of a report.  Causes are numbered if there are several. -/
def render (r : Report) : String :=
  let causes := match r.causes with
    | [] => ""
    | [cause] => "\n\nCaused by:\n" ++ indented none cause
    | causes => "\n\nCaused by:\n"
        ++ "\n".intercalate (causes.mapIdx fun i cause => indented (some i) cause)
  "Error: " ++ r.message ++ causes

/-- A fault, in the words of the fault. -/
def ofFault (fault : Fault) : Report :=
  { message := fault.message }

/-- A fault of decryption.  Which secret was wrong cannot be known, only which it may have been. -/
def explain : Fault → Report
  | .decryptionFailure => { message := "wrong password or user credential" }
  | .integrityFailure =>
    { message := "integrity check failed: wrong user credential or altered cipher data" }
  | .cancelled => { message := "cancelled" }
  | fault => ofFault fault

end Report

end SealedStream
