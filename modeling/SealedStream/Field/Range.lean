import SealedStream.Fault

/-!
# Ranges of fields

The checks that reading and writing a field have in common.
-/

namespace SealedStream

/-- A hexadecimal digit. -/
def hexDigit (n : Nat) : Char :=
  if n < 10 then Char.ofNat (48 + n) else Char.ofNat (87 + n)

/-- The two hexadecimal digits of a byte. -/
def hexByte (n : Nat) : String :=
  .ofList [hexDigit (n / 16 % 16), hexDigit (n % 16)]

/-- A version, if some generation has it. -/
def checkVersion (n : Nat) : Except Fault Nat :=
  if n ∈ [Limits.version1, Limits.version4, Limits.version5] then .ok n
  else .error (.protocolVersion n)

/-- A payload size within its range. -/
def checkSize (n : Nat) : Except Fault Nat :=
  if Limits.payloadMin ≤ n ∧ n ≤ Limits.payloadMax then .ok n
  else .error (.malformedField "size" s!"{n} outside [{Limits.payloadMin}, {Limits.payloadMax}]")

/-- Flags of which none is unknown. -/
def checkFlags (n : Nat) : Except Fault Nat :=
  if n ≤ Limits.flagTerminal then .ok n
  else .error (.malformedField "flags" s!"unknown bits 0x{hexByte n}")

/-- An iteration count within its range, as a field. -/
def checkIterationsField (n : Nat) : Except Fault Nat :=
  match checkIterations n with
  | .ok _ => .ok n
  | .error _ => .error (.iterationsField n)

end SealedStream
