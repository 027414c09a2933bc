import SealedStream.Bytes
import SealedStream.Fault

/-!
# Wire formats

The three generations of the format, which the two bytes after the tag of the first header tell
apart.  In the first generation an algorithm number stands there, which is always below four.
-/

namespace SealedStream

/-- A generation of the format. -/
inductive WireFormat
  /-- One signed message. -/
  | message
  /-- Blocks, each signed for itself. -/
  | framed
  /-- Blocks whose tags form a chain, the last of which says that it is. -/
  | chained
  deriving DecidableEq, Repr

namespace WireFormat

/-- The version of a generation. -/
def version : WireFormat → Nat
  | message => Limits.version1
  | framed => Limits.version4
  | chained => Limits.version5

/-- The name of a generation. -/
def name : WireFormat → String
  | message => "V1"
  | framed => "V4"
  | chained => "V5"

/-- The generation that a first header belongs to. -/
def ofHeader (header : ByteArray) : Except Fault WireFormat :=
  if header.size < Limits.headerBytes then
    .error (.sizeMismatch "cipher data header" Limits.headerBytes header.size)
  else
    let marker := readLE (header.extract Limits.macBytes (Limits.macBytes + Limits.versionBytes))
    if marker = Limits.version5 then .ok chained
    else if marker = Limits.version4 then .ok framed
    else if 1 ≤ marker ∧ marker < Limits.version4 then .ok message
    else .error (.protocolVersion marker)

/-- Whether the tag of a block covers that of the block before. -/
def isChained : WireFormat → Bool
  | chained => true
  | _ => false

/-- Whether the last block has to say that it is. -/
def requiresTerminal : WireFormat → Bool
  | chained => true
  | _ => false

end WireFormat

end SealedStream
