/-!
# Limits

The widths of the fields on the wire, in bytes, and the ranges of their values.  All numbers on the
wire are little-endian.  The last section checks that the ranges fit together.
-/

namespace SealedStream.Limits

/-! ### Widths of fields -/

/-- A block tag. -/
def macBytes : Nat := 32
/-- An algorithm number. -/
def algorithmBytes : Nat := 2
/-- A salt. -/
def saltBytes : Nat := 16
/-- An iteration count. -/
def iterationsBytes : Nat := 4
/-- A loop index. -/
def loopBytes : Nat := 1
/-- A version. -/
def versionBytes : Nat := 2
/-- The size of a payload. -/
def sizeBytes : Nat := 3
/-- The flags of a block. -/
def flagsBytes : Nat := 1
/-- The length of a sealed hint. -/
def hintLengthBytes : Nat := 1
/-- A user credential. -/
def credentialBytes : Nat := 32
/-- A key, whatever it is for. -/
def keyBytes : Nat := 32

/-- A block header: tag, version, payload size and flags. -/
def headerBytes : Nat := macBytes + versionBytes + sizeBytes + flagsBytes

/-! ### Ranges -/

/-- Random bytes drawn for the first block of a pass: the salt, then the nonce. -/
def headRandomBytes : Nat := 48

/-- The shortest nonce of any algorithm. -/
def ivMin : Nat := 12
/-- The longest nonce of any algorithm. -/
def ivMax : Nat := 32
/-- The shortest tag of any algorithm. -/
def tagMin : Nat := 16
/-- The longest tag of any algorithm. -/
def tagMax : Nat := 32

/-- The most bytes that a sealed hint may have; its length is one byte. -/
def sealedHintMax : Nat := 255
/-- The most characters that a hint may have. -/
def hintMaxChars : Nat := sealedHintMax / 2 - tagMax
/-- The most bytes of a hint that are kept. -/
def hintMaxBytes : Nat := sealedHintMax - tagMax

/-- The least payload: an algorithm number, a nonce, a tag, and one byte. -/
def payloadMin : Nat := ivMin + algorithmBytes + tagMin + 1
/-- The greatest payload whose size the header can hold. -/
def payloadMax : Nat := (1 <<< (8 * sizeBytes)) - 1

/-- The most associated data that a block can have. -/
def associatedDataMax : Nat :=
  algorithmBytes + ivMax + iterationsBytes + saltBytes + loopBytes + hintLengthBytes + sealedHintMax

/-- The most clear bytes that a block is sure to have room for. -/
def clearMax : Nat := payloadMax - associatedDataMax - tagMax

/-- The fewest iterations of the key stretching. -/
def iterationsMin : Nat := 420000
/-- The usual number of iterations. -/
def iterationsDefault : Nat := 1000000
/-- The most iterations: the last whole million below `2 ^ 32`. -/
def iterationsMax : Nat := 4294000000

/-- The most passes of a stream. -/
def loopMax : Nat := 16

/-- The first generation: one signed message. -/
def version1 : Nat := 1
/-- The second generation: blocks, each signed for itself. -/
def version4 : Nat := 4
/-- The present generation: blocks whose tags form a chain. -/
def version5 : Nat := 5

/-- The flag of the last block of a pass. -/
def flagTerminal : Nat := 1

/-- Clear bytes in the first block, unless asked otherwise. -/
def readStart : Nat := 1024 * 1024
/-- The most clear bytes in any block. -/
def readMax : Nat := readStart * 8

/-! ### Consistency -/

example : readMax ≤ clearMax := by decide
example : hintMaxChars = 95 := by decide
example : headerBytes = 38 := by decide
example : payloadMin = 31 := by decide

end SealedStream.Limits
