import SealedStream.Bytes

/-!
# UTF-8

The longest start of a text within a number of bytes, and what to make of bytes that are not
well-formed: where the first ill-formed piece is (`defect?`), and the text in which each such piece
is the replacement character (`decodeLossy`).
-/

namespace SealedStream.Text

/-! ### Cutting -/

/-- The longest start of a text that takes at most `max` bytes. -/
def takeUtf8 (max : Nat) : List Char → List Char
  | [] => []
  | c :: cs => if c.utf8Size ≤ max then c :: takeUtf8 (max - c.utf8Size) cs else []

/-! ### Ill-formed pieces -/

/-- What stands at the start of some bytes. -/
inductive Piece
  /-- A character of the given number of bytes. -/
  | character (size : Nat)
  /-- That many bytes which start a character, and are followed by one that does not go on. -/
  | broken (size : Nat)
  /-- The start of a character at the end of the bytes. -/
  | incomplete
  deriving DecidableEq

/-- The bytes allowed after a first byte, by position, as ranges: continuation bytes, of which the
second may be restricted so that each character has one encoding, and none is a surrogate. -/
def continuation (b : UInt8) : Option (List (UInt8 × UInt8)) :=
  let any : UInt8 × UInt8 := (0x80, 0xbf)
  if b < 0x80 then some []
  else if b < 0xc2 then none
  else if b < 0xe0 then some [any]
  else if b = 0xe0 then some [(0xa0, 0xbf), any]
  else if b = 0xed then some [(0x80, 0x9f), any]
  else if b < 0xf0 then some [any, any]
  else if b = 0xf0 then some [(0x90, 0xbf), any, any]
  else if b < 0xf4 then some [any, any, any]
  else if b = 0xf4 then some [(0x80, 0x8f), any, any]
  else none

/-- Goes on with a character of which `size` bytes have been seen. -/
def continueWith (size : Nat) : (ranges : List (UInt8 × UInt8)) → List UInt8 → Piece
  | [], _ => .character size
  | _ :: _, [] => .incomplete
  | (lo, hi) :: ranges, b :: bs =>
    if lo ≤ b ∧ b ≤ hi then continueWith (size + 1) ranges bs else .broken size

/-- The piece that starts with `b` and goes on with `bs`. -/
def pieceAt (b : UInt8) (bs : List UInt8) : Piece :=
  match continuation b with
  | some ranges => continueWith 1 ranges bs
  | none => .broken 1

/-- The first ill-formed piece of some bytes. -/
structure Defect where
  /-- Where it starts. -/
  start : Nat
  /-- Its length, unless it is cut off by the end. -/
  size : Option Nat
  deriving DecidableEq

/-- The loop of `defect?`: `start` bytes have gone before, the next `skip` belong to a character. -/
def defectFrom : (start skip : Nat) → List UInt8 → Option Defect
  | _, _, [] => none
  | start, skip + 1, _ :: bs => defectFrom (start + 1) skip bs
  | start, 0, b :: bs =>
    match pieceAt b bs with
    | .character size => defectFrom (start + 1) (size - 1) bs
    | .broken size => some ⟨start, some size⟩
    | .incomplete => some ⟨start, none⟩

/-- The first ill-formed piece. -/
def defect? (bytes : ByteArray) : Option Defect :=
  defectFrom 0 0 bytes.data.toList

/-- The wording of a defect. -/
def Defect.message (d : Defect) : String :=
  match d.size with
  | some size => s!"invalid utf-8 sequence of {size} bytes from index {d.start}"
  | none => s!"incomplete utf-8 byte sequence from index {d.start}"

/-! ### Replacement -/

/-- The loop of `decodeLossy`: the next `skip` bytes are dropped. -/
def replaceFrom : (skip : Nat) → List UInt8 → List UInt8
  | _, [] => []
  | skip + 1, _ :: bs => replaceFrom skip bs
  | 0, b :: bs =>
    match pieceAt b bs with
    | .character size => b :: (bs.take (size - 1) ++ replaceFrom (size - 1) bs)
    | .broken size => [0xef, 0xbf, 0xbd] ++ replaceFrom (size - 1) bs
    | .incomplete => [0xef, 0xbf, 0xbd]

/-- The text of some bytes.  Well-formed bytes are their text; otherwise each ill-formed piece
becomes a replacement character. -/
def decodeLossy (bytes : ByteArray) : String :=
  match String.fromUTF8? bytes with
  | some s => s
  | none => (String.fromUTF8? (ofList (replaceFrom 0 bytes.data.toList))).getD ""

end SealedStream.Text
