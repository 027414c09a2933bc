import SealedStream.Bytes
import SealedStream.Text.Blank

/-!
# Base64url

Bytes as text, six bits a character, without padding.  Each string of bytes has one text: the bits
of the last character that belong to no byte are zero, and a text in which they are not is refused.

Armored text is more lenient about its form: blank characters may stand anywhere, and any number of
equals signs at the end.
-/

namespace SealedStream.Text.Base64Url

/-! ### Characters -/

/-- The character of a number below 64. -/
def ofIndex (n : Nat) : Char :=
  if n < 26 then Char.ofNat (65 + n)
  else if n < 52 then Char.ofNat (71 + n)
  else if n < 62 then Char.ofNat (n - 4)
  else if n = 62 then '-'
  else '_'

/-- The number of a character. -/
def toIndex? (c : Char) : Option Nat :=
  if 'A' ≤ c ∧ c ≤ 'Z' then some (c.toNat - 65)
  else if 'a' ≤ c ∧ c ≤ 'z' then some (c.toNat - 71)
  else if '0' ≤ c ∧ c ≤ '9' then some (c.toNat + 4)
  else if c = '-' then some 62
  else if c = '_' then some 63
  else none

/-! ### Encoding -/

/-- The loop of `encode`: `out` holds the characters so far. -/
def encodeFrom (out : String) : List UInt8 → String
  | a :: b :: c :: rest =>
    let n := a.toNat * 65536 + b.toNat * 256 + c.toNat
    encodeFrom ((((out.push (ofIndex (n / 262144))).push (ofIndex (n / 4096 % 64))).push
      (ofIndex (n / 64 % 64))).push (ofIndex (n % 64))) rest
  | [a, b] =>
    let n := a.toNat * 1024 + b.toNat * 4
    ((out.push (ofIndex (n / 4096))).push (ofIndex (n / 64 % 64))).push (ofIndex (n % 64))
  | [a] =>
    let n := a.toNat * 16
    (out.push (ofIndex (n / 64))).push (ofIndex (n % 64))
  | [] => out

/-- The text of some bytes. -/
def encode (bytes : ByteArray) : String :=
  encodeFrom "" bytes.data.toList

/-! ### Decoding -/

/-- The loop of `decode?`: `out` holds the bytes so far. -/
def decodeFrom (out : ByteArray) : List Char → Option ByteArray
  | c₁ :: c₂ :: c₃ :: c₄ :: rest => do
    let n := (← toIndex? c₁) * 262144 + (← toIndex? c₂) * 4096 + (← toIndex? c₃) * 64
      + (← toIndex? c₄)
    decodeFrom (((out.push (.ofNat (n / 65536))).push (.ofNat (n / 256))).push (.ofNat n)) rest
  | [c₁, c₂, c₃] => do
    let n := (← toIndex? c₁) * 4096 + (← toIndex? c₂) * 64 + (← toIndex? c₃)
    guard (n % 4 = 0)
    return (out.push (.ofNat (n / 1024))).push (.ofNat (n / 4))
  | [c₁, c₂] => do
    let n := (← toIndex? c₁) * 64 + (← toIndex? c₂)
    guard (n % 16 = 0)
    return out.push (.ofNat (n / 16))
  | [_] => none
  | [] => some out

/-- The bytes of a text. -/
def decode? (text : List Char) : Option ByteArray :=
  decodeFrom .empty text

/-! ### Armor -/

/-- A text without the equals signs at its end. -/
def dropPadding (text : List Char) : List Char :=
  (text.reverse.dropWhile (· = '=')).reverse

/-- The bytes of a text in which blank characters and padding do not matter. -/
def decodeArmor? (text : List Char) : Option ByteArray :=
  decode? (dropPadding (text.filter fun c => !isBlank c))

/-- The text of some bytes, on a line of its own. -/
def encodeArmor (bytes : ByteArray) : String :=
  encode bytes ++ "\n"

end SealedStream.Text.Base64Url
