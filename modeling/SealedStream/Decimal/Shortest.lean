/-!
# Shortest decimals

A positive binary number is written with the fewest digits that read back as the same number, and of
those with the digits nearest to it.  The candidates with a given number of digits are the two
neighbours of the number on that decimal grid, found by exact arithmetic.
-/

namespace SealedStream

attribute [local instance (2000)] instPowNat

/-- The number `digits * 10 ^ exponent`. -/
structure Decimal where
  digits : Nat
  exponent : Int
  deriving DecidableEq, Repr

namespace Decimal

/-- A number `m * 2 ^ q` as a quotient. -/
def quotient (m : Nat) (q : Int) : Nat × Nat :=
  if q < 0 then (m, 2 ^ q.natAbs) else (m * 2 ^ q.natAbs, 1)

/-- A quotient in units of `10 ^ e`. -/
def inUnits (num den : Nat) (e : Int) : Nat × Nat :=
  if e < 0 then (num * 10 ^ e.natAbs, den) else (num, den * 10 ^ e.natAbs)

/-- The float nearest to a decimal. -/
def toFloat (d : Decimal) : Float :=
  if d.exponent < 0 then Float.ofScientific d.digits true d.exponent.natAbs
  else Float.ofScientific (d.digits * 10 ^ d.exponent.natAbs) false 0

/-- The mantissa and exponent of a finite positive float. -/
def binaryParts (x : Float) : Nat × Int :=
  let bits := x.toBits.toNat
  let fraction : Nat := bits &&& 0xfffffffffffff
  let exponent : Nat := bits >>> 52 &&& 0x7ff
  -- The leading bit is written only in the exponent: it is one unless that is zero.
  if exponent = 0 then (fraction, -1074)
  else (fraction + 0x10000000000000, (exponent : Int) - 1075)

/-- The largest `e` up to `start` with `10 ^ e` no greater than a quotient, or the last one that was
tried. -/
def leadingExponent (num den : Nat) : (fuel : Nat) → (start : Int) → Int
  | 0, e => e
  | fuel + 1, e =>
    let (n, d) := inUnits num den e
    if d ≤ n then e else leadingExponent num den fuel (e - 1)

/-- The nearer of the two neighbours on the grid of `count` digits that read back as `x`. -/
def onGrid (x : Float) (num den : Nat) (leading : Int) (count : Nat) : Option Decimal :=
  let e := leading + 1 - count
  let (n, d) := inUnits num den e
  let below : Decimal := ⟨n / d, e⟩
  let above : Decimal := ⟨n / d + 1, e⟩
  let (first, second) := if 2 * (n % d) ≤ d then (below, above) else (above, below)
  if first.toFloat == x then some first
  else if second.toFloat == x then some second
  else none

/-- The shortest decimal of a finite positive float. -/
def ofFloat (x : Float) : Decimal :=
  let (m, q) := binaryParts x
  let (num, den) := quotient m q
  let leading := leadingExponent num den 640 309
  ((List.range 17).findSome? fun k => onGrid x num den leading (k + 1)).getD ⟨0, 0⟩

/-- A decimal whose last digit is not zero. -/
def strip : (fuel : Nat) → Decimal → Decimal
  | 0, d => d
  | fuel + 1, d =>
    if d.digits ≠ 0 ∧ d.digits % 10 = 0 then strip fuel ⟨d.digits / 10, d.exponent + 1⟩ else d

/-- The text of a decimal, which always has a point or an exponent: positional from `0.00001` to
below `10 ^ 16`, otherwise with one digit before the point. -/
def render (d : Decimal) : String :=
  let d := d.strip 20
  let text := toString d.digits
  let point : Int := text.length + d.exponent
  if 0 ≤ d.exponent ∧ point ≤ 16 then
    text ++ .ofList (List.replicate d.exponent.natAbs '0') ++ ".0"
  else if 0 < point ∧ point ≤ 16 then
    .ofList (text.toList.take point.natAbs) ++ "." ++ .ofList (text.toList.drop point.natAbs)
  else if -5 < point ∧ point ≤ 0 then
    "0." ++ .ofList (List.replicate point.natAbs '0') ++ text
  else
    let head := .ofList (text.toList.take 1)
    let tail := text.toList.drop 1
    let mantissa := if tail.isEmpty then head else head ++ "." ++ .ofList tail
    mantissa ++ "e" ++ toString (point - 1)

end Decimal

end SealedStream
