import SealedStream.Credential
import SealedStream.Decimal.Shortest
import SealedStream.Text.Json

/-!
# Work factors

How many iterations of the key stretching a machine can afford.  One derivation is timed, and its
speed scaled to the time that a derivation should take, and to the time that it may take at most.
-/

namespace SealedStream

/-- A span of time. -/
structure Duration where
  seconds : Nat
  nanoseconds : Nat := 0
  deriving DecidableEq, Repr

namespace Duration

/-- A span of some milliseconds. -/
def ofMillis (n : Nat) : Duration :=
  ⟨n / 1000, n % 1000 * 1000000⟩

/-- A span in seconds. -/
def toFloat (d : Duration) : Float :=
  (UInt64.ofNat d.seconds).toFloat + (UInt64.ofNat d.nanoseconds).toFloat / 1e9

/-- A span in milliseconds. -/
def millis (d : Duration) : Float :=
  d.toFloat * 1000

end Duration

/-- What a machine can afford. -/
structure WorkFactor where
  /-- The iteration count to use. -/
  iterations : Nat
  /-- The greatest iteration count worth using. -/
  maximum : Nat
  /-- Iterations a millisecond. -/
  rate : Float

namespace WorkFactor

/-- The iterations of the derivation that is timed. -/
def testIterations : Nat := Limits.iterationsMin
/-- The milliseconds that a derivation should take. -/
def targetMillis : Nat := 500
/-- The milliseconds that a derivation may take at most. -/
def maximumMillis : Nat := 5 * 60 * 1000

/-- The lesser of two numbers. -/
def least (x y : Float) : Float :=
  if y < x then y else x

/-- The greater of two numbers. -/
def greatest (x y : Float) : Float :=
  if x < y then y else x

/-- A number as a float. -/
def real (n : Nat) : Float :=
  (UInt64.ofNat n).toFloat

/-- The nearest whole multiple of a unit. -/
def toMultiple (x unit : Float) : Float :=
  (x / unit).round * unit

/-- The nearest iteration count that may be used. -/
def clamp (x : Float) : Nat :=
  (greatest (real Limits.iterationsMin) (least x (real Limits.iterationsMax))).toUInt64.toNat

/-- Scales a derivation of `test` iterations that took the time `elapsed`, which counts as a
millisecond at least.  The count to use lies above the least count allowed by as much as fits into
the target, in steps of a hundred thousand, but is never below the usual count; the greatest count
goes in steps of a million. -/
def estimate (test : Nat) (elapsed target maximum : Duration) : WorkFactor :=
  let rate := real test / (greatest elapsed.toFloat 0.001 * 1000)
  let most := least (toMultiple (maximum.millis * rate) 1e6) (real Limits.iterationsMax)
  let wanted := toMultiple (rate * target.millis) 1e5 + real Limits.iterationsMin
  ⟨clamp (greatest wanted (real Limits.iterationsDefault)), clamp most, rate⟩

/-- The derivation that is timed. -/
def testDerivation (test : Nat) (random : Bytes 32) : Derivation :=
  ⟨"AVeryBogusPwd".toUTF8 ++ random.data, .zeros 16, test⟩

/-- Fails if there would be nothing to time. -/
def checkTest (test : Nat) : Except Fault Unit :=
  if test = 0 then .error (.invalidArgument "benchmark test size must be positive") else .ok ()

/-! ### Texts -/

/-- The nearest whole number; a half goes to the even neighbour. -/
def nearestWhole (x : Float) : Nat :=
  let below := x.floor
  let n := below.toUInt64.toNat
  let rest := x - below
  if rest > 0.5 ∨ (rest == 0.5 ∧ n % 2 = 1) then n + 1 else n

/-- The estimate in lines. -/
def lines (w : WorkFactor) : List String :=
  [s!"hash rate:    {nearestWhole w.rate} iterations/ms",
    s!"recommended:  {w.iterations} iterations (~{targetMillis} ms)",
    s!"maximum:      {w.maximum} iterations"]

/-- The estimate as a value. -/
def toJson (w : WorkFactor) : Text.Json :=
  .object [("ic", .ofNat w.iterations), ("ic_max", .ofNat w.maximum),
    ("hash_rate", .number (Decimal.ofFloat w.rate).render)]

end WorkFactor

end SealedStream
