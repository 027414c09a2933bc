import SealedStream.Host

/-!
# Plans

What a stream is to be encrypted with: the algorithm of each pass, innermost first, one iteration
count for all, and the size of the first chunk (`Plan`).  A pass gets its share of it
(`PassSettings`).  Both can only be made with values in range.
-/

namespace SealedStream

/-- An iteration count within its range. -/
def IterationsInRange (n : Nat) : Prop :=
  Limits.iterationsMin ≤ n ∧ n ≤ Limits.iterationsMax

instance (n : Nat) : Decidable (IterationsInRange n) :=
  inferInstanceAs (Decidable (_ ∧ _))

/-- What one pass is encrypted with. -/
structure PassSettings where
  algorithm : Algorithm
  iterations : Nat
  loop : LoopIndex
  iterations_mem : IterationsInRange iterations
  loop_valid : loop.Valid

namespace PassSettings

/-- The settings of a pass, if they are in range.  The iteration count is looked at first. -/
def ofParts (algorithm : Algorithm) (iterations : Nat) (loop : LoopIndex) :
    Except Fault PassSettings :=
  if hi : IterationsInRange iterations then
    if hl : loop.Valid then .ok ⟨algorithm, iterations, loop, hi, hl⟩
    else match loop.check with
      | .error fault => .error (.invalidArgument s!"loop position: {fault.message}")
      | .ok _ => .error (.invalidArgument "loop position")
  else .error (.iterationsOutside iterations)

/-- The same pass with another algorithm. -/
def withAlgorithm (p : PassSettings) (algorithm : Algorithm) : PassSettings :=
  { p with algorithm }

end PassSettings

/-- What a stream is encrypted with. -/
structure Plan where
  algorithms : List Algorithm
  iterations : Nat
  readStart : Nat
  length_mem : 1 ≤ algorithms.length ∧ algorithms.length ≤ Limits.loopMax
  iterations_mem : IterationsInRange iterations
  readStart_mem : 1 ≤ readStart ∧ readStart ≤ Limits.readMax

/-- The nearest number of clear bytes that a first chunk may have. -/
def clampReadStart (n : Nat) : Nat :=
  max 1 (min n Limits.readMax)

theorem clampReadStart_mem (n : Nat) :
    1 ≤ clampReadStart n ∧ clampReadStart n ≤ Limits.readMax := by
  have h : 1 ≤ Limits.readMax := by decide
  unfold clampReadStart
  omega

namespace Plan

/-- A plan with the usual first chunk.  The number of algorithms is looked at first. -/
def ofAlgorithms (algorithms : List Algorithm) (iterations : Nat) : Except Fault Plan :=
  if hl : 1 ≤ algorithms.length ∧ algorithms.length ≤ Limits.loopMax then
    if hi : IterationsInRange iterations then
      .ok ⟨algorithms, iterations, Limits.readStart, hl, hi, by decide⟩
    else .error (.iterationsOutside iterations)
  else .error (.invalidArgument
    s!"between 1 and {Limits.loopMax} algorithms required, got {algorithms.length}")

/-- One pass with the usual settings. -/
def single (algorithm : Algorithm) : Plan :=
  ⟨[algorithm], Limits.iterationsDefault, Limits.readStart, ⟨Nat.le_refl 1, Nat.le_add_left 1 15⟩,
    by decide, by decide⟩

/-- The same plan with another first chunk. -/
def withReadStart (p : Plan) (n : Nat) : Plan :=
  { p with readStart := clampReadStart n, readStart_mem := clampReadStart_mem n }

/-- The number of passes. -/
def count (p : Plan) : Nat :=
  p.algorithms.length

/-- The settings of pass `i`, counted from zero. -/
def pass (p : Plan) (i : Fin p.count) : PassSettings where
  algorithm := p.algorithms.get i
  iterations := p.iterations
  loop := ⟨i + 1, p.count⟩
  iterations_mem := p.iterations_mem
  loop_valid := ⟨Nat.le_add_left 1 i, i.isLt, p.length_mem.2⟩

/-- The settings of all passes, innermost first. -/
def passes (p : Plan) : List PassSettings :=
  (List.finRange p.count).map p.pass

end Plan

end SealedStream
