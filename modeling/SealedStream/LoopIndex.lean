import SealedStream.Fault

/-!
# Loop index

Which pass of how many: passes nest, the innermost counts as one.  On the wire an index is one byte,
whose halves hold both numbers less one.

* `ofByte_toByte`: a valid index reads back from its byte.
-/

namespace SealedStream

/-- Pass `index` of `count`. -/
structure LoopIndex where
  index : Nat
  count : Nat
  deriving DecidableEq, Repr

namespace LoopIndex

/-- Whether an index counts from one and lies within a count of at most sixteen. -/
def Valid (l : LoopIndex) : Prop :=
  1 ≤ l.index ∧ l.index ≤ l.count ∧ l.count ≤ Limits.loopMax

instance (l : LoopIndex) : Decidable l.Valid :=
  inferInstanceAs (Decidable (_ ∧ _ ∧ _))

/-- The index, if it is valid; the count is looked at first. -/
def check (l : LoopIndex) : Except Fault LoopIndex :=
  if l.count = 0 ∨ Limits.loopMax < l.count then
    .error (.malformedField "lpp" s!"lpEnd {l.count} outside [1, {Limits.loopMax}]")
  else if l.index = 0 ∨ l.count < l.index then
    .error (.malformedField "lpp" s!"lp {l.index} outside [1, {l.count}]")
  else .ok l

theorem check_of_valid {l : LoopIndex} (h : l.Valid) : l.check = .ok l := by
  obtain ⟨h1, h2, h3⟩ := h
  rw [check, if_neg (by omega), if_neg (by omega)]

/-- The byte of an index. -/
def toByte (l : LoopIndex) : UInt8 :=
  UInt8.ofNat (l.index - 1 + 16 * (l.count - 1))

/-- The index in a byte. -/
def ofByte (b : UInt8) : Except Fault LoopIndex :=
  check ⟨b.toNat % 16 + 1, b.toNat / 16 + 1⟩

/-- **A valid index reads back** from its byte. -/
theorem ofByte_toByte {l : LoopIndex} (h : l.Valid) : ofByte l.toByte = .ok l := by
  have h' : 1 ≤ l.index ∧ l.index ≤ l.count ∧ l.count ≤ 16 := h
  have hb : l.toByte.toNat = l.index - 1 + 16 * (l.count - 1) := by
    rw [toByte, UInt8.toNat_ofNat']
    exact Nat.mod_eq_of_lt (by omega)
  obtain ⟨index, count⟩ := l
  simp only at h' hb
  have h1 : (index - 1 + 16 * (count - 1)) % 16 + 1 = index := by omega
  have h2 : (index - 1 + 16 * (count - 1)) / 16 + 1 = count := by omega
  rw [ofByte, hb, h1, h2]
  exact check_of_valid h

end LoopIndex

end SealedStream
