import SealedStream.Algorithm
import SealedStream.Field.Range
import SealedStream.Plan
import SealedStream.Proofs.Fault

/-!
# Values in range

The checks of fields accept exactly the values in range, and give them back unchanged.  The numbers
of algorithms and the bytes of loop indices belong to one value each.
-/

namespace SealedStream

attribute [local instance (2000)] instPowNat

theorem checkVersion_eq_ok {n m : Nat} :
    checkVersion n = .ok m ↔
      m = n ∧ n ∈ [Limits.version1, Limits.version4, Limits.version5] := by
  unfold checkVersion
  exact ite_eq_ok

/-- A version fits in its field. -/
theorem version_lt {n : Nat} (h : n ∈ [Limits.version1, Limits.version4, Limits.version5]) :
    n < 256 ^ Limits.versionBytes := by
  simp only [List.mem_cons, List.not_mem_nil, or_false] at h
  rcases h with rfl | rfl | rfl <;> decide

theorem checkSize_eq_ok {n m : Nat} :
    checkSize n = .ok m ↔ m = n ∧ Limits.payloadMin ≤ n ∧ n ≤ Limits.payloadMax := by
  unfold checkSize
  exact ite_eq_ok

theorem checkFlags_eq_ok {n m : Nat} :
    checkFlags n = .ok m ↔ m = n ∧ n ≤ Limits.flagTerminal := by
  unfold checkFlags
  exact ite_eq_ok

theorem checkIterations_eq_ok {n : Nat} {u : Unit} :
    checkIterations n = .ok u ↔ IterationsInRange n := by
  unfold checkIterations IterationsInRange
  split <;> simp_all

theorem checkIterationsField_eq_ok {n m : Nat} :
    checkIterationsField n = .ok m ↔ m = n ∧ IterationsInRange n := by
  unfold checkIterationsField
  split
  next u h => simp [checkIterations_eq_ok.1 h, eq_comm]
  next fault h =>
    have hn : ¬ IterationsInRange n := fun hn => by
      rw [(checkIterations_eq_ok (u := ⟨⟩)).2 hn] at h
      cases h
    simp [hn]

namespace LoopIndex

theorem check_eq_ok {l l' : LoopIndex} : l.check = .ok l' ↔ l' = l ∧ l.Valid := by
  constructor
  · intro h
    unfold check at h
    split at h
    · cases h
    split at h
    · cases h
    cases h
    exact ⟨rfl, by unfold Valid; omega⟩
  · rintro ⟨rfl, h⟩
    exact check_of_valid h

/-- A byte that is the index of a pass is the byte of that index. -/
theorem ofByte_eq_ok {b : UInt8} {l : LoopIndex} :
    ofByte b = .ok l ↔ l.Valid ∧ b = l.toByte := by
  constructor
  · intro h
    obtain ⟨rfl, hv⟩ := check_eq_ok.1 h
    refine ⟨hv, ?_⟩
    have hb := b.toNat_lt
    have hn : b.toNat % 16 + 1 - 1 + 16 * (b.toNat / 16 + 1 - 1) = b.toNat := by omega
    rw [toByte, hn, UInt8.ofNat_toNat]
  · rintro ⟨hv, rfl⟩
    exact ofByte_toByte hv

end LoopIndex

theorem Algorithm.ofId?_eq_some {n : Nat} {a : Algorithm} :
    Algorithm.ofId? n = some a ↔ n = a.id := by
  unfold Algorithm.ofId? Algorithm.all
  cases a <;> simp only [List.find?_cons, List.find?_nil, Algorithm.id] <;> grind

end SealedStream
