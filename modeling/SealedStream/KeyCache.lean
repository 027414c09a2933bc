import SealedStream.Credential
import Std.Data.HashMap

/-!
# Remembered keys

Stretching a key takes long, and the same key may be needed again.  A cache answers from memory what
it has answered before; since it holds nothing but keys of their derivations, no answer depends on
what it remembers (`derive_fst`).
-/

namespace SealedStream

/-- Keys that have been derived. -/
structure KeyCache where
  entries : Std.HashMap Derivation Key
  sound : ∀ (d : Derivation) (k : Key), entries[d]? = some k → k = d.key

namespace KeyCache

instance : EmptyCollection KeyCache :=
  ⟨⟨{}, by simp⟩⟩

/-- The key of a derivation, and the cache that remembers it. -/
def derive (c : KeyCache) (d : Derivation) : Key × KeyCache :=
  match c.entries[d]? with
  | some k => (k, c)
  | none => (d.key, ⟨c.entries.insert d d.key, by
      intro d' k h
      rw [Std.HashMap.getElem?_insert] at h
      split at h
      · rename_i hd
        rw [beq_iff_eq] at hd
        subst hd
        exact (Option.some.inj h).symm
      · exact c.sound d' k h⟩)

/-- **The answer is the key**, remembered or not. -/
theorem derive_fst (c : KeyCache) (d : Derivation) : (c.derive d).1 = d.key := by
  unfold derive
  split
  · rename_i k h
    exact c.sound d k h
  · rfl

end KeyCache

end SealedStream
