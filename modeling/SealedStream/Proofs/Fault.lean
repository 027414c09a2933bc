import SealedStream.Fault

/-!
# Checks in a row

When a sequence of checks succeeds, and when it fails with a given fault.
-/

namespace SealedStream

variable {α β : Type}

theorem ite_eq_ok {c : Prop} [Decidable c] {a b : α} {fault : Fault} :
    (if c then .ok a else .error fault : Except Fault α) = .ok b ↔ b = a ∧ c := by
  split <;> simp_all [eq_comm]

/-- A sequence succeeds if its parts do in turn. -/
theorem bind_eq_ok {x : Except Fault α} {f : α → Except Fault β} {b : β} :
    x >>= f = .ok b ↔ ∃ a, x = .ok a ∧ f a = .ok b := by
  cases x with
  | error fault =>
    constructor
    · intro h
      cases h
    · rintro ⟨a, h, -⟩
      cases h
  | ok a =>
    constructor
    · intro h
      exact ⟨a, rfl, h⟩
    · rintro ⟨_, h, hf⟩
      cases h
      exact hf

/-- A sequence fails as the first of its parts that does. -/
theorem bind_eq_error {x : Except Fault α} {f : α → Except Fault β} {fault : Fault} :
    x >>= f = .error fault ↔ x = .error fault ∨ ∃ a, x = .ok a ∧ f a = .error fault := by
  cases x with
  | error fault' =>
    constructor
    · intro h
      cases h
      exact .inl rfl
    · rintro (h | ⟨a, h, -⟩)
      · cases h
        rfl
      · cases h
  | ok a =>
    constructor
    · intro h
      exact .inr ⟨a, rfl, h⟩
    · rintro (h | ⟨_, h, hf⟩)
      · cases h
      · cases h
        exact hf

theorem discard_eq_ok {x : Except Fault α} {u : Unit} :
    (discard x : Except Fault Unit) = .ok u ↔ ∃ a, x = .ok a := by
  cases x with
  | error fault =>
    constructor
    · intro h
      cases h
    · rintro ⟨_, h⟩
      cases h
  | ok a => exact ⟨fun _ => ⟨a, rfl⟩, fun _ => rfl⟩

/-- A refusal under some condition. -/
theorem throwIf_eq_ok {c : Prop} [Decidable c] {fault : Fault} {u : Unit} :
    (if c then throw fault else pure ⟨⟩ : Except Fault Unit) = .ok u ↔ ¬ c := by
  by_cases h : c
  · rw [if_pos h]
    exact ⟨fun he => (by cases he), fun hn => absurd h hn⟩
  · rw [if_neg h]
    exact ⟨fun _ => h, fun _ => rfl⟩

/-- A sequence that begins with a refusal under some condition. -/
theorem unless_eq_ok {c : Prop} [Decidable c] {fault : Fault} {x : Except Fault α} {a : α} :
    (do
      if c then throw fault
      x) = .ok a ↔ ¬ c ∧ x = .ok a := by
  by_cases h : c
  · rw [if_pos h]
    simp only [h, not_true, false_and, iff_false]
    exact fun h => nomatch h
  · rw [if_neg h]
    simp only [h, not_false_eq_true, true_and]

theorem unless_eq_error {c : Prop} [Decidable c] {fault fault' : Fault} {x : Except Fault α} :
    (do
      if c then throw fault'
      x) = .error fault ↔ c ∧ fault = fault' ∨ ¬ c ∧ x = .error fault := by
  by_cases h : c
  · rw [if_pos h]
    constructor
    · intro he
      cases he
      exact .inl ⟨h, rfl⟩
    · rintro (⟨-, rfl⟩ | ⟨hn, -⟩)
      · rfl
      · exact absurd h hn
  · rw [if_neg h]
    simp only [h, false_and, false_or, not_false_eq_true, true_and]

end SealedStream
