import SealedStream.Fault

/-!
# Runs that succeed, and runs that fail

A reader of fields and a writer are programs that move a place, and may fail.  When such a program
succeeds, and where it leaves the place, is said here of each way to build one: a sequence succeeds
if its parts do in turn (`run_bind_eq_ok`), a check of a value if the value passes it
(`run_check_eq_ok`).  A program that only looks and checks before it changes anything changes
nothing if it fails (`Atomic`).
-/

namespace SealedStream

variable {σ α β : Type} {x y : ExceptT Fault (StateM σ) α} {s s' : σ}

/-- A sequence goes on if its first part succeeds, and fails as that does. -/
theorem run_bind_eq (x : ExceptT Fault (StateM σ) α) (f : α → ExceptT Fault (StateM σ) β) (s : σ) :
    (x >>= f).run s = match x.run s with
      | (.ok a, s') => (f a).run s'
      | (.error fault, s') => (.error fault, s') := by
  show ExceptT.bindCont f (x.run s).1 (x.run s).2 = _
  generalize x.run s = y
  obtain ⟨a | a, s⟩ := y <;> rfl

theorem run_bind_of_ok {f : α → ExceptT Fault (StateM σ) β} {a : α} (h : x.run s = (.ok a, s')) :
    (x >>= f).run s = (f a).run s' := by
  rw [run_bind_eq, h]

theorem run_bind_of_error {f : α → ExceptT Fault (StateM σ) β} {fault : Fault}
    (h : x.run s = (.error fault, s')) : (x >>= f).run s = (.error fault, s') := by
  rw [run_bind_eq, h]

/-- A sequence succeeds if its parts do in turn. -/
theorem run_bind_eq_ok {f : α → ExceptT Fault (StateM σ) β} {b : β} {s'' : σ} :
    (x >>= f).run s = (.ok b, s'') ↔
      ∃ a s', x.run s = (.ok a, s') ∧ (f a).run s' = (.ok b, s'') := by
  constructor
  · intro hb
    rw [run_bind_eq] at hb
    split at hb
    next a s' hx => exact ⟨a, s', hx, hb⟩
    next => cases hb
  · rintro ⟨a, s', hx, hb⟩
    rw [run_bind_of_ok hx]
    exact hb

theorem run_pure_eq_ok {a b : α} :
    (pure a : ExceptT Fault (StateM σ) α).run s = (.ok b, s') ↔ b = a ∧ s' = s := by
  show ((.ok a, s) : Except Fault α × σ) = (.ok b, s') ↔ _
  simp [eq_comm]

theorem run_map_eq_ok {f : α → β} {b : β} :
    (f <$> x).run s = (.ok b, s') ↔ ∃ a, x.run s = (.ok a, s') ∧ b = f a := by
  rw [map_eq_pure_bind, run_bind_eq_ok]
  constructor
  · rintro ⟨a, t, ha, hpure⟩
    obtain ⟨rfl, rfl⟩ := run_pure_eq_ok.1 hpure
    exact ⟨a, ha, rfl⟩
  · rintro ⟨a, ha, rfl⟩
    exact ⟨a, s', ha, run_pure_eq_ok.2 ⟨rfl, rfl⟩⟩

/-- What comes of it counts, not where the place is then. -/
theorem fst_run_eq_ok {a : α} : (x.run s).1 = .ok a ↔ ∃ s', x.run s = (.ok a, s') := by
  generalize x.run s = y
  constructor
  · intro h
    exact ⟨y.2, Prod.ext h rfl⟩
  · rintro ⟨s', rfl⟩
    rfl

theorem run_discard_eq_ok {u : Unit} :
    (discard x : ExceptT Fault (StateM σ) Unit).run s = (.ok u, s') ↔
      ∃ a, x.run s = (.ok a, s') := by
  rw [discard, map_const, Function.comp_apply, run_map_eq_ok]
  exact ⟨fun ⟨a, ha, _⟩ => ⟨a, ha⟩, fun ⟨a, ha⟩ => ⟨a, ha, rfl⟩⟩

theorem run_throw_ne_ok {fault : Fault} {a : α} :
    ¬ (throw fault : ExceptT Fault (StateM σ) α).run s = (.ok a, s') := by
  show ¬ ((.error fault, s) : Except Fault α × σ) = (.ok a, s')
  simp

theorem run_get_eq_ok {t : σ} :
    (get : ExceptT Fault (StateM σ) σ).run s = (.ok t, s') ↔ t = s ∧ s' = s :=
  run_pure_eq_ok

theorem run_set_eq_ok {t : σ} {u : PUnit} :
    (set t : ExceptT Fault (StateM σ) PUnit).run s = (.ok u, s') ↔ s' = t := by
  show ((.ok ⟨⟩, t) : Except Fault PUnit × σ) = (.ok u, s') ↔ _
  simp [eq_comm]

theorem run_modify_eq_ok {f : σ → σ} {u : PUnit} :
    (modify f : ExceptT Fault (StateM σ) PUnit).run s = (.ok u, s') ↔ s' = f s := by
  show ((.ok ⟨⟩, f s) : Except Fault PUnit × σ) = (.ok u, s') ↔ _
  simp [eq_comm]

theorem run_ite_eq_ok {c : Prop} [Decidable c] {a : α} :
    (if c then x else y).run s = (.ok a, s') ↔
      c ∧ x.run s = (.ok a, s') ∨ ¬ c ∧ y.run s = (.ok a, s') := by
  split <;> simp_all

theorem run_check_eq_ok {e : Except Fault α} {a : α} :
    (liftM e : ExceptT Fault (StateM σ) α).run s = (.ok a, s') ↔ e = .ok a ∧ s' = s := by
  cases e with
  | ok b => exact run_pure_eq_ok.trans (by simp [eq_comm])
  | error e =>
    show ((.error e, s) : Except Fault α × σ) = (.ok a, s') ↔ _
    simp

/-- A sequence that begins with a refusal under some condition. -/
theorem run_unless_eq_ok {c : Prop} [Decidable c] {fault : Fault} {a : α} :
    (do
      if c then throw fault
      x).run s = (.ok a, s') ↔ ¬ c ∧ x.run s = (.ok a, s') := by
  by_cases h : c
  · rw [if_pos h, run_bind_eq_ok]
    exact ⟨fun ⟨_, _, hthrow, _⟩ => absurd hthrow run_throw_ne_ok, fun hn => absurd h hn.1⟩
  · rw [if_neg h]
    exact (and_iff_right h).symm

/-- A program whose fault is caught. -/
theorem run_tryCatch (x : ExceptT Fault (StateM σ) α)
    (handle : Fault → ExceptT Fault (StateM σ) α) (s : σ) :
    (tryCatch x handle).run s = match x.run s with
      | (.ok a, t) => (.ok a, t)
      | (.error fault, t) => (handle fault).run t := by
  rw [ExceptT.run_tryCatch]
  show StateT.bind x.run _ s = _
  unfold StateT.bind
  show (match x.run s with | (a, t) => _) = _
  generalize x.run s = y
  obtain ⟨e | b, t⟩ := y <;> rfl

theorem run_tryCatch_eq_ok {handle : Fault → ExceptT Fault (StateM σ) α} {a : α} :
    (tryCatch x handle).run s = (.ok a, s') ↔
      x.run s = (.ok a, s') ∨
        ∃ fault t, x.run s = (.error fault, t) ∧ (handle fault).run t = (.ok a, s') := by
  rw [run_tryCatch]
  generalize x.run s = y
  obtain ⟨e | b, t⟩ := y
  · exact ⟨fun h => .inr ⟨e, t, rfl, h⟩, by rintro (h | ⟨_, _, h, h'⟩) <;> cases h; exact h'⟩
  · exact ⟨.inl, by rintro (h | ⟨_, _, h, -⟩) <;> cases h; rfl⟩

/-! ### Runs that fail -/

theorem run_get (s : σ) : (get : ExceptT Fault (StateM σ) σ).run s = (.ok s, s) := rfl

/-- A program that changes nothing, whatever comes of it. -/
def Inert (x : ExceptT Fault (StateM σ) α) : Prop :=
  ∀ s, (x.run s).2 = s

/-- A program that changes nothing if it fails. -/
def Atomic (x : ExceptT Fault (StateM σ) α) : Prop :=
  ∀ s fault, (x.run s).1 = .error fault → (x.run s).2 = s

theorem inert_pure (a : α) : Inert (pure a : ExceptT Fault (StateM σ) α) := fun _ => rfl

theorem inert_throw (fault : Fault) : Inert (throw fault : ExceptT Fault (StateM σ) α) :=
  fun _ => rfl

theorem inert_get : Inert (get : ExceptT Fault (StateM σ) σ) := fun _ => rfl

theorem inert_check (e : Except Fault α) : Inert (liftM e : ExceptT Fault (StateM σ) α) := by
  intro s
  cases e <;> rfl

theorem Inert.atomic (hx : Inert x) : Atomic x :=
  fun s _ _ => hx s

theorem atomic_set (t : σ) : Atomic (set t : ExceptT Fault (StateM σ) PUnit) := nofun

/-- What only looks can stand before what changes nothing if it fails. -/
theorem Inert.bind {f : α → ExceptT Fault (StateM σ) β} (hx : Inert x) (hf : ∀ a, Atomic (f a)) :
    Atomic (x >>= f) := by
  intro s fault
  have hs := hx s
  cases hrun : x.run s with
  | mk result s' =>
    rw [hrun] at hs
    obtain rfl : s' = s := hs
    cases result with
    | ok a =>
      rw [run_bind_of_ok hrun]
      exact hf a s' fault
    | error e =>
      rw [run_bind_of_error hrun]
      exact fun _ => rfl

theorem Atomic.unless {c : Prop} [Decidable c] {fault : Fault} (hx : Atomic x) :
    Atomic (do
      if c then throw fault
      x) := by
  by_cases h : c
  · rw [if_pos h]
    exact (inert_throw fault).bind fun _ => hx
  · rw [if_neg h]
    exact hx

end SealedStream
