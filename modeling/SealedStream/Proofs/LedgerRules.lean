import SealedStream.Proofs.Ledger

/-!
# What reads with a ledger keep

A ledger has the steps of every level, and among them the blocks.

* `Layers.grows_ledger`: a read adds to the ledger, and only steps of passes it reads from.
* `Layers.keeps_finished`: a session that has finished makes no more blocks.
* `Layers.supplies_handed`: what a pass has handed out and what waits in its outlet are its blocks.
-/

namespace SealedStream

variable {ε σ : Type}

/-! ### Attempts and blocks of a level -/

/-- The steps of a level. -/
def attemptsOf (level : Nat) (ledger : List Attempt) : List Attempt :=
  ledger.filter (·.level = level)

/-- The blocks of a level. -/
def blocksOf (level : Nat) (ledger : List Attempt) : List ByteArray :=
  (attemptsOf level ledger).filterMap Attempt.block

section levels

variable {level : Nat} {ledger ledger' : List Attempt} {a : Attempt}

@[simp] theorem attemptsOf_append (level : Nat) (ledger ledger' : List Attempt) :
    attemptsOf level (ledger ++ ledger') = attemptsOf level ledger ++ attemptsOf level ledger' :=
  List.filter_append ..

@[simp] theorem blocksOf_append (level : Nat) (ledger ledger' : List Attempt) :
    blocksOf level (ledger ++ ledger') = blocksOf level ledger ++ blocksOf level ledger' := by
  rw [blocksOf, attemptsOf_append, List.filterMap_append]
  rfl

theorem attemptsOf_eq_nil (h : ∀ a ∈ ledger, a.level ≠ level) : attemptsOf level ledger = [] := by
  refine List.filter_eq_nil_iff.2 fun a ha => ?_
  rw [decide_eq_true_iff]
  exact h a ha

theorem attemptsOf_add (s : Logged Attempt σ) (ha : a.level = level) :
    attemptsOf level (s.add a).log = attemptsOf level s.log ++ [a] := by
  rw [Logged.add, attemptsOf_append, attemptsOf, attemptsOf,
    List.filter_cons_of_pos (by simpa using ha), List.filter_nil]

theorem attemptsOf_add_of_ne (s : Logged Attempt σ) (ha : a.level ≠ level) :
    attemptsOf level (s.add a).log = attemptsOf level s.log := by
  rw [Logged.add, attemptsOf_append, attemptsOf, attemptsOf,
    List.filter_cons_of_neg (by simpa using ha), List.filter_nil, List.append_nil]

/-- A block that a session has made. -/
theorem blocksOf_add (s : Logged Attempt σ) (level : Nat) (events : List Event)
    (bytes : ByteArray) :
    blocksOf level (s.add (.ofEvents level events (some bytes))).log
      = blocksOf level s.log ++ [bytes] := by
  have hadd : attemptsOf level (s.add (.ofEvents level events (some bytes))).log
      = attemptsOf level s.log ++ [.ofEvents level events (some bytes)] := attemptsOf_add s rfl
  rw [blocksOf, hadd, List.filterMap_append]
  rfl

theorem blocksOf_add_of_ne (s : Logged Attempt σ) (ha : a.level ≠ level) :
    blocksOf level (s.add a).log = blocksOf level s.log := by
  rw [blocksOf, attemptsOf_add_of_ne s ha, blocksOf]

/-- A step of one of the passes up to a level. -/
def Attempt.UpTo (n : Nat) (a : Attempt) : Prop :=
  1 ≤ a.level ∧ a.level ≤ n

namespace GoesOn

variable {n : Nat}

/-- The steps of the levels above are the same as before. -/
theorem attemptsOf_eq (h : GoesOn (Attempt.UpTo n) ledger ledger') (hlevel : n < level) :
    attemptsOf level ledger' = attemptsOf level ledger := by
  rcases h with ⟨more, rfl, hmore⟩
  have hnone : attemptsOf level more = [] := by
    refine attemptsOf_eq_nil fun a ha hat => ?_
    exact absurd (hmore a ha).2 (by omega)
  rw [attemptsOf_append, hnone, List.append_nil]

theorem blocksOf_eq (h : GoesOn (Attempt.UpTo n) ledger ledger') (hlevel : n < level) :
    blocksOf level ledger' = blocksOf level ledger := by
  rw [blocksOf, h.attemptsOf_eq hlevel, blocksOf]

end GoesOn

end levels

/-! ### What every read keeps -/

namespace Layers

variable (E : Engine ε) (bound : Nat)

/-- **A read adds to the ledger**, and only steps of the passes that it reads from. -/
theorem grows_ledger (n : Nat) (ledger : List Attempt) :
    (readLogged .ledger E bound n).Preserves fun l => GoesOn (Attempt.UpTo n) ledger l.log := by
  refine grows_readLogged (fun n a ha => ⟨ha.1, Nat.le_succ_of_le ha.2⟩)
    (fun n events result a ha => ?_) E bound n ledger
  cases ha
  exact ⟨Nat.le_add_left 1 n, Nat.le_refl _⟩

/-- Whether the session of a level has finished. -/
def Finished (level : Nat) : (n : Nat) → Layers ε n → Prop
  | 0, _ => False
  | n + 1, (o, below) =>
    if level = n + 1 then E.isFinished o.engine = true else Finished level n below

/-- **A session that has finished** makes no more blocks. -/
theorem keeps_finished (n level : Nat) (blocks : List ByteArray) :
    (readLogged .ledger E bound n).Preserves fun l =>
      Finished E level n l.state ∧ blocksOf level l.log = blocks := by
  induction n with
  | zero => exact fun _ _ _ hl => hl
  | succ n ih =>
    rintro size ⟨⟨o, below⟩, ledger'⟩ w hl
    have hfills : Outlet.Fills Attempt.ofTurn E (n + 1) (readLogged .ledger E bound n)
        (fun o s _ => Finished E level (n + 1) (o, s.state) ∧ blocksOf level s.log = blocks)
        fun o s _ => Finished E level (n + 1) (o, s.state) ∧ blocksOf level s.log = blocks := by
      refine ⟨fun o s w hs _ _ hfinished => ?_, fun _ _ _ hs _ _ => hs, fun _ _ _ hs => hs⟩
      -- A session that has finished makes no step, and a step of another level is no block of it.
      by_cases hlevel : level = n + 1
      · rw [Finished, if_pos hlevel, hfinished] at hs
        exact absurd hs.1 Bool.false_ne_true
      rw [Finished, if_neg hlevel] at hs
      have hadd : ∀ {o : Outlet ε} {s : Logged Attempt (Layers ε n)} {a : Attempt},
          a.level = n + 1 → Finished E level n s.state ∧ blocksOf level s.log = blocks →
          Finished E level (n + 1) (o, (s.add a).state) ∧
            blocksOf level (s.add a).log = blocks := by
        intro o s a ha h
        rw [Finished, if_neg hlevel, blocksOf_add_of_ne s (by omega)]
        exact h
      exact (ih.meets (Step.traced E.next) hs).mono (fun _ _ _ _ h => hadd rfl h)
        fun _ _ _ _ h => hadd rfl h
    have hread := run_readLogged hfills size o below ledger' w hl
    generalize w.run (readLogged .ledger E bound (n + 1) size _) = x at hread ⊢
    rcases x with ⟨⟨e | bytes, ⟨o', below'⟩, ledger'⟩, w'⟩
    · exact hread
    · exact hread.choose_spec.1

/-- What is known of a pass by its ledger: what it has handed out and what waits in its outlet are
its blocks, and its outlet has come to its end only if its session has. -/
def Handed : (n : Nat) → Supply (Logged Attempt (Layers ε n))
  | 0 => fun _ _ _ _ => True
  | n + 1 => fun l _ given ended =>
    given ++ l.state.1.pending = concat (blocksOf (n + 1) l.log) ∧
      (l.state.1.ended = true →
        E.isFinished l.state.1.engine = true ∧ l.state.1.pending = .empty) ∧
      (ended = true → l.state.1.ended = true)

/-- What a pass has made is what it has handed out and what waits in its outlet. -/
theorem Handed.size_add {E : Engine ε} {n : Nat} {o : Outlet ε} {below : Layers ε n}
    {ledger : List Attempt} {w : World} {given : ByteArray} {ended : Bool}
    (h : Handed E (n + 1) ⟨(o, below), ledger⟩ w given ended) :
    given.size + o.pending.size = (concat (blocksOf (n + 1) ledger)).size := by
  rw [← ByteArray.size_append]
  exact congrArg ByteArray.size h.1

/-- What has been handed out at the end of passes. -/
theorem Handed.eq_concat {E : Engine ε} {n : Nat} {l : Logged Attempt (Layers ε n)} {w : World}
    {given : ByteArray} (h : Handed E n l w given true) (hn : n ≠ 0) :
    concat (blocksOf n l.log) = given := by
  cases n with
  | zero => exact absurd rfl hn
  | succ n =>
    rcases l with ⟨⟨o, below⟩, ledger⟩
    have hall := h.1
    dsimp only at hall
    rw [(h.2.1 (h.2.2 rfl)).2, ByteArray.append_empty] at hall
    exact hall.symm

theorem inputOnly_handed (n : Nat) : InputOnly (Handed E n) := by
  intro l w given ended h w' _
  cases n with
  | zero => trivial
  | succ n => exact h

/-- **What a pass has handed out** is known by its ledger. -/
theorem supplies_handed (n : Nat) :
    Supplies (readLogged .ledger E bound n) (Handed E n) fun _ => True := by
  rintro size l w given hsize h
  cases n with
  | zero =>
    unfold Source.Gives
    split
    · trivial
    · trivial
  | succ n =>
    rcases l with ⟨⟨o, below⟩, ledger⟩
    have hfills : Outlet.Fills Attempt.ofTurn E (n + 1) (readLogged .ledger E bound n)
        (fun o s _ => given ++ o.pending = concat (blocksOf (n + 1) s.log) ∧
          (o.ended = true → E.isFinished o.engine = true ∧ o.pending = .empty))
        fun _ _ _ => True := by
      refine ⟨fun o s w hs hended hpending _ => ?_, fun o s w hs hpending hfinished => ?_,
        fun _ _ _ _ => trivial⟩
      · refine ((grows_ledger E bound n s.log).meets (Step.traced E.next)
          (.refl _ s.log)).mono (fun bytes t s' w' hgrows => ?_) fun _ _ _ _ _ => trivial
        -- Nothing waits when a step is made, so its block stands behind what was handed out.
        rw [hpending, ByteArray.append_empty] at hs
        rw [Logged.put_gave, blocksOf_add, hgrows.blocksOf_eq (Nat.lt_succ_self n), concat_append,
          ← hs.1, concat_singleton]
        exact ⟨rfl, fun he => absurd (he.symm.trans hended) (by decide)⟩
      · exact ⟨hs.1, fun _ => ⟨hfinished, hpending⟩⟩
    have hread := run_readLogged hfills size o below ledger w ⟨h.1, h.2.1⟩
    generalize w.run (readLogged .ledger E bound (n + 1) size _) = x at hread ⊢
    rcases x with ⟨⟨e | bytes, ⟨o', below'⟩, ledger'⟩, w'⟩
    · trivial
    rcases hread with ⟨pending, ⟨hblocks, hend⟩, hempty, rfl, hrest⟩
    dsimp only at hblocks hend hrest
    have hsplit : pending.extract 0 size ++ o'.pending = pending := by
      rw [hrest, ByteArray.extract_append_extract, Nat.zero_min, ByteArray.extract_zero_max_size]
    refine ⟨?_, fun he => ?_, fun he => ?_⟩
    · rw [ByteArray.append_assoc, hsplit]
      exact hblocks
    · rcases hend he with ⟨hfinished, hpending⟩
      refine ⟨hfinished, ?_⟩
      rw [hpending] at hsplit
      exact (ByteArray.append_eq_empty_iff.1 hsplit).2
    · -- A read that finds nothing finds the end.
      refine hempty ?_
      have hnone := ByteArray.size_eq_zero_iff.2 (isEmpty_iff.1 he)
      rw [ByteArray.size_extract] at hnone
      rw [← ByteArray.size_eq_zero_iff]
      omega

end Layers

end SealedStream
