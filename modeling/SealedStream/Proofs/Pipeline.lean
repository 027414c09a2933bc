import SealedStream.Proofs.Source

/-!
# Sessions that read from sessions

An outlet makes a source of a session: what the session is known to have given, whatever the sizes
of its blocks, is what the outlet supplies, whatever the sizes of the reads (`supplies_outlet`).
Since outlets nest, what is known of the innermost session follows from what is known of the input,
one pass after another.

* `Engine.Keeps`: what has to be known of the steps of a session.
* `readFrom_of_supplies`: everything that a pipeline supplies can be read.

The loops of outlets and of `readAll` take bounds.  An invariant bounds how many blocks without
bytes may come in a row; where nothing is to be said of failures, it need not.
-/

namespace SealedStream

variable {ε ρ α : Type}

/-! ### Outlets -/

/-- What is known of a session: how many blocks without bytes it may give in a row, its state, and
the bytes that it has given. -/
abbrev Given (ε ρ : Type) := Nat → ε → ρ → World → ByteArray → Prop

/-- Each step of a session keeps `Inv`, or fails with a fault in `bad`. -/
structure Engine.Keeps (E : Engine ε) (read : Source ρ) (bound : Nat) (Inv : Given ε ρ)
    (bad : Fault → Prop) : Prop where
  next : ∀ ⦃k e l w given⦄, Inv k e l w given → E.isFinished e = false →
    Meets read E.next e l w
      (fun bytes e l w => ∃ k', Inv k' e l w (given ++ bytes) ∧
        (bytes = .empty → k' < k ∨ bad .unbounded))
      fun fault _ _ _ => bad fault
  bounded : ∀ ⦃k e l w given⦄, Inv k e l w given → k + 2 ≤ bound ∨ bad .unbounded

/-- The outlet of a session that reads from a source, as a source. -/
def Source.outlet (E : Engine ε) (bound : Nat) (read : Source ρ) : Source (Outlet ε × ρ) :=
  fun size l => do
    let ((result, o), below) ←
      (Outlet.read E bound size l.1).serve (J := Host) (serveReads read) l.2
    return (result, (o, below))

namespace Outlet

variable (E : Engine ε) (Inv : Given ε ρ)

/-- What is known of an outlet.  The bytes that wait in it have been given by the session, but not
by the outlet. -/
structure Holds (given : ByteArray) (o : Outlet ε) (l : ρ) (w : World) : Prop where
  engine : ∃ k, Inv k o.engine l w (given ++ o.pending)
  atEnd : o.ended = true → E.isFinished o.engine = true ∧ o.pending = .empty

/-- What an outlet supplies. -/
def Supply : SealedStream.Supply (Outlet ε × ρ) := fun l w given ended =>
  Holds E Inv given l.1 l.2 w ∧ (ended = true → l.1.ended = true)

variable {E Inv} {read : Source ρ} {bound : Nat} {bad : Fault → Prop}

/-- **Filling an outlet** leaves bytes in it, or finds the end of its session.  The induction is on
the bound: each block without bytes uses up one of those that may come in a row. -/
theorem run_fill (h : E.Keeps read bound Inv bad) {given : ByteArray} (n : Nat) {o : Outlet ε}
    {l : ρ} {w : World} {k : Nat} (hk : Inv k o.engine l w (given ++ o.pending))
    (hend : o.ended = true → E.isFinished o.engine = true ∧ o.pending = .empty)
    (hn : (o.pending ≠ .empty ∧ 0 < n) ∨ k + 2 ≤ n ∨ bad .unbounded) :
    match read.run (Outlet.fill E n o) l w with
    | (((.ok _, o'), l'), w') => Holds E Inv given o' l' w' ∧
        (o'.pending = .empty → o'.ended = true)
    | (((.error e, _), _), _) => bad (.ofIoFault e) := by
  induction n generalizing o l w k with
  | zero =>
    refine (?_ : bad (.ofIoFault (Fault.toIoFault .unbounded)))
    rw [Fault.ofIoFault_toIoFault]
    exact (hn.resolve_left fun h => (Nat.lt_irrefl 0 h.2)).resolve_left (by omega)
  | succ n ih =>
    unfold Outlet.fill
    by_cases hready : (o.ended || !o.pending.isEmpty) = true
    · -- Bytes wait, or the end has been found before.
      rw [if_pos hready]
      refine ⟨⟨⟨k, hk⟩, hend⟩, fun hp => ?_⟩
      rw [isEmpty_iff.2 hp, Bool.not_true, Bool.or_false] at hready
      exact hready
    rw [if_neg hready]
    have hpending : o.pending = .empty := by
      rw [Bool.or_eq_true, not_or, Bool.not_eq_true', Bool.not_eq_false] at hready
      exact isEmpty_iff.1 hready.2
    rw [hpending, ByteArray.append_empty] at hk
    by_cases hfinished : E.isFinished o.engine = true
    · -- The end is found now.
      rw [if_pos hfinished]
      refine ⟨⟨⟨k, ?_⟩, fun _ => ⟨hfinished, hpending⟩⟩, fun _ => rfl⟩
      show Inv k o.engine l w (given ++ o.pending)
      rwa [hpending, ByteArray.append_empty]
    rw [if_neg hfinished, Source.run_bind]
    have hm := h.next hk (Bool.eq_false_iff.2 hfinished)
    unfold Meets at hm
    generalize read.run (E.next o.engine) l w = x at hm
    obtain ⟨⟨⟨fault | bytes, e⟩, l⟩, w⟩ := x
    · refine (?_ : bad (.ofIoFault fault.toIoFault))
      rw [Fault.ofIoFault_toIoFault]
      exact hm
    · -- With bytes, the next round ends; without, fewer such blocks may follow.
      obtain ⟨k', hk', hless⟩ := hm
      refine ih hk' (fun he => ?_) ?_
      · rw [Bool.or_eq_true, not_or] at hready
        exact absurd he hready.1
      · by_cases hb : bytes = .empty
        · rcases hless hb with hless | hbad
          · rcases hn with hn | hn | hn
            · exact absurd hpending hn.1
            · exact .inr (.inl (by omega))
            · exact .inr (.inr hn)
          · exact .inr (.inr hbad)
        · rcases hn with hn | hn | hn
          · exact absurd hpending hn.1
          · exact .inl ⟨hb, by omega⟩
          · exact .inr (.inr hn)

theorem supply_start {e : ε} {l : ρ} {w : World} {k : Nat} (h : Inv k e l w .empty) :
    Supply E Inv ({ engine := e }, l) w .empty false := by
  refine ⟨⟨⟨k, ?_⟩, fun h => by cases h⟩, fun h => by cases h⟩
  show Inv k e l w (.empty ++ .empty)
  rwa [ByteArray.append_empty]

/-- What is known of a session, when its outlet has come to its end. -/
theorem Supply.finished {l : Outlet ε × ρ} {w : World} {given : ByteArray}
    (h : Supply E Inv l w given true) :
    ∃ k, Inv k l.1.engine l.2 w given ∧ E.isFinished l.1.engine = true := by
  obtain ⟨⟨⟨k, hk⟩, hend⟩, hended⟩ := h
  obtain ⟨hfinished, hpending⟩ := hend (hended rfl)
  rw [hpending, ByteArray.append_empty] at hk
  exact ⟨k, hk, hfinished⟩

end Outlet

/-- **An outlet supplies** what its session gives. -/
theorem supplies_outlet {E : Engine ε} {Inv : Given ε ρ} {read : Source ρ} {bound : Nat}
    {bad : Fault → Prop} (h : E.Keeps read bound Inv bad) :
    Supplies (Source.outlet E bound read) (Outlet.Supply E Inv) bad := by
  rintro n ⟨o, l⟩ w given hn ⟨⟨⟨k, hk⟩, hend⟩, -⟩
  have hf := Outlet.run_fill h bound hk hend (.inr (h.bounded hk))
  have hrun : w.run (Source.outlet E bound read n (o, l))
      = (((read.run (Outlet.read E bound n o) l w).1.1.1,
          ((read.run (Outlet.read E bound n o) l w).1.1.2,
            (read.run (Outlet.read E bound n o) l w).1.2)),
        (read.run (Outlet.read E bound n o) l w).2) := by
    rw [Source.outlet, World.run_bind]
    rfl
  rw [hrun, Outlet.read, Source.run_bind]
  generalize read.run (Outlet.fill E bound o) l w = x at hf
  obtain ⟨⟨⟨e | u, o'⟩, l'⟩, w'⟩ := x
  · exact hf
  obtain ⟨⟨⟨k', hk'⟩, hend'⟩, hempty⟩ := hf
  have hsplit : given ++ o'.pending.extract 0 n ++ o'.pending.extract n o'.pending.size
      = given ++ o'.pending := by
    rw [ByteArray.append_assoc, ByteArray.extract_append_extract, Nat.zero_min,
      ByteArray.extract_zero_max_size]
  refine ⟨⟨⟨k', ?_⟩, fun he => ?_⟩, fun he => ?_⟩
  · show Inv k' o'.engine l' w' (given ++ o'.pending.extract 0 n ++ o'.pending.extract n _)
    rwa [hsplit]
  · obtain ⟨hfinished, hpending⟩ := hend' he
    refine ⟨hfinished, ?_⟩
    show o'.pending.extract n o'.pending.size = .empty
    rw [hpending, ← ByteArray.size_eq_zero_iff, ByteArray.size_extract]
    exact Nat.sub_eq_zero_of_le (Nat.le_trans (Nat.min_le_right _ _) (Nat.zero_le n))
  · -- A read that finds nothing finds the end.
    have hnone : o'.pending.extract 0 n = .empty := isEmpty_iff.1 he
    refine hempty ?_
    rw [← ByteArray.size_eq_zero_iff] at hnone ⊢
    rw [ByteArray.size_extract] at hnone
    omega

/-! ### Pipelines -/

namespace Pipeline

variable (E : Engine ε) (bound : Nat)

theorem run_feed (session : Program Host α) (p : Pipeline ε) (w : World) :
    w.run (p.feed E bound session)
      = (((Source.run (Layers.read E bound p.depth) session p.layers w).1.1,
          ⟨p.depth, (Source.run (Layers.read E bound p.depth) session p.layers w).1.2⟩),
        (Source.run (Layers.read E bound p.depth) session p.layers w).2) := by
  rw [feed, World.run_bind]
  rfl

theorem run_read (size : Nat) (p : Pipeline ε) (w : World) :
    w.run (p.read E bound size)
      = (((w.run (p.layers.read E bound p.depth size)).1.1,
          ⟨p.depth, (w.run (p.layers.read E bound p.depth size)).1.2⟩),
        (w.run (p.layers.read E bound p.depth size)).2) := by
  rw [read, World.run_bind]
  rfl

/-- The loop of `readFrom`, which keeps the passes as they are at its end. -/
def drainFrom : (n : Nat) → (out : ByteArray) → Pipeline ε →
    Program Host (Except Fault ByteArray × Pipeline ε)
  | 0, _, p => .done (.error .unbounded, p)
  | n + 1, out, p => do
    let (result, p) ← p.read E bound pieceSize
    match result with
    | .error e => return (.error (.ofIoFault e), p)
    | .ok bytes => if bytes.isEmpty then return (.ok out, p) else drainFrom n (out ++ bytes) p

theorem run_readFrom (n : Nat) (out : ByteArray) (p : Pipeline ε) (w : World) :
    w.run (readFrom E bound n out p)
      = ((w.run (drainFrom E bound n out p)).1.1, (w.run (drainFrom E bound n out p)).2) := by
  induction n generalizing out p w with
  | zero => rfl
  | succ n ih =>
    unfold readFrom drainFrom
    rw [World.run_bind, World.run_bind]
    generalize w.run (p.read E bound pieceSize) = x
    obtain ⟨⟨e | bytes, p⟩, w⟩ := x
    · rfl
    · dsimp only
      split
      · rfl
      · exact ih _ _ _

variable {E bound}

/-- **Reading everything** a pipeline supplies, which is fewer than `limit` bytes.  The induction is
on the number of pieces that may follow, each of which has bytes. -/
theorem run_drainFrom {depth : Nat} {Src : Supply (Layers ε depth)} {bad : Fault → Prop}
    {limit : Nat} (hs : Supplies (Layers.read E bound depth) Src bad)
    (hlimit : (∀ ⦃l w given ended⦄, Src l w given ended → given.size < limit) ∨ bad .unbounded)
    (n : Nat) {out : ByteArray} {l : Layers ε depth} {w : World} (h : Src l w out false)
    (hn : limit ≤ out.size + n) :
    match w.run (drainFrom E bound n out ⟨depth, l⟩) with
    | ((.ok all, p), w') => ∃ l', p = ⟨depth, l'⟩ ∧ Src l' w' all true
    | ((.error fault, _), _) => bad fault := by
  induction n generalizing out l w with
  | zero =>
    refine (?_ : bad .unbounded)
    refine hlimit.resolve_left fun hlt => ?_
    have := hlt h
    omega
  | succ n ih =>
    unfold drainFrom
    rw [World.run_bind, run_read]
    have hg := hs (by decide : 0 < pieceSize) h
    generalize w.run (Layers.read E bound depth pieceSize l) = x at hg
    obtain ⟨⟨e | bytes, l'⟩, w'⟩ := x
    · exact hg
    change Src l' w' (out ++ bytes) bytes.isEmpty at hg
    by_cases hempty : bytes.isEmpty = true
    · -- A piece without bytes is the end.
      simp only [if_pos hempty]
      rw [hempty, isEmpty_iff.1 hempty, ByteArray.append_empty] at hg
      exact ⟨l', rfl, hg⟩
    · simp only [if_neg hempty]
      rw [Bool.eq_false_iff.2 hempty] at hg
      have hsize : bytes.size ≠ 0 := fun h =>
        hempty (isEmpty_iff.2 (ByteArray.size_eq_zero_iff.1 h))
      refine ih hg ?_
      rw [ByteArray.size_append]
      omega

/-- The same, when nothing is asked about the passes at the end. -/
theorem readFrom_of_supplies {depth : Nat} {Src : Supply (Layers ε depth)} {bad : Fault → Prop}
    {limit : Nat} (hs : Supplies (Layers.read E bound depth) Src bad)
    (hlimit : (∀ ⦃l w given ended⦄, Src l w given ended → given.size < limit) ∨ bad .unbounded)
    (n : Nat) {out : ByteArray} {l : Layers ε depth} {w : World} (h : Src l w out false)
    (hn : limit ≤ out.size + n) :
    match w.run (readFrom E bound n out ⟨depth, l⟩) with
    | (.ok all, w') => ∃ l', Src l' w' all true
    | (.error fault, _) => bad fault := by
  have hdrain := run_drainFrom hs hlimit n h hn
  rw [run_readFrom]
  generalize w.run (drainFrom E bound n out ⟨depth, l⟩) = x at hdrain
  obtain ⟨⟨fault | all, p⟩, w'⟩ := x
  · exact hdrain
  · obtain ⟨l', -, hsrc⟩ := hdrain
    exact ⟨l', hsrc⟩

end Pipeline

end SealedStream
