import SealedStream.Proofs.Log

/-!
# What reads with a log keep

Whatever is to be shown of a read from nested passes is shown of the turns of their sessions: an
outlet asks its session for blocks, and the session reads from the outlet below.  `Outlet.Fills`
says what has to be known of one session for this, and `Layers.run_readLogged` what is then known of
a read.  The logs are those in which only turns are put down.

* `Layers.grows_readLogged`: a read adds to the log, and only what turns of sessions are put down
  as.
* `Pipeline.exists_readEach_of_drain`, `Pipeline.Drains`: everything is read by enough reads, and
  what the reads keep is kept up to the end.
-/

namespace SealedStream

variable {ι ε ρ σ τ α : Type}

/-! ### Properties of a source -/

/-- Reads keep a property of the state of a source. -/
def Source.Preserves (read : Source ρ) (K : ρ → Prop) : Prop :=
  ∀ ⦃n : Nat⦄ ⦃l : ρ⦄ ⦃w : World⦄, K l → K (w.run (read n l)).1.2

/-- What reads keep, a program that reads keeps. -/
theorem Source.Preserves.run {read : Source ρ} {K : ρ → Prop} (h : read.Preserves K)
    (p : Program Host α) {l : ρ} {w : World} (hl : K l) : K (read.run p l w).1.2 := by
  induction p generalizing l w with
  | done a => exact hl
  | ask r next ih =>
    cases r with
    | read n =>
      rw [run_ask_read]
      exact ih _ (h hl)
    | draw n => exact ih _ hl
    | password info => exact ih _ hl
    | derive derivation => exact ih _ hl

theorem Source.Preserves.of_run {read : Source ρ} {K : ρ → Prop} (h : read.Preserves K) {n : Nat}
    {l l' : ρ} {w w' : World} {result : Except IoFault ByteArray} (hl : K l)
    (hrun : w.run (read n l) = ((result, l'), w')) : K l' := by
  have hkept : K (w.run (read n l)).1.2 := h hl
  rw [hrun] at hkept
  exact hkept

theorem Source.Preserves.meets {read : Source ρ} {K : ρ → Prop} (h : read.Preserves K)
    (step : Step σ α) {s : σ} {l : ρ} {w : World} (hl : K l) :
    Meets read step s l w (fun _ _ l _ => K l) fun _ _ l _ => K l := by
  have hrun := h.run (step s) (w := w) hl
  unfold Meets
  generalize read.run (step s) l w = x at hrun
  rcases x with ⟨⟨⟨fault | a, s'⟩, l'⟩, w'⟩
  · exact hrun
  · exact hrun

/-! ### Turns -/

section turns

variable {turn : (level : Nat) → List Event → Turn → Option ι} {level : Nat}
  {read : Source (Logged ι σ)}

/-- A turn of a session: what happens in it, and then the entry for it. -/
theorem Logger.run_ofTurns (outcome : α → Turn) (session : Program Host α) (s : Logged ι σ)
    (w : World) :
    w.run ((ofTurns turn).run level read outcome session s)
      = (((read.run (session.traced []) s w).1.1.1,
          (read.run (session.traced []) s w).1.2.put
            (turn level (read.run (session.traced []) s w).1.1.2
              (outcome (read.run (session.traced []) s w).1.1.1))),
        (read.run (session.traced []) s w).2) := by
  rw [Logger.run, serve_ofTurns, World.run_bind]
  rfl

/-- What a step ends with when its turn is put down. -/
theorem Meets.of_run_ofTurns (turn : (level : Nat) → List Event → Turn → Option ι) (level : Nat)
    {step : Step τ ByteArray} {t : τ} {s : Logged ι σ} {w : World}
    {good : ByteArray → τ × List Event → Logged ι σ → World → Prop}
    {bad : Fault → τ × List Event → Logged ι σ → World → Prop}
    (h : Meets read (Step.traced step) (t, []) s w good bad) :
    match w.run ((Logger.ofTurns turn).run level read (fun x => .ofBlock x.1) (step t) s) with
    | (((.ok bytes, t'), s'), w') => ∃ events l,
        s' = l.put (turn level events (.gave bytes)) ∧ good bytes (t', events) l w'
    | (((.error fault, t'), s'), w') => ∃ events l,
        s' = l.put (turn level events (.failed fault)) ∧ bad fault (t', events) l w' := by
  unfold Meets at h
  rw [Step.traced, Source.run_bind] at h
  rw [Logger.run_ofTurns]
  generalize read.run ((step t).traced []) s w = x at h
  rcases x with ⟨⟨⟨⟨fault | bytes, t'⟩, events⟩, l⟩, w'⟩
  · exact ⟨events, l, rfl, h⟩
  · exact ⟨events, l, rfl, h⟩

end turns

/-! ### Filling an outlet -/

/-- What has to be known of the turns of a session, so that filling its outlet keeps `Inv` or ends
with `Fails`. -/
structure Outlet.Fills (turn : (level : Nat) → List Event → Turn → Option ι) (E : Engine ε)
    (level : Nat) (read : Source (Logged ι σ))
    (Inv Fails : Outlet ε → Logged ι σ → World → Prop) : Prop where
  step : ∀ ⦃o s w⦄, Inv o s w → o.ended = false → o.pending = .empty →
    E.isFinished o.engine = false →
    Meets read (Step.traced E.next) (o.engine, []) s w
      (fun bytes t s w => Inv { o with engine := t.1, pending := bytes }
        (s.put (turn level t.2 (.gave bytes))) w)
      fun fault t s w => Fails { o with engine := t.1, ended := true }
        (s.put (turn level t.2 (.failed fault))) w
  finish : ∀ ⦃o s w⦄, Inv o s w → o.pending = .empty → E.isFinished o.engine = true →
    Inv { o with ended := true } s w
  /-- The loop over blocks without bytes has a bound. -/
  bounded : ∀ ⦃o s w⦄, Inv o s w → Fails { o with ended := true } s w

section fills

variable {turn : (level : Nat) → List Event → Turn → Option ι} {E : Engine ε} {level : Nat}
  {read : Source (Logged ι σ)} {Inv Fails : Outlet ε → Logged ι σ → World → Prop}

/-- **Filling an outlet** leaves bytes in it, or finds the end of its session, or fails.  The
induction is on the bound. -/
theorem Outlet.run_fillLogged (h : Fills turn E level read Inv Fails) (n : Nat) {o : Outlet ε}
    {s : Logged ι σ} {w : World} (hinv : Inv o s w) :
    match w.run (fillLogged (.ofTurns turn) E level read n o s) with
    | (((.ok _, o'), s'), w') => Inv o' s' w' ∧ (o'.pending = .empty → o'.ended = true)
    | (((.error _, o'), s'), w') => Fails o' s' w' := by
  induction n generalizing o s w with
  | zero => exact h.bounded hinv
  | succ n ih =>
    unfold fillLogged
    by_cases hready : (o.ended || !o.pending.isEmpty) = true
    · rw [if_pos hready]
      refine ⟨hinv, fun hp => ?_⟩
      rw [isEmpty_iff.2 hp, Bool.not_true, Bool.or_false] at hready
      exact hready
    rw [if_neg hready]
    rw [Bool.or_eq_true, not_or, Bool.not_eq_true, Bool.not_eq_true', Bool.not_eq_false,
      isEmpty_iff] at hready
    by_cases hfinished : E.isFinished o.engine = true
    · rw [if_pos hfinished]
      exact ⟨h.finish hinv hready.2 hfinished, fun _ => rfl⟩
    rw [if_neg hfinished, World.run_bind]
    have hstep := (h.step hinv hready.1 hready.2 (Bool.eq_false_iff.2 hfinished)).of_run_ofTurns
      turn level
    generalize w.run ((Logger.ofTurns turn).run level read _ (E.next o.engine) s) = x at hstep ⊢
    rcases x with ⟨⟨⟨fault | bytes, engine⟩, s'⟩, w'⟩
    · rcases hstep with ⟨events, l, rfl, hfails⟩
      exact hfails
    · rcases hstep with ⟨events, l, rfl, hkept⟩
      exact ih hkept

theorem Layers.run_readLogged_zero (turn : (level : Nat) → List Event → Turn → Option ι)
    (E : Engine ε) (bound size : Nat) (s : Logged ι (Layers ε 0)) (w : World) :
    w.run (readLogged (.ofTurns turn) E bound 0 size s)
      = (((readItems size w.input).1, s), { w with input := (readItems size w.input).2 }) :=
  rfl

/-- **A read from nested passes** hands out what its outlet has been filled with. -/
theorem Layers.run_readLogged {bound n : Nat}
    {Inv Fails : Outlet ε → Logged ι (Layers ε n) → World → Prop}
    (h : Outlet.Fills turn E (n + 1) (readLogged (.ofTurns turn) E bound n) Inv Fails) (size : Nat)
    (o : Outlet ε) (below : Layers ε n) (log : List ι) (w : World) (hinv : Inv o ⟨below, log⟩ w) :
    match w.run (readLogged (.ofTurns turn) E bound (n + 1) size ⟨(o, below), log⟩) with
    | ((.ok bytes, ⟨(o', below'), log'⟩), w') => ∃ pending,
        Inv { o' with pending } ⟨below', log'⟩ w' ∧ (pending = .empty → o'.ended = true) ∧
        bytes = pending.extract 0 size ∧ o'.pending = pending.extract size pending.size
    | ((.error _, ⟨(o', below'), log'⟩), w') => Fails o' ⟨below', log'⟩ w' := by
  have hfill := Outlet.run_fillLogged h bound hinv
  unfold readLogged Outlet.readLogged
  rw [World.run_bind, World.run_bind]
  generalize w.run (Outlet.fillLogged (.ofTurns turn) E (n + 1)
    (readLogged (.ofTurns turn) E bound n) bound o ⟨below, log⟩) = x at hfill
  rcases x with ⟨⟨⟨e | ⟨⟩, o'⟩, below', log'⟩, w'⟩
  · exact hfill
  · exact ⟨o'.pending, hfill.1, hfill.2, rfl, rfl⟩

end fills

/-! ### Logs that go on -/

/-- A log goes on with entries that have a property. -/
def GoesOn (P : ι → Prop) (log log' : List ι) : Prop :=
  ∃ more, log' = log ++ more ∧ ∀ i ∈ more, P i

namespace GoesOn

variable {P Q : ι → Prop} {log log' later : List ι}

theorem refl (P : ι → Prop) (log : List ι) : GoesOn P log log :=
  ⟨[], (List.append_nil _).symm, nofun⟩

theorem trans (h : GoesOn P log log') (h' : GoesOn P log' later) : GoesOn P log later := by
  rcases h with ⟨more, rfl, hmore⟩
  rcases h' with ⟨more', rfl, hmore'⟩
  exact ⟨more ++ more', List.append_assoc .., List.forall_mem_append.2 ⟨hmore, hmore'⟩⟩

theorem mono (h : GoesOn P log log') (hPQ : ∀ i, P i → Q i) : GoesOn Q log log' := by
  rcases h with ⟨more, rfl, hmore⟩
  exact ⟨more, rfl, fun i hi => hPQ i (hmore i hi)⟩

theorem put {s : Logged ι σ} (h : GoesOn P log s.log) {entry : Option ι}
    (hentry : ∀ i, entry = some i → P i) : GoesOn P log (s.put entry).log := by
  cases entry with
  | none => exact h
  | some i =>
    exact h.trans ⟨[i], rfl, fun j hj => by rw [List.mem_singleton.1 hj]; exact hentry i rfl⟩

theorem isPrefix (h : GoesOn P log log') : log <+: log' := by
  rcases h with ⟨more, rfl, -⟩
  exact List.prefix_append log more

/-- Where no entry is possible, the log stays as it is. -/
theorem eq_of_false (h : GoesOn (fun _ => False) log log') : log' = log := by
  rcases h with ⟨more, rfl, hmore⟩
  rw [List.eq_nil_iff_forall_not_mem.2 hmore, List.append_nil]

end GoesOn

/-- **A read adds to the log**, and only what the turns of the passes that it reads from are put
down as.  The induction is on their number. -/
theorem Layers.grows_readLogged {turn : (level : Nat) → List Event → Turn → Option ι}
    {P : Nat → ι → Prop} (hmono : ∀ n i, P n i → P (n + 1) i)
    (hturn : ∀ n events result i, turn (n + 1) events (.ofBlock result) = some i → P (n + 1) i)
    (E : Engine ε) (bound n : Nat) (log : List ι) :
    (readLogged (.ofTurns turn) E bound n).Preserves fun l => GoesOn (P n) log l.log := by
  induction n generalizing log with
  | zero => exact fun _ _ _ hl => hl
  | succ n ih =>
    rintro size ⟨⟨o, below⟩, log'⟩ w hl
    have hfills : Outlet.Fills turn E (n + 1) (readLogged (.ofTurns turn) E bound n)
        (fun _ s _ => GoesOn (P (n + 1)) log s.log) fun _ s _ => GoesOn (P (n + 1)) log s.log := by
      refine ⟨fun o s w hs _ _ _ => ?_, fun _ _ _ hs _ _ => hs, fun _ _ _ hs => hs⟩
      refine ((ih s.log).meets (Step.traced E.next) (.refl _ s.log)).mono
        (fun bytes t l w h => ?_) fun fault t l w h => ?_
      · exact (hs.trans (h.mono (hmono n))).put (hturn n t.2 (.ok bytes))
      · exact (hs.trans (h.mono (hmono n))).put (hturn n t.2 (.error fault))
    have hread := run_readLogged hfills size o below log' w hl
    generalize w.run (readLogged (.ofTurns turn) E bound (n + 1) size _) = x at hread ⊢
    rcases x with ⟨⟨e | bytes, ⟨o', below'⟩, log'⟩, w'⟩
    · exact hread
    · exact hread.choose_spec.1

/-! ### Reading to the end -/

/-- The nested passes of a pipeline. -/
def Logged.layers (s : Logged ι (Pipeline ε)) : Logged ι (Layers ε s.state.depth) :=
  ⟨s.state.layers, s.log⟩

namespace Pipeline

variable {L : Logger ι} {E : Engine ε} {bound : Nat}

theorem run_readLogged {size : Nat} {s : Logged ι (Pipeline ε)}
    {l : Logged ι (Layers ε s.state.depth)} {result : Except IoFault ByteArray} {w w' : World}
    (h : w.run (Layers.readLogged L E bound s.state.depth size ⟨s.state.layers, s.log⟩)
      = ((result, l), w')) :
    w.run (readLogged L E bound size s)
      = ((result, ⟨⟨s.state.depth, l.state⟩, l.log⟩), w') := by
  rw [readLogged, World.run_bind, h]
  rfl

/-- A read, and the others after it. -/
theorem run_readEachLogged_cons {size : Nat} {sizes : List Nat} {s s' s'' : Logged ι (Pipeline ε)}
    {result : Except IoFault ByteArray} {results : List (Except IoFault ByteArray)}
    {w w' w'' : World} (h : w.run (readLogged L E bound size s) = ((result, s'), w'))
    (hrest : w'.run (readEachLogged L E bound sizes s') = ((results, s''), w'')) :
    w.run (readEachLogged L E bound (size :: sizes) s) = ((result :: results, s''), w'') := by
  rw [readEachLogged, World.run_bind, h, World.run_bind, hrest]
  rfl

/-- Everything is read by reads of the largest piece, as many as it takes. -/
theorem exists_readEach_of_drain (n : Nat) (out : ByteArray) (s : Logged ι (Pipeline ε))
    (w : World) :
    ∃ count results, w.run (readEachLogged L E bound (List.replicate count pieceSize) s)
      = ((results, (w.run (drainLogged L E bound n out s)).1.2),
        (w.run (drainLogged L E bound n out s)).2) := by
  induction n generalizing out s w with
  | zero => exact ⟨0, [], rfl⟩
  | succ n ih =>
    unfold drainLogged
    rw [World.run_bind]
    rcases hread : w.run (readLogged L E bound pieceSize s) with ⟨⟨e | bytes, s'⟩, w'⟩
    · exact ⟨1, _, run_readEachLogged_cons hread rfl⟩
    · dsimp only
      split
      · exact ⟨1, _, run_readEachLogged_cons hread rfl⟩
      · rcases ih (out ++ bytes) s' w' with ⟨count, results, hrest⟩
        exact ⟨count + 1, _, run_readEachLogged_cons hread hrest⟩

/-! ### What is kept up to the end -/

variable {s s' : Logged ι (Pipeline ε)} {w w' : World}

/-- A read of a pipeline is one of its passes. -/
theorem exists_run_layers {size : Nat} {result : Except IoFault ByteArray}
    (h : w.run (readLogged L E bound size s) = ((result, s'), w')) :
    ∃ l, w.run (Layers.readLogged L E bound s.state.depth size s.layers) = ((result, l), w') ∧
      s' = ⟨⟨s.state.depth, l.state⟩, l.log⟩ := by
  rcases hread : w.run (Layers.readLogged L E bound s.state.depth size s.layers) with
    ⟨⟨result', l⟩, w''⟩
  rw [run_readLogged hread] at h
  cases h
  exact ⟨l, rfl, rfl⟩

/-- Reads in pieces of any size give `rest`, up to the end, and lead to the last state and world. -/
inductive Drains (L : Logger ι) (E : Engine ε) (bound : Nat) :
    Logged ι (Pipeline ε) → World → (rest : ByteArray) → Logged ι (Pipeline ε) → World → Prop
  | done {size : Nat} {s s' : Logged ι (Pipeline ε)} {w w' : World} : 0 < size →
    w.run (readLogged L E bound size s) = ((.ok .empty, s'), w') → Drains L E bound s w .empty s' w'
  | piece {size : Nat} {bytes rest : ByteArray} {s s₁ s' : Logged ι (Pipeline ε)}
      {w w₁ w' : World} : 0 < size →
    w.run (readLogged L E bound size s) = ((.ok bytes, s₁), w₁) → bytes ≠ .empty →
    Drains L E bound s₁ w₁ rest s' w' → Drains L E bound s w (bytes ++ rest) s' w'

/-- Everything is read in pieces. -/
theorem drains_of_drainLogged {n : Nat} {out all : ByteArray}
    (h : w.run (drainLogged L E bound n out s) = ((.ok all, s'), w')) :
    ∃ rest, all = out ++ rest ∧ Drains L E bound s w rest s' w' := by
  induction n generalizing out s w with
  | zero => cases h
  | succ n ih =>
    unfold drainLogged at h
    rw [World.run_bind] at h
    rcases hread : w.run (readLogged L E bound pieceSize s) with ⟨⟨e | bytes, s₁⟩, w₁⟩
    · rw [hread] at h
      cases h
    rw [hread] at h
    dsimp only at h
    by_cases hempty : bytes.isEmpty = true
    · rw [if_pos hempty] at h
      cases h
      rw [isEmpty_iff.1 hempty] at hread
      exact ⟨.empty, ByteArray.append_empty.symm, .done (by decide) hread⟩
    · rw [if_neg hempty] at h
      obtain ⟨rest, rfl, hrest⟩ := ih h
      refine ⟨bytes ++ rest, ByteArray.append_assoc, .piece (by decide) hread ?_ hrest⟩
      exact fun he => hempty (isEmpty_iff.2 he)

theorem Drains.depth_eq {rest : ByteArray} (h : Drains L E bound s w rest s' w') :
    s'.state.depth = s.state.depth := by
  induction h with
  | done _ hread =>
    obtain ⟨l, -, rfl⟩ := exists_run_layers hread
    rfl
  | piece _ hread _ _ ih =>
    obtain ⟨l, -, rfl⟩ := exists_run_layers hread
    exact ih

/-- **What the reads of passes keep** that do not fail is kept up to the end. -/
theorem Drains.keeps {K : (n : Nat) → Logged ι (Layers ε n) → World → Prop}
    (hK : ∀ ⦃n size l w bytes l' w'⦄, K n l w →
      w.run (Layers.readLogged L E bound n size l) = ((.ok bytes, l'), w') → K n l' w')
    {rest : ByteArray} (h : Drains L E bound s w rest s' w')
    (hs : K s.state.depth s.layers w) : K s'.state.depth s'.layers w' := by
  induction h with
  | done _ hread =>
    obtain ⟨l, hlayers, rfl⟩ := exists_run_layers hread
    exact hK hs hlayers
  | piece _ hread _ _ ih =>
    obtain ⟨l, hlayers, rfl⟩ := exists_run_layers hread
    exact ih (hK hs hlayers)

end Pipeline

end SealedStream
