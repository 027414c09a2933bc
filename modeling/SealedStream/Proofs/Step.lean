import SealedStream.World

/-!
# Running steps

A session runs inside a host whose reads are served by a source: the input itself, or the outlet of
another pass.  `Source.run` is the result of a program there, and `Meets` says of a step how it
ends: with `good` if it succeeds, with `bad` if it fails.  There is one rule for each way of
building a step (`meets_bind`, `meets_get`, `meets_throw`, …), all of them equivalences, so that a
step can be taken apart from its front and each of its parts be replaced by what is known of it
(`Meets.mono`).
-/

namespace SealedStream

theorem World.run_bind {α β : Type} (p : Program Host α) (f : α → Program Host β) (w : World) :
    w.run (p >>= f) = (w.run p).2.run (f (w.run p).1) :=
  Program.run_bind (I := Host) World.answer p f w

/-! ### Sources -/

/-- What serves the reads of a session: at most so many bytes, from a state of its own. -/
abbrev Source (ρ : Type) := Nat → ρ → Program Host (Except IoFault ByteArray × ρ)

namespace Source

variable {ρ α β : Type} (read : Source ρ)

/-- The result of a program whose reads are served by a source. -/
def run (p : Program Host α) (l : ρ) (w : World) : (α × ρ) × World :=
  w.run (p.serve (J := Host) (serveReads read) l)

@[simp] theorem run_done (a : α) (l : ρ) (w : World) :
    read.run (.done a) l w = ((a, l), w) := rfl

@[simp] theorem run_pure (a : α) (l : ρ) (w : World) :
    read.run (pure a) l w = ((a, l), w) := rfl

end Source

namespace Program

variable {I J : Interface} {α β σ : Type}

/-- **Serving a sequence** is serving its parts in turn. -/
theorem serve_bind (server : (r : I.Request) → σ → Program J (I.Reply r × σ)) (p : Program I α)
    (f : α → Program I β) (s : σ) :
    (p >>= f).serve server s = p.serve server s >>= fun x => (f x.1).serve server x.2 := by
  show (Program.bind p f).serve server s = Program.bind _ _
  induction p generalizing s with
  | done a => rfl
  | ask r next ih =>
    -- What serves the request is a program itself, and is gone through by an induction of its own.
    show Program.bind _ _ = Program.bind (Program.bind _ _) _
    generalize server r s = q
    induction q with
    | done x => exact ih _ _
    | ask r' next' ih' => exact congrArg (ask r') (funext ih')

end Program

namespace Source

variable {ρ α β : Type} (read : Source ρ)

@[simp] theorem run_bind (p : Program Host α) (f : α → Program Host β) (l : ρ) (w : World) :
    read.run (p >>= f) l w =
      read.run (f (read.run p l w).1.1) (read.run p l w).1.2 (read.run p l w).2 := by
  rw [run, Program.serve_bind, World.run_bind]
  rfl

theorem run_request (r : HostRequest) (l : ρ) (w : World) :
    read.run (Program.request (I := Host) r) l w = w.run (serveReads read r l) := by
  show World.run (serveReads read r l >>= fun x => pure x) w = _
  rw [World.run_bind]
  rfl

@[simp] theorem run_read (n : Nat) (l : ρ) (w : World) :
    read.run (Host.read n) l w = w.run (read n l) :=
  run_request read (.read n) l w

@[simp] theorem run_draw (n : Nat) (l : ρ) (w : World) :
    read.run (Host.draw n) l w =
      ((World.tapeBytes w.tape w.drawn n, l), { w with drawn := w.drawn + n }) :=
  run_request read (.draw n) l w

@[simp] theorem run_password (info : PassInfo) (l : ρ) (w : World) :
    read.run (Host.password info) l w =
      ((w.provider (w.asked ++ [info]), l), { w with asked := w.asked ++ [info] }) :=
  run_request read (.password info) l w

@[simp] theorem run_derive (d : Derivation) (l : ρ) (w : World) :
    read.run (Host.derive d) l w = ((d.key, l), { w with keys := (w.keys.derive d).2 }) := by
  rw [Host.derive, run_request, ← w.keys.derive_fst d]
  rfl

end Source

/-! ### How steps end -/

variable {ρ σ τ α β : Type}

/-- A step from the state `s` ends with `good` if it succeeds, and with `bad` if it fails. -/
def Meets (read : Source ρ) (step : Step σ α) (s : σ) (l : ρ) (w : World)
    (good : α → σ → ρ → World → Prop) (bad : Fault → σ → ρ → World → Prop) : Prop :=
  match read.run (step s) l w with
  | (((.ok a, s), l), w) => good a s l w
  | (((.error fault, s), l), w) => bad fault s l w

variable {read : Source ρ} {s : σ} {l : ρ} {w : World}
  {good good' : α → σ → ρ → World → Prop} {bad bad' : Fault → σ → ρ → World → Prop}

/-- What is known of a step may be weakened. -/
theorem Meets.mono {step : Step σ α} (h : Meets read step s l w good bad)
    (hg : ∀ a s l w, good a s l w → good' a s l w)
    (hb : ∀ fault s l w, bad fault s l w → bad' fault s l w) :
    Meets read step s l w good' bad' := by
  unfold Meets at h ⊢
  split at h
  · exact hg _ _ _ _ h
  · exact hb _ _ _ _ h

/-- What is known of a step in two ways. -/
theorem Meets.and {step : Step σ α} (h : Meets read step s l w good bad)
    (h' : Meets read step s l w good' bad') :
    Meets read step s l w (fun a s l w => good a s l w ∧ good' a s l w)
      fun fault s l w => bad fault s l w ∧ bad' fault s l w := by
  unfold Meets at h h' ⊢
  generalize read.run (step s) l w = x at h h'
  rcases x with ⟨⟨⟨fault | a, s'⟩, l'⟩, w'⟩
  · exact ⟨h, h'⟩
  · exact ⟨h, h'⟩

theorem Meets.trivial (step : Step σ α) :
    Meets read step s l w (fun _ _ _ _ => True) fun _ _ _ _ => True := by
  unfold Meets
  split
  · exact True.intro
  · exact True.intro

theorem Meets.of_ok {step : Step σ α} (h : Meets read step s l w good bad) {a : α} {s' : σ} {l' : ρ}
    {w' : World} (hr : read.run (step s) l w = (((.ok a, s'), l'), w')) : good a s' l' w' := by
  rwa [Meets, hr] at h

@[simp] theorem meets_pure (a : α) :
    Meets read (pure a : Step σ α) s l w good bad ↔ good a s l w := Iff.rfl

@[simp] theorem meets_throw (fault : Fault) :
    Meets read (throw fault : Step σ α) s l w good bad ↔ bad fault s l w := Iff.rfl

@[simp] theorem meets_get {good : σ → σ → ρ → World → Prop} :
    Meets read (get : Step σ σ) s l w good bad ↔ good s s l w := Iff.rfl

@[simp] theorem meets_modify (f : σ → σ) {good : PUnit → σ → ρ → World → Prop} :
    Meets read (modify f : Step σ PUnit) s l w good bad ↔ good ⟨⟩ (f s) l w := Iff.rfl

@[simp] theorem meets_modifyGet (f : σ → α × σ) :
    Meets read (modifyGet f : Step σ α) s l w good bad ↔ good (f s).1 (f s).2 l w := Iff.rfl

/-- A check that needs no host. -/
@[simp] theorem meets_except (x : Except Fault α) :
    Meets read (liftM x : Step σ α) s l w good bad ↔
      (∀ a, x = .ok a → good a s l w) ∧ ∀ fault, x = .error fault → bad fault s l w := by
  cases x with
  | ok a => exact ⟨fun h => ⟨fun b hb => by cases hb; exact h, fun _ h' => (by cases h')⟩,
      fun h => h.1 a rfl⟩
  | error e => exact ⟨fun h => ⟨fun _ h' => (by cases h'), fun b hb => by cases hb; exact h⟩,
      fun h => h.2 e rfl⟩

theorem meets_except_of_ok {x : Except Fault α} {a : α} (h : x = .ok a) :
    Meets read (liftM x : Step σ α) s l w good bad ↔ good a s l w := by
  subst h
  rfl

/-- **The rule of sequences**: what the second step ends with is what the first has to end with. -/
@[simp] theorem meets_bind (x : Step σ α) (f : α → Step σ β) {good : β → σ → ρ → World → Prop} :
    Meets read (x >>= f) s l w good bad ↔
      Meets read x s l w (fun a s l w => Meets read (f a) s l w good bad) bad := by
  have h : (x >>= f) s = x s >>= fun r => match r with
      | (.ok a, s) => f a s
      | (.error fault, s) => pure (.error fault, s) := by
    refine congrArg (Program.bind (x s)) (funext fun r => ?_)
    obtain ⟨a | a, s⟩ := r <;> rfl
  unfold Meets
  rw [h, Source.run_bind]
  generalize read.run (x s) l w = r
  obtain ⟨⟨⟨a | a, s⟩, l⟩, w⟩ := r
  · rfl
  · rfl

theorem meets_ofProgram (p : Program Host α) :
    Meets read (Step.ofProgram p : Step σ α) s l w good bad ↔
      good (read.run p l w).1.1 s (read.run p l w).1.2 (read.run p l w).2 := by
  have h : (Step.ofProgram p : Step σ α) s
      = (p >>= fun a => pure (a, s)) >>= fun x => pure (.ok x.1, x.2) := rfl
  unfold Meets
  rw [h, Source.run_bind, Source.run_bind]
  rfl

@[simp] theorem meets_draw (n : Nat) {good : Bytes n → σ → ρ → World → Prop} :
    Meets read (Step.ofProgram (Host.draw n) : Step σ (Bytes n)) s l w good bad ↔
      good (World.tapeBytes w.tape w.drawn n) s l { w with drawn := w.drawn + n } := by
  rw [meets_ofProgram, Source.run_draw]

@[simp] theorem meets_password (info : PassInfo)
    {good : Except Fault Answer → σ → ρ → World → Prop} :
    Meets read (Step.ofProgram (Host.password info) : Step σ _) s l w good bad ↔
      good (w.provider (w.asked ++ [info])) s l { w with asked := w.asked ++ [info] } := by
  rw [meets_ofProgram, Source.run_password]

@[simp] theorem meets_derive (d : Derivation) {good : Key → σ → ρ → World → Prop} :
    Meets read (Step.ofProgram (Host.derive d) : Step σ Key) s l w good bad ↔
      good d.key s l { w with keys := (w.keys.derive d).2 } := by
  rw [meets_ofProgram, Source.run_derive]

theorem meets_onPart (part : σ → τ) (update : σ → τ → σ) (step : Step τ α) :
    Meets read (Step.onPart part update step) s l w good bad ↔
      Meets read step (part s) l w (fun a t l w => good a (update s t) l w)
        fun fault t l w => bad fault (update s t) l w := by
  have h : (Step.onPart part update step) s
      = step (part s) >>= fun x => pure (x.1, update s x.2) := rfl
  unfold Meets
  rw [h, Source.run_bind]
  generalize read.run (step (part s)) l w = r
  obtain ⟨⟨⟨a | a, s⟩, l⟩, w⟩ := r
  · rfl
  · rfl

theorem meets_tryCatch (step : Step σ α) (handle : Fault → Step σ α) :
    Meets read (tryCatch step handle) s l w good bad ↔
      Meets read step s l w good fun fault s l w => Meets read (handle fault) s l w good bad := by
  have h : (tryCatch step handle : Step σ α) s = step s >>= fun r => match r with
      | (.ok a, s) => pure (.ok a, s)
      | (.error fault, s) => handle fault s := by
    refine congrArg (Program.bind (step s)) (funext fun r => ?_)
    obtain ⟨a | a, s⟩ := r <;> rfl
  unfold Meets
  rw [h, Source.run_bind]
  generalize read.run (step s) l w = r
  obtain ⟨⟨⟨a | a, s⟩, l⟩, w⟩ := r
  · rfl
  · rfl

theorem Meets.exists_ok {step : Step σ α}
    (h : Meets read step s l w good fun _ _ _ _ => False) :
    ∃ a s' l' w', read.run (step s) l w = (((.ok a, s'), l'), w') ∧ good a s' l' w' := by
  unfold Meets at h
  generalize read.run (step s) l w = r at h
  obtain ⟨⟨⟨fault | a, s'⟩, l'⟩, w'⟩ := r
  · exact h.elim
  · exact ⟨a, s', l', w', rfl, h⟩

/-! ### How programs end -/

/-- A program ends with `good` if it succeeds, and with a fault in `fails` if it fails. -/
def Ends (read : Source ρ) (p : Program Host (Except Fault α)) (l : ρ) (w : World)
    (good : α → ρ → World → Prop) (fails : Fault → Prop) : Prop :=
  match read.run p l w with
  | ((.ok a, l), w) => good a l w
  | ((.error fault, _), _) => fails fault

section ends

variable {good good' : α → ρ → World → Prop} {fails fails' : Fault → Prop}

theorem Ends.mono {p : Program Host (Except Fault α)} (h : Ends read p l w good fails)
    (hg : ∀ a l w, good a l w → good' a l w) (hb : ∀ fault, fails fault → fails' fault) :
    Ends read p l w good' fails' := by
  unfold Ends at h ⊢
  split at h
  · exact hg _ _ _ h
  · exact hb _ h

theorem Ends.and {p : Program Host (Except Fault α)} (h : Ends read p l w good fails)
    (h' : Ends read p l w good' fails') :
    Ends read p l w (fun a l w => good a l w ∧ good' a l w)
      fun fault => fails fault ∧ fails' fault := by
  unfold Ends at h h' ⊢
  generalize read.run p l w = x at h h'
  rcases x with ⟨⟨fault | a, l'⟩, w'⟩
  · exact ⟨h, h'⟩
  · exact ⟨h, h'⟩

/-- A program that goes on after another if that succeeds. -/
theorem ends_bind {p : Program Host (Except Fault α)}
    {f : Except Fault α → Program Host (Except Fault β)} {good : β → ρ → World → Prop}
    (hf : ∀ fault, f (.error fault) = pure (.error fault)) :
    Ends read (p >>= f) l w good fails ↔
      Ends read p l w (fun a l w => Ends read (f (.ok a)) l w good fails) fails := by
  unfold Ends
  rw [Source.run_bind]
  generalize read.run p l w = r
  obtain ⟨⟨fault | a, l⟩, w⟩ := r
  · rw [hf]
    rfl
  · rfl

/-- A step as a program that gives its result and its state. -/
theorem ends_step {step : Step σ α} {good : α × σ → ρ → World → Prop} :
    Ends read (step s >>= fun x => pure (x.1.map (·, x.2))) l w good fails ↔
      Meets read step s l w (fun a s l w => good (a, s) l w) fun fault _ _ _ => fails fault := by
  unfold Ends Meets
  rw [Source.run_bind]
  generalize read.run (step s) l w = r
  obtain ⟨⟨⟨fault | a, s⟩, l⟩, w⟩ := r
  · rfl
  · rfl

end ends

end SealedStream
