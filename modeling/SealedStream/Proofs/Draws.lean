import SealedStream.Proofs.Attempts

/-!
# Random bytes are drawn apart

The passes of a run share one source of random bytes, and take turns at it.  What is shown here is
about all their draws, in their order: each follows the one before it, so that no two of them have a
random byte in common, and the salts and nonces of all blocks are what was drawn for them.  A step
that fails is not followed by another that draws, whatever is read after that (`CutOff`).

* `World.sealed_of_encrypt`: a run that succeeds has no failed step, and a block of each pass.
* `World.draws_apart`: the draws of any reads of encrypted bytes, and of all of them.
-/

namespace SealedStream

attribute [local instance (2000)] instPowNat

/-! ### Ledgers as a whole -/

/-- The random bytes of some steps, in a row. -/
def drawnIn (ledger : List Attempt) : ByteArray :=
  concat (ledger.map Attempt.random)

/-- The questions of some steps. -/
def askedIn (ledger : List Attempt) : List PassInfo :=
  ledger.flatMap Attempt.asked

@[simp] theorem drawnIn_append (ledger ledger' : List Attempt) :
    drawnIn (ledger ++ ledger') = drawnIn ledger ++ drawnIn ledger' := by
  rw [drawnIn, List.map_append, concat_append]
  rfl

@[simp] theorem drawnIn_cons (a : Attempt) (ledger : List Attempt) :
    drawnIn (a :: ledger) = a.random ++ drawnIn ledger :=
  concat_cons a.random (ledger.map Attempt.random)

theorem drawnIn_singleton (a : Attempt) : drawnIn [a] = a.random :=
  (drawnIn_cons a []).trans ByteArray.append_empty

@[simp] theorem askedIn_append (ledger ledger' : List Attempt) :
    askedIn (ledger ++ ledger') = askedIn ledger ++ askedIn ledger' :=
  List.flatMap_append

@[simp] theorem askedIn_singleton (a : Attempt) : askedIn [a] = a.asked :=
  List.flatMap_singleton Attempt.asked a

namespace World.Since

variable {w w' w'' : World} {ledger : List Attempt} {a : Attempt}

/-- One more step. -/
theorem enter (h : w.Since (drawnIn ledger) (askedIn ledger) w')
    (h' : w'.Since a.random a.asked w'') :
    w.Since (drawnIn (ledger ++ [a])) (askedIn (ledger ++ [a])) w'' := by
  rw [drawnIn_append, drawnIn_singleton, askedIn_append, askedIn_singleton]
  exact h.trans h'

theorem enter_silent (h : w.Since (drawnIn ledger) (askedIn ledger) w') (ha : a.Silent) :
    w.Since (drawnIn (ledger ++ [a])) (askedIn (ledger ++ [a])) w' := by
  have hnone := Since.refl w'
  rw [← ha.1, ← ha.2] at hnone
  exact h.enter hnone

end World.Since

variable {plan : Plan} {credential : Credential} {n bound : Nat}

/-! ### Steps that have failed -/

/-- What the steps of a run have drawn, in their order: those in `made` have each made a block, and
those in `failed`, which come after them, have not. -/
structure DrawnInTurn (plan : Plan) (w : World) (made failed : List Attempt) (w' : World) :
    Prop where
  levels : ∀ a ∈ made ++ failed, ∃ i < plan.count, a.level = i + 1
  hasBlock : ∀ a ∈ made, a.block.isSome = true
  noBlock : ∀ a ∈ failed, a.block = none
  /-- A step fails after its draw or before it. -/
  draws : ∀ a ∈ failed, a.Silent ∨ ∃ i settings, a.level = i + 1 ∧
    plan.passes[i]? = some settings ∧
    settings.Draws (attemptsOf (i + 1) made = []) a.random a.asked
  /-- Where one step has failed, the passes around it fail as well, before they draw. -/
  silent : ∀ a ∈ failed.tail, a.Silent
  since : w.Since (drawnIn (made ++ failed)) (askedIn (made ++ failed)) w'

namespace DrawnInTurn

variable {w w' w₁ : World} {made failed : List Attempt} {a : Attempt}

theorem start (w : World) : DrawnInTurn plan w [] [] w :=
  ⟨List.forall_mem_nil _, List.forall_mem_nil _, List.forall_mem_nil _, List.forall_mem_nil _,
    List.forall_mem_nil _, .refl w⟩

/-- A step that makes a block. -/
theorem make (h : DrawnInTurn plan w made [] w₁) (hlevel : ∃ i < plan.count, a.level = i + 1)
    (hblock : a.block.isSome = true) (hsince : w₁.Since a.random a.asked w') :
    DrawnInTurn plan w (made ++ [a]) [] w' where
  levels := by
    have hmade := h.levels
    rw [List.append_nil] at hmade ⊢
    exact List.forall_mem_append.2 ⟨hmade, List.forall_mem_singleton.2 hlevel⟩
  hasBlock := List.forall_mem_append.2 ⟨h.hasBlock, List.forall_mem_singleton.2 hblock⟩
  noBlock := List.forall_mem_nil _
  draws := List.forall_mem_nil _
  silent := List.forall_mem_nil _
  since := by
    have hmade := h.since
    rw [List.append_nil] at hmade ⊢
    exact hmade.enter hsince

/-- A step that fails after its draw. -/
theorem fail (h : DrawnInTurn plan w made [] w₁) {i : Nat} {settings : PassSettings}
    (hlevel : a.level = i + 1) (hpass : plan.passes[i]? = some settings) (hblock : a.block = none)
    (hdraws : settings.Draws (attemptsOf (i + 1) made = []) a.random a.asked)
    (hsince : w₁.Since a.random a.asked w') : DrawnInTurn plan w made [a] w' where
  levels := by
    have hi : i < plan.count := by
      rw [← plan.length_passes]
      exact (List.getElem?_eq_some_iff.1 hpass).1
    have hmade := h.levels
    rw [List.append_nil] at hmade
    exact List.forall_mem_append.2 ⟨hmade, List.forall_mem_singleton.2 ⟨i, hi, hlevel⟩⟩
  hasBlock := h.hasBlock
  noBlock := List.forall_mem_singleton.2 hblock
  draws := List.forall_mem_singleton.2 (.inr ⟨i, settings, hlevel, hpass, hdraws⟩)
  silent := List.forall_mem_nil _
  since := by
    have hmade := h.since
    rw [List.append_nil] at hmade
    exact hmade.enter hsince

/-- A step that fails without a draw, after others that may have failed. -/
theorem fail_silent (h : DrawnInTurn plan w made failed w')
    (hlevel : ∃ i < plan.count, a.level = i + 1) (hblock : a.block = none) (ha : a.Silent) :
    DrawnInTurn plan w made (failed ++ [a]) w' where
  levels := by
    rw [← List.append_assoc]
    exact List.forall_mem_append.2 ⟨h.levels, List.forall_mem_singleton.2 hlevel⟩
  hasBlock := h.hasBlock
  noBlock := List.forall_mem_append.2 ⟨h.noBlock, List.forall_mem_singleton.2 hblock⟩
  draws := List.forall_mem_append.2 ⟨h.draws, List.forall_mem_singleton.2 (.inl ha)⟩
  silent := by
    rcases failed with _ | ⟨first, later⟩
    · exact List.forall_mem_nil _
    · exact List.forall_mem_append.2 ⟨h.silent, List.forall_mem_singleton.2 ha⟩
  since := by
    rw [← List.append_assoc]
    exact h.since.enter_silent ha

end DrawnInTurn

/-! ### Nested passes -/

/-- The steps of the first `n` passes, each sealed by its settings and with a key of its own. -/
def PassesSealed (plan : Plan) (credential : Credential) (n : Nat) (made : List Attempt) : Prop :=
  ∀ i < n, ∃ settings cipher, plan.passes[i]? = some settings ∧
    SealsPass settings credential cipher (attemptsOf (i + 1) made)

theorem Outlet.Accounted.sealsPass {o : Outlet EncryptedPass}
    {s : Logged Attempt (Layers EncryptedPass n)} (ho : o.Accounted plan credential n s)
    (w : World) :
    ∃ settings cipher, plan.passes[n]? = some settings ∧
      SealsPass settings credential cipher (attemptsOf (n + 1) s.log) := by
  obtain ⟨cipher, hseals⟩ := (ho.2 w).sealsPass
  exact ⟨_, cipher, ho.1, hseals⟩

theorem PassesSealed.succ {made : List Attempt} (h : PassesSealed plan credential n made)
    (hn : ∃ settings cipher, plan.passes[n]? = some settings ∧
      SealsPass settings credential cipher (attemptsOf (n + 1) made)) :
    PassesSealed plan credential (n + 1) made := by
  intro i hi
  rcases Nat.lt_succ_iff_lt_or_eq.1 hi with hi | rfl
  · exact h i hi
  · exact hn

theorem Layers.Accounted.passesSealed {s : Logged Attempt (Layers EncryptedPass n)}
    (h : Layers.Accounted plan credential n s) (w : World) :
    PassesSealed plan credential n s.log := by
  induction n with
  | zero => exact fun i hi => absurd hi (Nat.not_lt_zero i)
  | succ n ih =>
    rcases s with ⟨⟨o, below⟩, ledger⟩
    exact (ih h.2).succ (h.1.sealsPass w)

section layers

variable (plan : Plan) (credential : Credential) (w : World) (n : Nat)

/-- Passes of which no step has failed. -/
structure Layers.Clean (s : Logged Attempt (Layers EncryptedPass n)) (w' : World) : Prop where
  accounted : Layers.Accounted plan credential n s
  drawn : DrawnInTurn plan w s.log [] w'

/-- A ledger that ends with steps that have failed, if any. -/
def CutOff (ledger : List Attempt) (w' : World) : Prop :=
  ∃ made failed, ledger = made ++ failed ∧ (∀ a ∈ failed, a.level ≤ n) ∧
    PassesSealed plan credential n made ∧ DrawnInTurn plan w made failed w'

end layers

variable {w w' : World}

/-- A ledger without failed steps. -/
theorem DrawnInTurn.cutOff {ledger : List Attempt} (h : DrawnInTurn plan w ledger [] w')
    (hsealed : PassesSealed plan credential n ledger) : CutOff plan credential w n ledger w' :=
  ⟨ledger, [], (List.append_nil _).symm, List.forall_mem_nil _, hsealed, h⟩

/-- **Each step of a pass** draws in its turn, or fails. -/
theorem Layers.fills_clean
    (hfollows : (readLogged .ledger EncryptedPass.engine bound n).Follows
      (fun _ => Layers.Clean plan credential w n) fun s => CutOff plan credential w n s.log) :
    Outlet.Fills Attempt.ofTurn EncryptedPass.engine (n + 1)
      (readLogged .ledger EncryptedPass.engine bound n)
      (fun o s w' => o.Accounted plan credential n s ∧ Layers.Clean plan credential w n s w')
      fun o s w' => o.ended = true ∧ CutOff plan credential w (n + 1) s.log w' where
  step := by
    rintro o s w' ⟨ho, hs⟩ - - hfinished
    have hlevel : ∃ i < plan.count, n + 1 = i + 1 := by
      refine ⟨n, ?_, rfl⟩
      rw [← plan.length_passes]
      exact (List.getElem?_eq_some_iff.1 ho.1).1
    refine (ho.meets_step hfollows hfinished hs).mono (fun bytes t s' w' h => ?_)
      fun _ t s' w' h => ?_
    · rcases h with ⟨hnext, -, w₁, hbelow, -, hsince⟩
      exact ⟨hnext, hbelow.accounted.add (Nat.lt_succ_self n),
        hbelow.drawn.make hlevel rfl hsince⟩
    · rcases h with ⟨hattempts, hfail⟩
      refine ⟨rfl, ?_⟩
      have hpass := ho.sealsPass w
      rw [← hattempts] at hpass hfail
      rcases hfail with ⟨w₁, hbelow, hdraws, hsince⟩ | ⟨hcut, ha⟩
      · have hsealed := (hbelow.accounted.passesSealed w).succ hpass
        exact ⟨s'.log, _, rfl, List.forall_mem_singleton.2 (Nat.le_refl (n + 1)), hsealed,
          hbelow.drawn.fail rfl ho.1 rfl hdraws hsince⟩
      · obtain ⟨made, failed, hledger, hbelow, hsealed, hdrawn⟩ := hcut
        -- The steps of this pass are all in front of those that have failed.
        have hnone : attemptsOf (n + 1) failed = [] := by
          refine attemptsOf_eq_nil fun a ha => ?_
          have := hbelow a ha
          omega
        rw [hledger, attemptsOf_append, hnone, List.append_nil] at hpass
        refine ⟨made, failed ++ [_], ?_, List.forall_mem_append.2 ⟨fun a ha => ?_, ?_⟩,
          hsealed.succ hpass, hdrawn.fail_silent hlevel rfl ha⟩
        · rw [Logged.put_failed, Logged.add, hledger, List.append_assoc]
        · exact Nat.le_succ_of_le (hbelow a ha)
        · exact List.forall_mem_singleton.2 (Nat.le_refl (n + 1))
  finish := fun _ _ _ h _ _ => h
  bounded := by
    rintro o s w' ⟨ho, hs⟩
    exact ⟨rfl, hs.drawn.cutOff ((hs.accounted.passesSealed w).succ (ho.sealsPass w))⟩

/-- An outlet that is at its end, if there is one. -/
def Layers.Stopped : (n : Nat) → Layers EncryptedPass n → Prop
  | 0, _ => True
  | _ + 1, (o, _) => o.ended = true

/-- A read of the input draws nothing. -/
theorem DrawnInTurn.read_input {made failed : List Attempt} (h : DrawnInTurn plan w made failed w')
    (input : List InputItem) : DrawnInTurn plan w made failed { w' with input } :=
  { h with since := ⟨h.since.tape, h.since.onTape, h.since.drawn, h.since.asked⟩ }

/-- **A read from nested passes** leaves no failed step behind, or stops them.  The induction is on
their number. -/
theorem Layers.run_readLogged_clean (bound : Nat) {s : Logged Attempt (Layers EncryptedPass n)}
    (h : Layers.Clean plan credential w n s w') (size : Nat) :
    match w'.run (readLogged .ledger EncryptedPass.engine bound n size s) with
    | ((.ok _, s'), w'') => Layers.Clean plan credential w n s' w''
    | ((.error _, s'), w'') =>
      Layers.Stopped n s'.state ∧ CutOff plan credential w n s'.log w'' := by
  induction n generalizing w' size with
  | zero =>
    rw [run_readLogged_zero]
    cases (readItems size w'.input).1 with
    | ok bytes => exact ⟨trivial, h.drawn.read_input _⟩
    | error e =>
      exact ⟨trivial, (h.drawn.read_input _).cutOff (h.accounted.passesSealed w)⟩
  | succ n ih =>
    rcases s with ⟨⟨o, below⟩, ledger⟩
    have hfollows : (readLogged .ledger EncryptedPass.engine bound n).Follows
        (fun _ => Layers.Clean plan credential w n)
        fun s => CutOff plan credential w n s.log := by
      intro missing size s w' _ _ hs
      have hread := ih hs size
      generalize w'.run (readLogged .ledger EncryptedPass.engine bound n size s) = x at hread ⊢
      rcases x with ⟨⟨e | bytes, s'⟩, w''⟩
      · exact hread.2
      · exact hread
    have hread := run_readLogged (fills_clean hfollows) size o below ledger w'
      ⟨h.accounted.1, h.accounted.2, h.drawn⟩
    generalize w'.run (readLogged .ledger EncryptedPass.engine bound (n + 1) size _) = x at hread ⊢
    rcases x with ⟨⟨e | bytes, ⟨o', below'⟩, ledger'⟩, w''⟩
    · exact hread
    · rcases hread with ⟨pending, ⟨ho, hbelow⟩, -⟩
      exact ⟨⟨ho, hbelow.accounted⟩, hbelow.drawn⟩

/-- Passes that have stopped make no more steps. -/
theorem Layers.run_readLogged_stopped (bound : Nat) {s : Logged Attempt (Layers EncryptedPass n)}
    (hstopped : Layers.Stopped n s.state) (h : CutOff plan credential w n s.log w')
    (size : Nat) :
    Layers.Stopped n (w'.run (readLogged .ledger EncryptedPass.engine bound n size s)).1.2.state ∧
      CutOff plan credential w n
        (w'.run (readLogged .ledger EncryptedPass.engine bound n size s)).1.2.log
        (w'.run (readLogged .ledger EncryptedPass.engine bound n size s)).2 := by
  cases n with
  | zero =>
    rcases h with ⟨made, failed, hledger, hbelow, hsealed, hdrawn⟩
    exact ⟨trivial, made, failed, hledger, hbelow, hsealed, hdrawn.read_input _⟩
  | succ n =>
    rcases s with ⟨⟨o, below⟩, ledger⟩
    -- An outlet at its end is not filled again.
    have hfills : Outlet.Fills Attempt.ofTurn EncryptedPass.engine (n + 1)
        (readLogged .ledger EncryptedPass.engine bound n)
        (fun o s w' => o.ended = true ∧ CutOff plan credential w (n + 1) s.log w')
        fun o s w' => o.ended = true ∧ CutOff plan credential w (n + 1) s.log w' :=
      ⟨fun _ _ _ hs hended => absurd (hs.1.symm.trans hended) (by decide),
        fun _ _ _ hs _ _ => ⟨rfl, hs.2⟩, fun _ _ _ hs => ⟨rfl, hs.2⟩⟩
    have hread := run_readLogged hfills size o below ledger w' ⟨hstopped, h⟩
    generalize w'.run (readLogged .ledger EncryptedPass.engine bound (n + 1) size _) = x at hread ⊢
    rcases x with ⟨⟨e | bytes, ⟨o', below'⟩, ledger'⟩, w''⟩
    · exact hread
    · exact hread.choose_spec.1

/-! ### Reads in turn -/

/-- Where passes are between two reads. -/
def Layers.AtRest (plan : Plan) (credential : Credential) (w : World) (n : Nat)
    (s : Logged Attempt (Layers EncryptedPass n)) (w' : World) : Prop :=
  Layers.Clean plan credential w n s w' ∨
    Layers.Stopped n s.state ∧ CutOff plan credential w n s.log w'

theorem Layers.AtRest.read (bound : Nat) {s : Logged Attempt (Layers EncryptedPass n)}
    (h : Layers.AtRest plan credential w n s w') (size : Nat) :
    Layers.AtRest plan credential w n
      (w'.run (readLogged .ledger EncryptedPass.engine bound n size s)).1.2
      (w'.run (readLogged .ledger EncryptedPass.engine bound n size s)).2 := by
  rcases h with h | ⟨hstopped, h⟩
  · have hread := run_readLogged_clean bound h size
    generalize w'.run (readLogged .ledger EncryptedPass.engine bound n size s) = x at hread ⊢
    rcases x with ⟨⟨e | bytes, s'⟩, w''⟩
    · exact .inr hread
    · exact .inl hread
  · exact .inr (run_readLogged_stopped bound hstopped h size)

/-- **After any reads** the ledger has failed steps at its end only. -/
theorem Pipeline.cutOff_readEachLogged (bound : Nat) (sizes : List Nat)
    {s : Logged Attempt (Pipeline EncryptedPass)}
    (h : Layers.AtRest plan credential w s.state.depth ⟨s.state.layers, s.log⟩ w') :
    CutOff plan credential w s.state.depth
      (w'.run (readEachLogged .ledger EncryptedPass.engine bound sizes s)).1.2.log
      (w'.run (readEachLogged .ledger EncryptedPass.engine bound sizes s)).2 := by
  induction sizes generalizing s w' with
  | nil =>
    rcases h with h | ⟨-, h⟩
    · exact h.drawn.cutOff (h.accounted.passesSealed w)
    · exact h
  | cons size sizes ih =>
    have hnext := h.read bound size
    rcases hread : w'.run (Layers.readLogged .ledger EncryptedPass.engine bound s.state.depth size
      ⟨s.state.layers, s.log⟩) with ⟨⟨result, l⟩, w''⟩
    rw [hread] at hnext
    have hrest := ih (s := ⟨⟨s.state.depth, l.state⟩, l.log⟩) hnext
    rcases hlater : w''.run (readEachLogged .ledger EncryptedPass.engine bound sizes
      ⟨⟨s.state.depth, l.state⟩, l.log⟩) with ⟨⟨results, s'⟩, v⟩
    rw [hlater] at hrest
    rw [run_readEachLogged_cons (run_readLogged hread) hlater]
    exact hrest

/-! ### No random byte serves twice -/

/-- **The draws of a run**, from a world to another, in the order in which its steps ended: those in
`made` have each made a block, and those in `failed`, which come after them, have not.  Each draw is
a stretch of the tape behind that of the step before it. -/
structure DrawsApart (plan : Plan) (credential : Credential) (w : World)
    (made failed : List Attempt) (w' : World) : Prop where
  levels : ∀ a ∈ made ++ failed, ∃ i < plan.count, a.level = i + 1
  hasBlock : ∀ a ∈ made, a.block.isSome = true
  noBlock : ∀ a ∈ failed, a.block = none
  onTape : ∀ before a after, made ++ failed = before ++ a :: after →
    OnTape w.tape (w.drawn + (drawnIn before).size) a.random
  drawn : w'.drawn = w.drawn + (drawnIn (made ++ failed)).size
  /-- The blocks of a pass: salts and nonces are from the draws, and stand in the blocks. -/
  passes : ∀ i settings, plan.passes[i]? = some settings →
    ∃ cipher, SealsPass settings credential cipher (attemptsOf (i + 1) made)
  /-- A step that fails draws what the next block of its pass needs, or nothing. -/
  draws : ∀ a ∈ failed, a.Silent ∨ ∃ i settings, a.level = i + 1 ∧
    plan.passes[i]? = some settings ∧
    settings.Draws (attemptsOf (i + 1) made = []) a.random a.asked
  /-- Nothing is drawn after the first step that fails. -/
  silent : ∀ a ∈ failed.tail, a.Silent
  /-- Two blocks of a pass have the same nonce only if the tape has it in two places. -/
  nonces : ∀ i settings, plan.passes[i]? = some settings → ∀ first second block block',
    [first, second].Sublist (attemptsOf (i + 1) made) → first.block = some block →
    second.block = some block' →
    nonceIn settings.algorithm block = nonceIn settings.algorithm block' →
    ∃ p q, w.drawn ≤ p ∧ p + settings.algorithm.ivBytes ≤ q ∧
      q + settings.algorithm.ivBytes ≤ w'.drawn ∧
      World.tapeBytes w.tape p settings.algorithm.ivBytes
        = World.tapeBytes w.tape q settings.algorithm.ivBytes

/-- Some bytes in the midst of those on a tape. -/
theorem OnTape.extract {tape : Nat → UInt8} {start i n : Nat} {bytes : ByteArray}
    (h : OnTape tape start bytes) (hin : i + n ≤ bytes.size) :
    bytes.extract i (i + n) = (World.tapeBytes tape (start + i) n).data := by
  have hsplit : bytes
      = bytes.extract 0 i ++ (bytes.extract i (i + n) ++ bytes.extract (i + n) bytes.size) := by
    rw [← ByteArray.extract_eq_extract_append_extract (i + n) (Nat.le_add_right i n) hin,
      ← ByteArray.extract_eq_extract_append_extract i (Nat.zero_le i) (by omega),
      ByteArray.extract_zero_size]
  have hfront : (bytes.extract 0 i).size = i := by
    rw [ByteArray.size_extract]
    omega
  have hmid : (bytes.extract i (i + n)).size = n := by
    rw [ByteArray.size_extract]
    omega
  rw [hsplit, OnTape.append_iff, OnTape.append_iff, hfront] at h
  have hat := h.2.1
  rw [OnTape, hmid] at hat
  exact hat.symm

/-- The nonce of a block is from the random bytes of its step. -/
theorem SealsPass.exists_nonceIn_eq {settings : PassSettings} {cipher : Key}
    {attempts : List Attempt} (h : SealsPass settings credential cipher attempts) {a : Attempt}
    (ha : a ∈ attempts) {block : ByteArray} (hblock : a.block = some block) :
    ∃ i, i + settings.algorithm.ivBytes ≤ a.random.size ∧
      nonceIn settings.algorithm block
        = a.random.extract i (i + settings.algorithm.ivBytes) := by
  rcases attempts with _ | ⟨first, rest⟩
  · exact absurd ha List.not_mem_nil
  rcases List.mem_cons.1 ha with rfl | ha
  · obtain ⟨salt, iv, sealedHint, block', answer, derivation, -, hiv, -, -, -, -, hblock',
      hsealed⟩ := h.1.sealed
    rw [hblock] at hblock'
    cases hblock'
    refine ⟨Limits.saltBytes, ?_, ?_⟩
    · rw [h.1.size]
      cases settings.algorithm <;> decide
    · rw [← hiv]
      exact hsealed.inBlock
  · have hfurther := h.2 a ha
    obtain ⟨block', hblock', hsealed⟩ := hfurther.sealed
    rw [hblock] at hblock'
    cases hblock'
    refine ⟨0, Nat.le_of_eq ((Nat.zero_add _).trans hfurther.size.symm), ?_⟩
    rw [Nat.zero_add, ← hfurther.size, ByteArray.extract_zero_size]
    exact hsealed.inBlock

/-- Two steps of a ledger, at their places. -/
theorem exists_append_of_sublist {first second : Attempt} {ledger : List Attempt}
    (h : [first, second].Sublist ledger) :
    ∃ before mid after, ledger = before ++ first :: (mid ++ second :: after) := by
  obtain ⟨front, back, rfl, hfirst, hsecond⟩ := List.cons_sublist_iff.1 h
  obtain ⟨before, mid, rfl⟩ := List.append_of_mem hfirst
  obtain ⟨mid', after, rfl⟩ := List.append_of_mem (List.singleton_sublist.1 hsecond)
  refine ⟨before, mid ++ mid', after, ?_⟩
  simp only [List.append_assoc, List.cons_append]

theorem DrawnInTurn.drawsApart {made failed : List Attempt}
    (h : DrawnInTurn plan w made failed w')
    (hsealed : PassesSealed plan credential plan.count made) :
    DrawsApart plan credential w made failed w' := by
  have hpasses : ∀ i settings, plan.passes[i]? = some settings →
      ∃ cipher, SealsPass settings credential cipher (attemptsOf (i + 1) made) := by
    intro i settings hi
    have hlt : i < plan.count := by
      rw [← plan.length_passes]
      exact (List.getElem?_eq_some_iff.1 hi).1
    obtain ⟨settings', cipher, hi', hseals⟩ := hsealed i hlt
    rw [hi] at hi'
    cases hi'
    exact ⟨cipher, hseals⟩
  have honTape : ∀ before a after, made ++ failed = before ++ a :: after →
      OnTape w.tape (w.drawn + (drawnIn before).size) a.random := by
    intro before a after hsplit
    have hall := h.since.onTape
    rw [hsplit, drawnIn_append, drawnIn_cons, OnTape.append_iff, OnTape.append_iff] at hall
    exact hall.2.1
  refine ⟨h.levels, h.hasBlock, h.noBlock, honTape, h.since.drawn, hpasses, h.draws, h.silent, ?_⟩
  intro i settings hi first second block block' hsub hblock hblock' hsame
  obtain ⟨cipher, hseals⟩ := hpasses i settings hi
  -- The nonces are parts of draws at two places.
  obtain ⟨j, hj, hnonce⟩ := hseals.exists_nonceIn_eq (hsub.subset (by simp)) hblock
  obtain ⟨k, hk, hnonce'⟩ := hseals.exists_nonceIn_eq (hsub.subset (by simp)) hblock'
  obtain ⟨before, mid, after, hplaces⟩ := exists_append_of_sublist
    ((hsub.trans List.filter_sublist).trans (List.sublist_append_left made failed))
  have hfirst := honTape before first (mid ++ second :: after) hplaces
  have hrow : before ++ first :: (mid ++ second :: after)
      = (before ++ first :: mid) ++ second :: after := by
    simp only [List.append_assoc, List.cons_append]
  have hsecond := honTape (before ++ first :: mid) second after (hplaces.trans hrow)
  have hsizes : (drawnIn (before ++ first :: mid)).size
      = (drawnIn before).size + first.random.size + (drawnIn mid).size := by
    rw [drawnIn_append, drawnIn_cons, ByteArray.size_append, ByteArray.size_append, Nat.add_assoc]
  have htotal : (drawnIn (made ++ failed)).size
      = (drawnIn (before ++ first :: mid)).size + second.random.size + (drawnIn after).size := by
    rw [hplaces, hrow, drawnIn_append, drawnIn_cons, ByteArray.size_append, ByteArray.size_append,
      Nat.add_assoc]
  have hdrawn := h.since.drawn
  refine ⟨w.drawn + (drawnIn before).size + j,
    w.drawn + (drawnIn (before ++ first :: mid)).size + k, by omega, by omega, by omega, ?_⟩
  refine Bytes.ext ?_
  rw [← hfirst.extract hj, ← hsecond.extract hk, ← hnonce, ← hnonce', hsame]

/-- After some reads of encrypted bytes the ledger has failed steps at its end only. -/
theorem World.cutOff_encryptReads (plan : Plan) (credential : Credential) (sizes : List Nat)
    (w : World) : CutOff plan credential w plan.count
      (w.encryptReadsLedgered plan credential sizes).1.2
      (w.encryptReadsLedgered plan credential sizes).2 := by
  obtain ⟨hdepth, haccounted, -⟩ := plan.accounted_pipeline credential
  have hclean : Layers.Clean plan credential w (plan.pipeline credential).depth
      ⟨(plan.pipeline credential).layers, []⟩ w := ⟨haccounted, .start w⟩
  have hreads := Pipeline.cutOff_readEachLogged (s := ⟨plan.pipeline credential, []⟩)
    (plan.outputBound w.inputBound) sizes (.inl hclean)
  dsimp only at hreads
  rw [hdepth] at hreads
  exact hreads

/-- A question that a step of a pass has put is one of that pass. -/
theorem SealsPass.exists_eq_question {settings : PassSettings} {cipher : Key}
    {attempts : List Attempt} (h : SealsPass settings credential cipher attempts) {a : Attempt}
    (ha : a ∈ attempts) {info : PassInfo} (hinfo : info ∈ a.asked) :
    ∃ salt iv, info = settings.question salt iv := by
  rcases attempts with _ | ⟨first, rest⟩
  · exact absurd ha List.not_mem_nil
  rcases List.mem_cons.1 ha with rfl | ha
  · obtain ⟨salt, iv, _, _, _, _, -, -, hasked, -⟩ := h.1.sealed
    rw [hasked] at hinfo
    exact ⟨salt, iv, List.mem_singleton.1 hinfo⟩
  · rw [(h.2 a ha).asked] at hinfo
    exact absurd hinfo List.not_mem_nil

/-- **A run that succeeds** has no failed step, and has sealed a block of each pass. -/
theorem World.sealed_of_encrypt {cipher : ByteArray}
    (h : w.encrypt plan credential = (.ok cipher, w')) :
    ∃ ledger, w.encryptLedgered plan credential = ((.ok cipher, ledger), w') ∧
      (∀ a ∈ ledger, a.block.isSome = true) ∧
      ∀ i < plan.count, attemptsOf (i + 1) ledger ≠ [] := by
  obtain ⟨hdepth, haccounted, -⟩ := plan.accounted_pipeline credential
  obtain ⟨s, hledgered, hdrains⟩ := exists_drains_of_encrypt h
  have hclean : Layers.Clean plan credential w s.state.depth s.layers w' := by
    refine hdrains.keeps (K := fun n l w' => Layers.Clean plan credential w n l w')
      (fun n size l v bytes l' v' hl hread => ?_) ⟨haccounted, .start w⟩
    have hkept := Layers.run_readLogged_clean (plan.outputBound w.inputBound) hl size
    rw [hread] at hkept
    exact hkept
  have hsealed : PassesSealed plan credential plan.count s.log :=
    hdepth ▸ hdrains.depth_eq ▸ hclean.accounted.passesSealed w
  have hdrawn := hclean.drawn
  obtain ⟨made, hasked, hquestions⟩ := (encryptedThrough_of_encrypt h).exists_questions
  have hmade : askedIn (s.layers.log ++ []) = made :=
    List.append_cancel_left (hdrawn.since.asked.symm.trans hasked)
  refine ⟨s.log, hledgered, hdrawn.hasBlock, fun i hi hnone => ?_⟩
  -- The question for the password of a pass was put by a step of it.
  obtain ⟨salt, iv, hmem⟩ := hquestions.exists_mem ⟨i, hi⟩
  rw [← hmade] at hmem
  obtain ⟨a, ha, hinfo⟩ := List.mem_flatMap.1 hmem
  obtain ⟨j, hj, hlevel⟩ := hdrawn.levels a ha
  rw [List.append_nil] at ha
  have hat : a ∈ attemptsOf (j + 1) s.log := List.mem_filter.2 ⟨ha, decide_eq_true hlevel⟩
  obtain ⟨settings, cipher', hpass, hseals⟩ := hsealed j hj
  obtain ⟨salt', iv', hquestion⟩ := hseals.exists_eq_question hat hinfo
  have hj' : j < plan.passes.length := by rwa [plan.length_passes]
  rw [List.getElem?_eq_getElem hj', plan.passes_getElem hj'] at hpass
  cases hpass
  have hindex : i + 1 = j + 1 := congrArg (·.loop.index) hquestion
  obtain rfl := Nat.succ.inj hindex
  rw [hnone] at hat
  exact List.not_mem_nil hat

/-- **Random bytes are drawn apart** by a run that encrypts, as far as it is read and whether or not
it fails. -/
theorem World.draws_apart (plan : Plan) (credential : Credential) (w : World) :
    (∀ sizes, ∃ results made failed w',
      w.encryptReads plan credential sizes = (results, w') ∧
      w.encryptReadsLedgered plan credential sizes = ((results, made ++ failed), w') ∧
      DrawsApart plan credential w made failed w') ∧
    ∃ result made failed w', w.encrypt plan credential = (result, w') ∧
      w.encryptLedgered plan credential = ((result, made ++ failed), w') ∧
      DrawsApart plan credential w made failed w' := by
  constructor
  · intro sizes
    obtain ⟨made, failed, hledger, -, hsealed, hdrawn⟩ :=
      cutOff_encryptReads plan credential sizes w
    refine ⟨_, made, failed, _, encryptReads_eq plan credential sizes w, ?_,
      hdrawn.drawsApart hsealed⟩
    rw [← hledger]
  · -- To encrypt everything is to read so often that the end is found.
    obtain ⟨count, results, hall⟩ := exists_encryptReads_eq plan credential w
    have hcut := cutOff_encryptReads plan credential (List.replicate count Pipeline.pieceSize) w
    rw [hall] at hcut
    obtain ⟨made, failed, hledger, -, hsealed, hdrawn⟩ := hcut
    dsimp only at hledger hdrawn
    refine ⟨_, made, failed, _, encryptLedgered_eq plan credential w, ?_,
      hdrawn.drawsApart hsealed⟩
    rw [← hledger]

/-- Three bytes, encrypted in two passes: no step fails, each pass has sealed its head, and what was
drawn for the blocks lies apart. -/
theorem World.draws_apart_threeBytes :
    ∃ (cipher : ByteArray) (made : List Attempt) (w' : World),
      let plan : Plan :=
        ⟨[.aegis256, .aesGcm], Limits.iterationsDefault, 1, by decide, by decide, by decide⟩
      let w : World :=
        { input := [.data (ofList [1, 2, 3])], provider := fun _ => .ok ⟨"secret", some "usual"⟩ }
      w.encryptLedgered plan ⟨.zeros 32⟩ = ((.ok cipher, made), w') ∧
        DrawsApart plan ⟨.zeros 32⟩ w made [] w' ∧
        attemptsOf 1 made ≠ [] ∧ attemptsOf 2 made ≠ [] := by
  let plan : Plan :=
    ⟨[.aegis256, .aesGcm], Limits.iterationsDefault, 1, by decide, by decide, by decide⟩
  let w : World :=
    { input := [.data (ofList [1, 2, 3])], provider := fun _ => .ok ⟨"secret", some "usual"⟩ }
  obtain ⟨cipher, w', hrun, -⟩ := exists_encrypt_eq plan ⟨.zeros 32⟩ (by decide : w.InPieces)
    fun _ _ => ⟨_, rfl, by decide, by decide⟩
  obtain ⟨ledger, hledgered, hblocks, hsealed⟩ := sealed_of_encrypt hrun
  obtain ⟨-, result, made, failed, v, -, hmade, hapart⟩ := draws_apart plan ⟨.zeros 32⟩ w
  obtain ⟨hresult, rfl⟩ := Prod.mk.inj (hledgered.symm.trans hmade)
  obtain ⟨-, rfl⟩ := Prod.mk.inj hresult
  have hnone : failed = [] := by
    refine List.eq_nil_iff_forall_not_mem.2 fun a ha => ?_
    have hblock := hblocks a (List.mem_append_right made ha)
    rw [hapart.noBlock a ha] at hblock
    exact Bool.false_ne_true hblock
  subst hnone
  rw [List.append_nil] at hledgered hsealed
  exact ⟨cipher, made, w', hledgered, hapart, hsealed 0 (by decide), hsealed 1 (by decide)⟩

end SealedStream
