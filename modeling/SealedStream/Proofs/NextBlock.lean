import SealedStream.Proofs.PassOutput

/-!
# How a session comes to its next block

A session reads as long as bytes of its next chunk are missing.  Then it draws its random bytes, all
at once, and from there on it does no more than ask and compute (`Step.Quiet`).  So between the last
of its reads and its draw nothing is drawn by anyone, and no byte is read that need not be.

* `Encryptor.meets_next_block`: where its source is when a session draws, and what it draws.
-/

namespace SealedStream

variable {ρ σ τ α β : Type} {read : Source ρ}

/-! ### From one world to another -/

/-- The random bytes that have been drawn, and the questions that have been put, since a world. -/
structure World.Since (w : World) (random : ByteArray) (asked : List PassInfo) (w' : World) :
    Prop where
  tape : w'.tape = w.tape
  onTape : OnTape w.tape w.drawn random
  drawn : w'.drawn = w.drawn + random.size
  asked : w'.asked = w.asked ++ asked

namespace World.Since

variable {w w' w'' : World} {random random' : ByteArray} {asked asked' : List PassInfo}

theorem refl (w : World) : w.Since .empty [] w :=
  ⟨rfl, .empty, rfl, (List.append_nil _).symm⟩

theorem trans (h : w.Since random asked w') (h' : w'.Since random' asked' w'') :
    w.Since (random ++ random') (asked ++ asked') w'' where
  tape := h'.tape.trans h.tape
  onTape := by
    have hlater := h'.onTape
    rw [h.tape, h.drawn] at hlater
    exact OnTape.append_iff.2 ⟨h.onTape, hlater⟩
  drawn := by rw [h'.drawn, h.drawn, ByteArray.size_append, Nat.add_assoc]
  asked := by rw [h'.asked, h.asked, List.append_assoc]

theorem draw (w : World) (n : Nat) :
    w.Since (World.tapeBytes w.tape w.drawn n).data [] { w with drawn := w.drawn + n } where
  tape := rfl
  onTape := .tapeBytes w.tape w.drawn n
  drawn := by rw [Bytes.size_data]
  asked := (List.append_nil _).symm

end World.Since

/-! ### Quiet steps -/

/-- A program that neither reads nor draws, and asks the questions given. -/
inductive Program.Quiet {α : Type} : Program Host α → List PassInfo → Prop
  | done (a : α) : Quiet (.done a) []
  | password {info : PassInfo} {next : Except Fault Answer → Program Host α}
    {asked : List PassInfo} : (∀ reply, Quiet (next reply) asked) →
    Quiet (.ask (HostRequest.password info) next) (info :: asked)
  | derive {derivation : Derivation} {next : Key → Program Host α} {asked : List PassInfo} :
    (∀ key, Quiet (next key) asked) → Quiet (.ask (HostRequest.derive derivation) next) asked

namespace Program.Quiet

theorem bind {p : Program Host α} {asked : List PassInfo} (h : p.Quiet asked)
    {f : α → Program Host β} (hf : ∀ a, (f a).Quiet []) : (p >>= f).Quiet asked := by
  induction h with
  | done a => exact hf a
  | password _ ih => exact .password ih
  | derive _ ih => exact .derive ih

/-- What is left of a source by a program that does not read from it, and what it draws and asks. -/
theorem run_traced {p : Program Host α} {asked : List PassInfo} (h : p.Quiet asked)
    (read : Source ρ) (events : List Event) (l : ρ) (w : World) :
    ∃ later, (read.run (p.traced events) l w).1.1.2 = events ++ later ∧
      (read.run (p.traced events) l w).1.2 = l ∧ drawnBytes later = .empty ∧
      (questions later).map Prod.fst = asked ∧
      w.Since .empty asked (read.run (p.traced events) l w).2 := by
  induction h generalizing events w with
  | done a => exact ⟨[], (List.append_nil _).symm, rfl, rfl, rfl, .refl w⟩
  | @password info next rest _ ih =>
    let reply := w.provider (w.asked ++ [info])
    let asked : World := { w with asked := w.asked ++ [info] }
    have hrun : read.run (Program.traced (.ask (HostRequest.password info) next) events) l w
        = read.run ((next reply).traced (events ++ [⟨.password info, reply⟩])) l asked := rfl
    have hasked : w.Since .empty [info] asked := ⟨rfl, .empty, rfl, rfl⟩
    rcases ih reply (events ++ [⟨.password info, reply⟩]) asked with
      ⟨later, hevents, hl, hdrawn, hrest, hsince⟩
    refine ⟨⟨.password info, reply⟩ :: later, ?_, ?_, ?_, ?_, ?_⟩
    · rw [hrun, hevents, List.append_assoc]
      rfl
    · rw [hrun, hl]
    · rw [← List.singleton_append, drawnBytes_append, hdrawn]
      rfl
    · rw [← hrest]
      rfl
    · rw [hrun]
      exact hasked.trans hsince
  | @derive derivation next asked _ ih =>
    let reply := (w.keys.derive derivation).1
    let derived : World := { w with keys := (w.keys.derive derivation).2 }
    have hrun : read.run (Program.traced (.ask (HostRequest.derive derivation) next) events) l w
        = read.run ((next reply).traced (events ++ [⟨.derive derivation, reply⟩])) l derived := rfl
    have hderived : w.Since .empty [] derived := ⟨rfl, .empty, rfl, (List.append_nil _).symm⟩
    rcases ih reply (events ++ [⟨.derive derivation, reply⟩]) derived with
      ⟨later, hevents, hl, hdrawn, hasked, hsince⟩
    refine ⟨⟨.derive derivation, reply⟩ :: later, ?_, ?_, ?_, hasked, ?_⟩
    · rw [hrun, hevents, List.append_assoc]
      rfl
    · rw [hrun, hl]
    · rw [← List.singleton_append, drawnBytes_append, hdrawn]
      rfl
    · rw [hrun]
      exact hderived.trans hsince

end Program.Quiet

namespace Step

/-- A step that neither reads nor draws, and asks the questions given. -/
def Quiet (step : Step σ α) (asked : List PassInfo) : Prop :=
  ∀ s, Program.Quiet (step s) asked

namespace Quiet

theorem password (info : PassInfo) :
    Quiet (Step.ofProgram (Host.password info) : Step σ (Except Fault Answer)) [info] :=
  fun _ => .password fun _ => .done _

theorem derive (derivation : Derivation) :
    Quiet (Step.ofProgram (Host.derive derivation) : Step σ Key) [] :=
  fun _ => .derive fun _ => .done _

/-- Where a step has failed nothing more is asked, so the questions are those of its first part. -/
theorem bind {x : Step σ α} {f : α → Step σ β} {asked : List PassInfo} (hx : x.Quiet asked)
    (hf : ∀ a, (f a).Quiet []) : (x >>= f).Quiet asked := by
  intro s
  refine (hx s).bind fun r => ?_
  obtain ⟨fault | a, t⟩ := r
  · exact .done _
  · exact hf a t

/-- **Quiet steps that ask nothing** make such steps. -/
theorem closed : Closed fun _ (step : Step σ _) => step.Quiet [] where
  pure _ _ := .done _
  throw _ _ := .done _
  get _ := .done _
  except x s := by
    cases x with
    | ok a => exact .done _
    | error fault => exact .done _
  bind := .bind
  rethrow f h s := by
    rw [Step.tryCatch_apply]
    refine (h s).bind fun r => ?_
    rcases r with ⟨fault | a, t⟩
    · exact .done _
    · exact .done _

end Quiet

/-- How a step ends that has drawn once since the events given: the random bytes are those that the
tape had next, and they and the questions are as `D` says. -/
def Drew (D : ByteArray → List PassInfo → Prop) (events : List Event) (l : ρ) (w : World)
    (events' : List Event) (l' : ρ) (w' : World) : Prop :=
  ∃ (random : ByteArray) (asked : List (PassInfo × Except Fault Answer)), l' = l ∧
    D random (asked.map Prod.fst) ∧ Encryptor.Happened events random asked events' ∧
    w.Since random (asked.map Prod.fst) w'

/-- **Random bytes are drawn once** by a step that is quiet after its draw. -/
theorem meets_traced_draw_quiet {n : Nat} {f : Bytes n → Step σ α}
    {D : ByteArray → List PassInfo → Prop}
    (hf : ∀ random, ∃ asked, (f random).Quiet asked ∧ D random.data asked) {s : σ}
    {events : List Event} {l : ρ} {w : World} :
    Meets read (Step.traced (Step.ofProgram (Host.draw n) >>= f)) (s, events) l w
      (fun _ t l' w' => Drew D events l w t.2 l' w')
      fun _ t l' w' => Drew D events l w t.2 l' w' := by
  rw [meets_traced_bind, meets_traced_draw]
  have hdraw := World.Since.draw w n
  generalize World.tapeBytes w.tape w.drawn n = random at hdraw
  rcases hf random with ⟨asked, hquiet, hD⟩
  rcases (hquiet s).run_traced read (events ++ [⟨.draw n, random⟩]) l
    { w with drawn := w.drawn + n } with ⟨later, hevents, hl, hdrawn, rfl, hsince⟩
  have hdrew : Drew D events l w (events ++ [⟨.draw n, random⟩] ++ later) l
      (read.run ((f random s).traced (events ++ [⟨.draw n, random⟩])) l
        { w with drawn := w.drawn + n }).2 := by
    refine ⟨random.data, questions later, rfl, hD, ⟨?_, ?_⟩, ?_⟩
    · rw [drawnBytes_append, drawnBytes_append, drawnBytes_draw, hdrawn, ByteArray.append_empty]
    · rw [questions_append, questions_append]
      exact congrArg (· ++ _) (List.append_nil _)
    · have hall := hdraw.trans hsince
      rw [ByteArray.append_empty] at hall
      exact hall
  unfold Meets Step.traced
  rw [Source.run_bind]
  generalize read.run ((f random s).traced (events ++ [⟨.draw n, random⟩])) l
    { w with drawn := w.drawn + n } = x at hevents hl hdrew
  rcases x with ⟨⟨⟨⟨fault | a, t⟩, events'⟩, l'⟩, w'⟩
  · subst hevents hl
    exact hdrew
  · subst hevents hl
    exact hdrew

end Step

/-! ### Reading what is missing -/

/-- Reads of a source while some bytes are missing: `I` says where the source is when so many are,
and `J` where it is after a failure. -/
def Source.Follows (read : Source ρ) (I : Nat → ρ → World → Prop) (J : ρ → World → Prop) : Prop :=
  ∀ ⦃missing n : Nat⦄ ⦃l : ρ⦄ ⦃w : World⦄, 0 < missing → 0 < n → I missing l w →
    match w.run (read n l) with
    | ((.ok bytes, l'), w') => I (if bytes.isEmpty then 0 else missing - bytes.size) l' w'
    | ((.error _, l'), w') => J l' w'

section missing

variable {I : Nat → ρ → World → Prop} {J : ρ → World → Prop} {l : ρ} {w : World}

namespace ChunkReader

/-- How many bytes a reader still asks its source for, to have as many as wanted. -/
def missing (want : Nat) (r : ChunkReader) : Nat :=
  if r.ended then 0 else want - r.buffer.size

/-- **Collecting bytes** reads as long as some are missing.  The induction is that of `fill`. -/
theorem meets_collect_missing (h : read.Follows I J) (want : Nat) (inUse : Bool) {r : ChunkReader}
    (hI : I (r.missing want) l w) :
    Meets read (collect want inUse) r l w (fun _ _ l w => I 0 l w) fun _ _ l w => J l w := by
  unfold Meets collect
  fun_induction fill want inUse r generalizing l w with
  | case1 r hmissing room =>
    rename_i ih
    have hcap : want ≤ room.capacity := Room.le_capacity_reserve want r.buffer.size inUse r.room
    rw [missing, hmissing.2, if_neg Bool.false_ne_true] at hI
    have hread := h (by omega) (by omega : 0 < room.capacity - r.buffer.size) hI
    rw [Source.run_ask_read]
    generalize w.run (read (room.capacity - r.buffer.size) l) = x at hread
    rcases x with ⟨⟨e | bytes, l'⟩, w'⟩
    · exact hread
    dsimp only at hread ⊢
    by_cases h0 : bytes.size = 0
    · rw [dif_pos h0]
      rw [if_pos (isEmpty_iff.2 (ByteArray.size_eq_zero_iff.1 h0))] at hread
      exact hread
    · rw [dif_neg h0]
      have hne : ¬ bytes.isEmpty = true := fun he =>
        h0 (ByteArray.size_eq_zero_iff.2 (isEmpty_iff.1 he))
      rw [if_neg hne] at hread
      refine ih bytes h0 ?_
      rw [missing, hmissing.2, if_neg Bool.false_ne_true]
      show I (want - (r.buffer ++ bytes).size) l' w'
      rw [ByteArray.size_append, ← Nat.sub_sub]
      exact hread
  | case2 r hmissing =>
    -- Either enough has been collected, or the input has ended.
    have hnone : r.missing want = 0 := by
      unfold missing
      split
      · rfl
      next hended =>
        have hle : ¬ r.buffer.size < want := fun hlt =>
          hmissing ⟨hlt, Bool.not_eq_true _ ▸ hended⟩
        omega
    rw [hnone] at hI
    exact hI

end ChunkReader

/-- What is drawn for a block of a pass, and what is asked then.  A head draws the salt and the
nonce of its pass at once, and asks for the password. -/
def PassSettings.Draws (settings : PassSettings) (head : Prop) (random : ByteArray)
    (asked : List PassInfo) : Prop :=
  (head → ∃ bytes : Bytes Limits.headRandomBytes,
    random = bytes.data ∧ asked = [settings.questionOf bytes]) ∧
  (¬ head → random.size = settings.algorithm.ivBytes ∧ asked = [])

namespace Encryptor

-- What a step meets is read off the rules for its parts, never off its run.
attribute [local irreducible] Meets

variable {e : Encryptor} {events : List Event} {settings : PassSettings}

/-- How many bytes a session still asks its source for, to have its next chunk and a byte more. -/
def missing (e : Encryptor) : Nat :=
  e.reader.missing (e.readTarget + 1)

theorem meets_nextChunk_missing (h : read.Follows I J) (hI : I e.missing l w) :
    Meets read nextChunk e l w (fun _ _ l w => I 0 l w) fun _ _ l w => J l w := by
  unfold nextChunk ChunkReader.readAvailable ChunkReader.handOut
  simp only [meets_bind, meets_get, meets_onPart, meets_modify, meets_modifyGet, meets_pure]
  exact ChunkReader.meets_collect_missing h (e.readTarget + 1) false hI

theorem closed_quiet : Closed fun _ step => step.Quiet [] where
  toClosed := Step.Quiet.closed
  modify _ _ := .done _

/-- How a step of a session ends that has drawn as `D` says: nothing was missing when it did. -/
def DrewNext (D : ByteArray → List PassInfo → Prop) (I : Nat → ρ → World → Prop)
    (events events' : List Event) (l : ρ) (w : World) : Prop :=
  ∃ (w₁ : World) (reads : List Event), I 0 l w₁ ∧ Plain reads ∧
    Step.Drew D (events ++ reads) l w₁ events' l w

/-- How a step of a session fails: it has drawn as well, or a read has failed. -/
def FailsNext (D : ByteArray → List PassInfo → Prop) (I : Nat → ρ → World → Prop)
    (J : ρ → World → Prop) (events events' : List Event) (l : ρ) (w : World) : Prop :=
  DrewNext D I events events' l w ∨ J l w ∧ ∃ reads, Plain reads ∧ events' = events ++ reads

/-- A step that takes a chunk, then draws once, and is quiet after that. -/
theorem meets_settle_draw (h : read.Follows I J) (hI : I e.missing l w) {expected : Stage}
    {operation : String} (hstage : e.stage = expected) {n : Nat}
    {rest : Chunk → Bytes n → Step Encryptor Block} {D : ByteArray → List PassInfo → Prop}
    (hrest : ∀ chunk random, ∃ asked, (rest chunk random).Quiet asked ∧ D random.data asked) :
    Meets read (Step.traced (settle do
        require expected operation
        let chunk ← nextChunk
        let random ← Step.ofProgram (Host.draw n)
        rest chunk random)) (e, events) l w
      (fun _ t l w => DrewNext D I events t.2 l w)
      fun _ t l w => FailsNext D I J events t.2 l w := by
  rw [meets_traced_settle, meets_traced_bind, meets_traced_require hstage, meets_traced_bind]
  refine (Meets.traced_of_readsOnly (s := (e, events)) readsOnly_nextChunk
    (meets_nextChunk_missing h hI)).mono (fun chunk t l w hc => ?_) fun _ _ _ _ hb => .inr hb
  rcases t with ⟨e', events'⟩
  rcases hc with ⟨hnone, reads, hplain, rfl⟩
  have hdrew : ∀ {events' : List Event} {l' : ρ} {w' : World},
      Step.Drew D (events ++ reads) l w events' l' w' → DrewNext D I events events' l' w' := by
    rintro events' l' w' ⟨random, asked, rfl, hD, hhappened, hsince⟩
    exact ⟨w, reads, hnone, hplain, random, asked, rfl, hD, hhappened, hsince⟩
  exact (Step.meets_traced_draw_quiet (hrest chunk)).mono (fun _ _ _ _ hd => hdrew hd)
    fun _ _ _ _ hd => .inl (hdrew hd)

/-- **A session comes to its next block** by reading what is missing, then drawing once. -/
theorem meets_next_block (h : read.Follows I J)
    (hstage : e.stage = .initialized ∨ e.stage = .headDone) (hI : I e.missing l w) :
    Meets read (Step.traced (encryptBlock settings)) (e, events) l w
      (fun _ t l w => DrewNext (settings.Draws (e.stage = .initialized)) I events t.2 l w)
      fun _ t l w => FailsNext (settings.Draws (e.stage = .initialized)) I J events t.2 l w := by
  -- Head and further block differ in what they draw, and in what they do quietly after that.
  rcases hstage with hstage | hstage
  · rw [meets_traced_encryptBlock_of_initialized hstage]
    refine meets_settle_draw h hI hstage fun chunk random => ?_
    refine ⟨[settings.questionOf random], ?_, fun _ => ⟨random, rfl, rfl⟩, fun hne =>
      absurd hstage hne⟩
    unfold PassSettings.questionOf
    rcases splitRandom settings.algorithm random with ⟨salt, iv⟩
    exact .bind (.password _) fun reply => closed_quiet.bind (closed_quiet.except _) fun answer =>
      closed_quiet.sealHead .derive _ _ _ _
  · rw [meets_traced_encryptBlock_of_headDone hstage]
    have hhead : ¬ e.stage = .initialized := fun h => Stage.noConfusion (h.symm.trans hstage)
    refine meets_settle_draw h hI hstage fun chunk iv => ?_
    refine ⟨[], closed_quiet.bind closed_quiet.get fun e => ?_, fun he => absurd he hhead,
      fun _ => ⟨iv.size_data, rfl⟩⟩
    split
    · exact closed_quiet.bind (closed_quiet.except _) fun parts => closed_quiet.finishBlock _ _
    · exact closed_quiet.throw _

end Encryptor

end missing

end SealedStream
