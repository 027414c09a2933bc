import SealedStream.Proofs.Walk
import SealedStream.Stream

/-!
# Faults that come from outside

A session meets two things that it cannot do anything about: a read that fails, and an answer that
it cannot use (`causeOf`).  It is prompt if it then fails at once, and with the fault that was the
cause.  Prompt steps make prompt steps, and an outlet of a prompt session is a prompt source, so
that a fault deep inside a pipeline ends all of it.

* `Prompt.eq_of_findSome?`: a prompt program that meets a cause has failed for it.
* `EncryptedPass.prompt_next`, `Pipeline.prompt_readFrom`: encryption is prompt, in any number of
  passes.
* `Decryptor.prompt_decryptBlock`, `Decryptor.prompt_openPass`: the sessions of decryption are
  prompt.
-/

namespace SealedStream

/-! ### Causes -/

/-- Why encryption cannot go on with a reply.  A hint that is too long is named before a password
that is empty. -/
def refusal : Except Fault Answer → Option Fault
  | .error fault => some fault
  | .ok answer =>
    if Limits.hintMaxChars < (answer.hint.getD "").length then some .longHint
    else if answer.password.isEmpty then some .emptyPassword
    else none

/-- What an event gives as a cause for failing, if it does. -/
def causeOf : Event → Option Fault
  | ⟨.read _, reply⟩ =>
    match (reply : Except IoFault ByteArray) with
    | .error e => some (.ofIoFault e)
    | .ok _ => none
  | ⟨.password _, reply⟩ => refusal reply
  | ⟨.draw _, _⟩ => none
  | ⟨.derive _, _⟩ => none

/-- The fault of a result. -/
def faultOf {α : Type} : Except Fault α → Option Fault
  | .error fault => some fault
  | .ok _ => none

/-- The fault of a read. -/
def readFault {α : Type} : Except IoFault α → Option Fault
  | .error e => some (.ofIoFault e)
  | .ok _ => none

theorem eq_error_of_faultOf {α : Type} {result : Except Fault α} {fault : Fault}
    (h : faultOf result = some fault) : result = .error fault := by
  rcases result with fault' | a
  · cases h
    rfl
  · cases h

theorem refusal_eq_none_iff {reply : Except Fault Answer} :
    refusal reply = none ↔ Usable reply := by
  rcases reply with fault | answer
  · constructor
    · intro h
      cases h
    · rintro ⟨answer, h, -⟩
      cases h
  · rw [refusal]
    constructor
    · intro h
      by_cases hhint : Limits.hintMaxChars < (answer.hint.getD "").length
      · rw [if_pos hhint] at h
        cases h
      · rw [if_neg hhint] at h
        by_cases hempty : answer.password.isEmpty = true
        · rw [if_pos hempty] at h
          cases h
        · refine ⟨answer, rfl, ?_, Nat.le_of_not_lt hhint⟩
          rintro hp
          exact hempty (String.isEmpty_iff.2 hp)
    · rintro ⟨answer', h, hne, hhint⟩
      cases h
      rw [if_neg (Nat.not_lt.2 hhint), if_neg]
      rintro hempty
      exact hne (String.isEmpty_iff.1 hempty)

/-! ### Prompt programs -/

namespace Program

variable {α β σ : Type} {refused refused' : Except Fault Answer → Option Fault}
  {failure : α → Option Fault} {failure' : β → Option Fault}

/-- A program that fails as soon as a read fails or an answer is refused, and for that cause;
`failure` tells from its result whether and why it failed. -/
inductive Prompt (refused : Except Fault Answer → Option Fault) (failure : α → Option Fault) :
    Program Host α → Prop
  | done (a : α) : Prompt refused failure (.done a)
  | read {n : Nat} {next : Except IoFault ByteArray → Program Host α} :
    (∀ e, ∃ a, next (.error e) = .done a ∧ failure a = some (.ofIoFault e)) →
    (∀ reply, Prompt refused failure (next reply)) →
    Prompt refused failure (.ask (I := Host) (.read n) next)
  | draw {n : Nat} {next : Bytes n → Program Host α} :
    (∀ reply, Prompt refused failure (next reply)) →
    Prompt refused failure (.ask (I := Host) (.draw n) next)
  | password {info : PassInfo} {next : Except Fault Answer → Program Host α} :
    (∀ reply fault, refused reply = some fault →
      ∃ a, next reply = .done a ∧ failure a = some fault) →
    (∀ reply, Prompt refused failure (next reply)) →
    Prompt refused failure (.ask (I := Host) (.password info) next)
  | derive {d : Derivation} {next : Key → Program Host α} :
    (∀ reply, Prompt refused failure (next reply)) →
    Prompt refused failure (.ask (I := Host) (.derive d) next)

namespace Prompt

/-- What refuses more answers refuses these, too. -/
theorem mono {p : Program Host α} (h : Prompt refused failure p)
    (hr : ∀ reply fault, refused' reply = some fault → refused reply = some fault) :
    Prompt refused' failure p := by
  induction h with
  | done a => exact .done a
  | read hfails _ ih => exact .read hfails ih
  | draw _ ih => exact .draw ih
  | password hfails _ ih =>
    exact .password (fun reply fault hf => hfails reply fault (hr reply fault hf)) ih
  | derive _ ih => exact .derive ih

theorem bind {p : Program Host α} (h : Prompt refused failure p) {f : α → Program Host β}
    (hfailed : ∀ a fault, failure a = some fault → ∃ b, f a = .done b ∧ failure' b = some fault)
    (hf : ∀ a, Prompt refused failure' (f a)) : Prompt refused failure' (p >>= f) := by
  -- What has failed before is not gone on with.
  have hbind : ∀ {q : Program Host α} {a : α} {fault : Fault}, q = .done a →
      failure a = some fault → ∃ b, q.bind f = .done b ∧ failure' b = some fault := by
    rintro q a fault rfl hfault
    exact hfailed a fault hfault
  induction h with
  | done a => exact hf a
  | read hfails _ ih =>
    refine .read (fun e => ?_) ih
    rcases hfails e with ⟨a, hdone, hfault⟩
    exact hbind hdone hfault
  | draw _ ih => exact .draw ih
  | password hfails _ ih =>
    refine .password (fun reply fault hrefused => ?_) ih
    rcases hfails reply fault hrefused with ⟨a, hdone, hfault⟩
    exact hbind hdone hfault
  | derive _ ih => exact .derive ih

/-- **A prompt program that meets a cause** has failed for the first one that it met. -/
theorem eq_of_findSome? {p : Program Host α} (h : Prompt refusal failure p) {w : World}
    {fault : Fault} (hcause : (w.eventsOf p).findSome? causeOf = some fault) :
    failure (w.run p).1 = some fault := by
  induction h generalizing w with
  | done a => cases hcause
  | @read n next hfails _ ih =>
    rw [World.eventsOf_ask, List.findSome?_cons] at hcause
    rw [World.run_ask]
    cases hreply : (World.answer (.read n) w).1 with
    | ok bytes =>
      rw [hreply] at hcause
      exact ih _ hcause
    | error e =>
      rw [hreply] at hcause
      rcases hfails e with ⟨a, hdone, hfault⟩
      rw [hdone]
      exact hfault.trans hcause
  | draw _ ih =>
    rw [World.eventsOf_ask] at hcause
    exact ih _ hcause
  | @password info next hfails _ ih =>
    rw [World.eventsOf_ask, List.findSome?_cons] at hcause
    rw [World.run_ask]
    cases hreply : refusal (World.answer (.password info) w).1 with
    | none =>
      rw [show causeOf ⟨.password info, (World.answer (.password info) w).1⟩ = none
        from hreply] at hcause
      exact ih _ hcause
    | some fault' =>
      rw [show causeOf ⟨.password info, (World.answer (.password info) w).1⟩ = some fault'
        from hreply] at hcause
      rcases hfails _ _ hreply with ⟨a, hdone, hfault⟩
      rw [hdone]
      exact hfault.trans hcause
  | derive _ ih =>
    rw [World.eventsOf_ask] at hcause
    exact ih _ hcause

/-- **A prompt program whose reads are served** by a prompt source is prompt. -/
theorem serveReads {p : Program Host α} (h : Prompt refused failure p)
    {read : Nat → σ → Program Host (Except IoFault ByteArray × σ)}
    (hread : ∀ n s, Prompt refused (fun x => readFault x.1) (read n s)) (s : σ) :
    Prompt refused (fun x => failure x.1)
      (p.serve (J := Host) (SealedStream.serveReads read) s) := by
  -- What has failed is not gone on with, served or not.
  have hserve : ∀ {q : Program Host α} {a : α} {fault : Fault} (s : σ), q = .done a →
      failure a = some fault →
      ∃ x, q.serve (J := Host) (SealedStream.serveReads read) s = .done x ∧
        failure x.1 = some fault := by
    rintro q a fault s rfl hfault
    exact ⟨(a, s), rfl, hfault⟩
  induction h generalizing s with
  | done a => exact .done _
  | @read n next hfails _ ih =>
    refine (hread n s).bind (fun x fault hx => ?_) fun x => ih x.1 x.2
    rcases x with ⟨e | bytes, s⟩
    · cases hx
      rcases hfails e with ⟨a, hdone, hfault⟩
      exact hserve s hdone hfault
    · cases hx
  | draw _ ih => exact .draw fun reply => ih reply s
  | password hfails _ ih =>
    refine .password (fun reply fault hrefused => ?_) fun reply => ih reply s
    rcases hfails reply fault hrefused with ⟨a, hdone, hfault⟩
    exact hserve s hdone hfault
  | derive _ ih => exact .derive fun reply => ih reply s

end Prompt

end Program

/-! ### Prompt steps -/

namespace Step

variable {σ τ α β : Type} {refused : Except Fault Answer → Option Fault}

theorem get_bind_apply (f : σ → Step σ β) (s : σ) :
    (MonadState.get >>= f : Step σ β) s = f s s := rfl

theorem error_bind_apply (fault : Fault) (f : α → Step σ β) (s : σ) :
    (liftM (.error fault : Except Fault α) >>= f : Step σ β) s = .done (.error fault, s) := rfl

theorem throw_bind_apply (fault : Fault) (f : α → Step σ β) (s : σ) :
    (MonadExcept.throw fault >>= f : Step σ β) s = .done (.error fault, s) := rfl

/-- A step that fails as soon as a read fails or an answer is refused. -/
def Prompt (refused : Except Fault Answer → Option Fault) (step : Step σ α) : Prop :=
  ∀ s, Program.Prompt refused (fun x => faultOf x.1) (step s)

namespace Prompt

theorem draw (n : Nat) : Prompt refused (ofProgram (Host.draw n) : Step σ (Bytes n)) :=
  fun _ => .draw fun _ => .done _

theorem derive (d : Derivation) : Prompt refused (ofProgram (Host.derive d) : Step σ Key) :=
  fun _ => .derive fun _ => .done _

theorem bind {x : Step σ α} {f : α → Step σ β} (hx : x.Prompt refused)
    (hf : ∀ a, (f a).Prompt refused) : (x >>= f).Prompt refused := by
  intro s
  rw [Step.bind_apply]
  refine (hx s).bind (fun r fault hr => ?_) fun r => ?_
  · rcases r with ⟨fault' | a, t⟩
    · exact ⟨_, rfl, hr⟩
    · cases hr
  · rcases r with ⟨fault' | a, t⟩
    · exact .done _
    · exact hf a t

/-- A question is followed by what fails at once if the answer cannot be used. -/
theorem password_bind (info : PassInfo) {f : Except Fault Answer → Step σ β}
    (hrefused : ∀ reply fault, refused reply = some fault →
      ∀ s, ∃ s', f reply s = .done (.error fault, s'))
    (hf : ∀ reply, (f reply).Prompt refused) :
    (ofProgram (Host.password info) >>= f).Prompt refused := by
  intro s
  refine .password (fun reply fault hcause => ?_) fun reply => hf reply s
  rcases hrefused reply fault hcause s with ⟨s', h⟩
  exact ⟨_, h, rfl⟩

theorem onPart {part : σ → τ} {update : σ → τ → σ} {step : Step τ α}
    (h : step.Prompt refused) : (Step.onPart part update step).Prompt refused := by
  intro s
  refine (h (part s)).bind (fun x fault hx => ⟨_, rfl, hx⟩) fun x => .done _

/-- **Prompt steps make prompt steps.** -/
theorem closed : Closed fun _ (step : Step σ _) => step.Prompt refused where
  pure _ _ := .done _
  throw _ _ := .done _
  get _ := .done _
  except x s := by
    cases x with
    | ok a => exact .done _
    | error fault => exact .done _
  bind := .bind
  rethrow f h s := by
    rw [Step.tryCatch_apply]
    refine (h s).bind (fun r fault hr => ?_) fun r => ?_
    · rcases r with ⟨fault' | a, t⟩
      · exact ⟨_, rfl, hr⟩
      · cases hr
    · rcases r with ⟨fault' | a, t⟩
      · exact .done _
      · exact .done _

end Prompt

end Step

/-! ### Sessions -/

namespace ChunkReader

variable {refused : Except Fault Answer → Option Fault}

theorem prompt_collect (want : Nat) (inUse : Bool) : (collect want inUse).Prompt refused := by
  intro r
  show Program.Prompt _ _ (fill want inUse r)
  fun_induction fill want inUse r with
  | case1 r hmissing room ih =>
    refine .read (fun e => ⟨_, rfl, rfl⟩) fun reply => ?_
    rcases reply with e | bytes
    · exact .done _
    dsimp only
    split
    · exact .done _
    next h0 => exact ih bytes h0
  | case2 r hmissing => exact .done _

theorem closed_prompt : Closed fun _ step => step.Prompt refused where
  toClosed := Step.Prompt.closed
  collect := prompt_collect
  handOut _ _ := .done _

end ChunkReader

namespace Encryptor

variable {settings : PassSettings} {refused : Except Fault Answer → Option Fault}

theorem closed_prompt : Closed fun _ step => step.Prompt refused where
  toClosed := Step.Prompt.closed
  modify _ _ := .done _

theorem prompt_nextChunk : nextChunk.Prompt refused :=
  closed_prompt.nextChunk fun n => .onPart (ChunkReader.closed_prompt.readAvailable n false)

/-- An answer that cannot be used is refused before anything else is done. -/
theorem sealHead_of_refused {chunk : Chunk} {salt : Bytes 16} {iv : ByteArray} {answer : Answer}
    {fault : Fault} (h : refusal (.ok answer) = some fault) (e : Encryptor) :
    sealHead settings chunk salt iv answer e = .done (.error fault, e) := by
  rw [refusal] at h
  unfold sealHead
  by_cases hhint : Limits.hintMaxChars < (answer.hint.getD "").length
  · rw [if_pos hhint] at h ⊢
    cases h
    exact Step.throw_bind_apply _ _ e
  rw [if_neg hhint] at h ⊢
  by_cases hempty : answer.password.isEmpty = true
  · rw [if_pos hempty] at h
    cases h
    dsimp only
    rw [Step.get_bind_apply, Derivation.ofPassword_eq settings.iterations_mem, if_pos hempty,
      Step.error_bind_apply]
  · rw [if_neg hempty] at h
    cases h

theorem prompt_encryptHead : (encryptHead settings).Prompt refusal := by
  rw [encryptHead_eq]
  refine closed_prompt.rethrow _ (.bind (closed_prompt.require _ _) fun _ =>
    .bind prompt_nextChunk fun chunk => ?_)
  unfold answerHead
  refine .bind (.draw _) fun random => ?_
  rcases splitRandom settings.algorithm random with ⟨salt, iv⟩
  refine .password_bind _ (fun reply fault hrefused e => ?_) fun reply =>
    .bind (closed_prompt.except _) fun answer => closed_prompt.sealHead .derive _ _ _ _
  rcases reply with fault' | answer
  · cases hrefused
    exact ⟨e, rfl⟩
  · exact ⟨e, sealHead_of_refused hrefused e⟩

theorem prompt_encryptFurther : (encryptFurther settings).Prompt refused := by
  refine closed_prompt.rethrow _ (.bind (closed_prompt.require _ _) fun _ =>
    .bind prompt_nextChunk fun chunk => .bind (.draw _) fun iv => .bind closed_prompt.get
      fun e => ?_)
  split
  · exact .bind (closed_prompt.except _) fun parts => closed_prompt.finishBlock _ _
  · exact closed_prompt.throw _

theorem prompt_encryptBlock : (encryptBlock settings).Prompt refusal := by
  refine .bind closed_prompt.get fun e => ?_
  split
  · exact prompt_encryptHead
  · exact prompt_encryptFurther

end Encryptor

namespace Decryptor

variable {refused : Except Fault Answer → Option Fault}

theorem closed_prompt : Closed fun _ step => step.Prompt refused where
  toClosed := Step.Prompt.closed
  modify _ _ _ := .done _
  enter _ _ := .bind Step.Prompt.closed.get fun _ =>
    .bind (Step.Prompt.closed.except _) fun _ _ => .done _
  readFill n inUse := .onPart (ChunkReader.closed_prompt.readFill n inUse)
  readToLimit n inUse := .onPart (ChunkReader.closed_prompt.readToLimit n inUse)

theorem prompt_decodeHead : decodeHead.Prompt refused :=
  closed_prompt.decodeHead fun _ _ => .done _

theorem prompt_info : info.Prompt refused :=
  closed_prompt.settle prompt_decodeHead

/-- Decrypting fails at once if the question for the password is not answered. -/
theorem prompt_decryptBlock : decryptBlock.Prompt faultOf := by
  refine closed_prompt.decryptBlock prompt_decodeHead (fun info => ?_) .derive
  refine .password_bind info (fun reply fault hdeclined s => ?_) fun reply => closed_prompt.except _
  rcases reply with fault' | answer
  · cases hdeclined
    exact ⟨s, rfl⟩
  · cases hdeclined

/-- Starting a session fails as reading its first header does. -/
theorem prompt_start (credential : Credential) :
    Program.Prompt refused faultOf (start credential) := by
  refine (ChunkReader.closed_prompt.readFill Limits.headerBytes false {}).bind
    (fun x fault hx => ?_) fun x => .done _
  rcases x with ⟨fault' | chunk, reader⟩
  · cases hx
    exact ⟨_, rfl, rfl⟩
  · cases hx

theorem prompt_openPass (credential : Credential) :
    Program.Prompt refused faultOf (openPass credential) := by
  refine (prompt_start credential).bind (fun x fault hx => ?_) fun x => ?_
  · rcases x with fault' | d
    · exact ⟨_, rfl, hx⟩
    · cases hx
  · rcases x with fault' | d
    · exact .done _
    · refine (prompt_info d).bind (fun y fault hy => ?_) fun y => .done _
      rcases y with ⟨fault' | info, d⟩
      · exact ⟨_, rfl, hy⟩
      · cases hy

end Decryptor

/-! ### Pipelines -/

namespace EncryptedPass

theorem prompt_next : next.Prompt refusal :=
  .bind Step.Prompt.closed.get fun _ => .bind (.onPart Encryptor.prompt_encryptBlock) fun _ =>
    Step.Prompt.closed.pure _

end EncryptedPass

section pipelines

variable {ε : Type} {E : Engine ε} {refused : Except Fault Answer → Option Fault}

/-- An outlet tells the fault of its session. -/
theorem Outlet.prompt_fill (h : E.next.Prompt refused) (n : Nat) (o : Outlet ε) :
    Program.Prompt refused (fun x => readFault x.1) (Outlet.fill E n o) := by
  induction n generalizing o with
  | zero => exact .done _
  | succ n ih =>
    unfold Outlet.fill
    split
    · exact .done _
    split
    · exact .done _
    refine (h o.engine).bind (fun r fault hr => ?_) fun r => ?_
    · rcases r with ⟨fault' | bytes, e⟩
      · cases hr
        refine ⟨_, rfl, ?_⟩
        show some (Fault.ofIoFault fault.toIoFault) = _
        rw [Fault.ofIoFault_toIoFault]
      · cases hr
    · rcases r with ⟨fault' | bytes, e⟩
      · exact .done _
      · exact ih _

theorem Outlet.prompt_read (h : E.next.Prompt refused) (bound size : Nat) (o : Outlet ε) :
    Program.Prompt refused (fun x => readFault x.1) (Outlet.read E bound size o) := by
  refine (Outlet.prompt_fill h bound o).bind (fun r fault hr => ?_) fun r => ?_
  · rcases r with ⟨e | ⟨⟩, o⟩
    · exact ⟨_, rfl, hr⟩
    · cases hr
  · rcases r with ⟨e | ⟨⟩, o⟩
    · exact .done _
    · exact .done _

/-- **Nested passes are prompt**, since each tells the faults of the ones inside.  The induction is
on their number. -/
theorem Layers.prompt_read (h : E.next.Prompt refused) (bound n : Nat) :
    ∀ (size : Nat) (l : Layers ε n),
      Program.Prompt refused (fun x => readFault x.1) (Layers.read E bound n size l) := by
  induction n with
  | zero =>
    intro size l
    exact .read (fun e => ⟨_, rfl, rfl⟩) fun reply => .done _
  | succ n ih =>
    rintro size ⟨o, below⟩
    refine ((Outlet.prompt_read h bound size o).serveReads ih below).bind
      (fun r fault hr => ⟨_, rfl, hr⟩) fun r => .done _

theorem Pipeline.prompt_readFrom (h : E.next.Prompt refused) (bound n : Nat) (out : ByteArray)
    (p : Pipeline ε) : Program.Prompt refused faultOf (p.readFrom E bound n out) := by
  induction n generalizing out p with
  | zero => exact .done _
  | succ n ih =>
    have hread : Program.Prompt refused (fun x => readFault x.1)
        (p.read E bound Pipeline.pieceSize) :=
      (Layers.prompt_read h bound p.depth _ _).bind (fun r fault hr => ⟨_, rfl, hr⟩)
        fun r => .done _
    refine hread.bind (fun r fault hr => ?_) fun r => ?_
    · rcases r with ⟨e | bytes, q⟩
      · exact ⟨_, rfl, hr⟩
      · cases hr
    · rcases r with ⟨e | bytes, q⟩
      · exact .done _
      · dsimp only
        split
        · exact .done _
        · exact ih _ _

end pipelines

end SealedStream
