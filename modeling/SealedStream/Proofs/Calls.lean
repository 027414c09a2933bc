import SealedStream.Proofs.Cause
import SealedStream.Proofs.Representation

/-!
# Sessions that are called in any order

Whoever has a session can call it for anything at any time.  A kind of session (`Session`) says
which step a call takes, and at which stages the call is in its turn; `Session.callAll` makes some
calls in turn, whether or not they fail.  Both kinds are stated alike here: sessions that encrypt
(`Encryptor.session`) and sessions that decrypt (`Decryptor.session`).

* `faults_are_final`: the first call that fails ends a session for good.  All later calls are
  refused for that alone, and do nothing.  A call out of its turn is refused for the stage that it
  found, does nothing besides, and is such a fault.
-/

namespace SealedStream

variable {κ σ α ρ : Type}

/-! ### Kinds of sessions -/

/-- A kind of session: its calls, and the stages of its states. -/
structure Session (κ σ α : Type) where
  /-- The step that a call takes. -/
  step : κ → Step σ α
  /-- The stage of a session. -/
  stage : σ → Stage
  /-- The stages at which a call is in its turn. -/
  turns : κ → List Stage
  /-- What a call is in the message of its refusal. -/
  operation : κ → String

namespace Session

/-- Some calls in turn, whether or not they fail, and what each of them gives. -/
def callAll (S : Session κ σ α) : List κ → σ → Program Host (List (Except Fault α) × σ)
  | [], s => return ([], s)
  | call :: calls, s => do
    let (result, s) ← S.step call s
    let (results, s) ← S.callAll calls s
    return (result :: results, s)

/-- The refusal of a call at a stage. -/
def refusal (S : Session κ σ α) (stage : Stage) (call : κ) : Except Fault α :=
  .error (.stageViolation stage (S.operation call))

variable (S : Session κ σ α) (read : Source ρ)

theorem run_callAll_cons (call : κ) (calls : List κ) (s : σ) (l : ρ) (w : World) :
    read.run (S.callAll (call :: calls) s) l w =
      let first := read.run (S.step call s) l w
      let rest := read.run (S.callAll calls first.1.1.2) first.1.2 first.2
      (((first.1.1.1 :: rest.1.1.1, rest.1.1.2), rest.1.2), rest.2) := by
  rw [callAll, Source.run_bind, Source.run_bind]
  rfl

/-- A call on its own, and the others after it. -/
theorem run_callAll_of_run {call : κ} {calls : List κ} {s s' s'' : σ} {w w' w'' : World}
    {result : Except Fault α} {results : List (Except Fault α)}
    (h : w.run (S.step call s) = ((result, s'), w'))
    (hlater : w'.run (S.callAll calls s') = ((results, s''), w'')) :
    w.run (S.callAll (call :: calls) s) = ((result :: results, s''), w'') := by
  rw [callAll, World.run_bind, h, World.run_bind, hlater]
  rfl

/-- **Calls in two parts** are the calls of the first part, and then those of the second. -/
theorem run_callAll_append (before after : List κ) (s : σ) (l : ρ) (w : World) :
    read.run (S.callAll (before ++ after) s) l w =
      let first := read.run (S.callAll before s) l w
      let rest := read.run (S.callAll after first.1.1.2) first.1.2 first.2
      (((first.1.1.1 ++ rest.1.1.1, rest.1.1.2), rest.1.2), rest.2) := by
  induction before generalizing s l w with
  | nil => rfl
  | cons call before ih =>
    rw [List.cons_append, run_callAll_cons, run_callAll_cons]
    dsimp only
    rw [ih]
    rfl

/-- **What every call keeps, any calls in turn keep**: a property of a session and of what its calls
have given so far.  The induction is on the calls. -/
theorem callAll_keeps {S : Session κ σ α} (read : Source ρ)
    (Inv : σ → ρ → World → List (Except Fault α) → Prop)
    (hstep : ∀ call s l w results, Inv s l w results →
      Meets read (S.step call) s l w (fun reply s l w => Inv s l w (results ++ [.ok reply]))
        fun fault s l w => Inv s l w (results ++ [.error fault]))
    (calls : List κ) {s : σ} {l : ρ} {w : World} {results : List (Except Fault α)}
    (h : Inv s l w results) :
    let ran := read.run (S.callAll calls s) l w
    Inv ran.1.1.2 ran.1.2 ran.2 (results ++ ran.1.1.1) := by
  induction calls generalizing s l w results with
  | nil =>
    rw [← List.append_nil results] at h
    exact h
  | cons call calls ih =>
    have hcall := hstep call s l w results h
    unfold Meets at hcall
    rw [run_callAll_cons]
    generalize read.run (S.step call s) l w = x at hcall
    rcases x with ⟨⟨⟨fault | reply, s'⟩, l'⟩, w'⟩
    · have hlater := ih hcall
      simp only [List.append_assoc] at hlater
      exact hlater
    · have hlater := ih hcall
      simp only [List.append_assoc] at hlater
      exact hlater

/-- Each call gives a result. -/
theorem length_callAll (calls : List κ) (s : σ) (l : ρ) (w : World) :
    (read.run (S.callAll calls s) l w).1.1.1.length = calls.length := by
  induction calls generalizing s l w with
  | nil => rfl
  | cons call calls ih =>
    rw [run_callAll_cons]
    exact congrArg (· + 1) (ih _ _ _)

/-! ### Final faults -/

/-- What makes the faults of a session final: each of its calls fails into the stage of failed
sessions, and out of its turn, which it never is at that stage, it does nothing else. -/
structure Settles : Prop where
  refuses : ∀ call s, S.stage s ∉ S.turns call →
    ∃ s', S.stage s' = .failed ∧ S.step call s = .done (S.refusal (S.stage s) call, s')
  fails : ∀ {ρ : Type} (read : Source ρ) (call : κ) (s : σ) (l : ρ) (w : World),
    Meets read (S.step call) s l w (fun _ _ _ _ => True) fun _ s' _ _ => S.stage s' = .failed
  failed_not_mem_turns : ∀ call, Stage.failed ∉ S.turns call

variable {S read} {s : σ} {l : ρ} {w : World}

/-- **A failed session does nothing any more**, whatever it is called for: there is no request in
what is left of it. -/
theorem Settles.callAll_of_failed (hS : S.Settles) (calls : List κ) (hs : S.stage s = .failed) :
    ∃ s', S.stage s' = .failed ∧
      S.callAll calls s = .done (calls.map (S.refusal .failed), s') := by
  induction calls generalizing s with
  | nil => exact ⟨s, hs, rfl⟩
  | cons call calls ih =>
    have hturn : S.stage s ∉ S.turns call := by
      rw [hs]
      exact hS.failed_not_mem_turns call
    obtain ⟨s', hs', hstep⟩ := hS.refuses call s hturn
    obtain ⟨s'', hs'', hcalls⟩ := ih hs'
    refine ⟨s'', hs'', ?_⟩
    rw [callAll, hstep, hs]
    show S.callAll calls s' >>= _ = _
    rw [hcalls]
    rfl

/-- `n` calls have succeeded, the next has failed, and the session with it. -/
def FailsAfter (S : Session κ σ α) (n : Nat) : List (Except Fault α) × σ → Prop
  | (results, s) => S.stage s = .failed ∧
      ∃ (replies : List α) (fault : Fault), replies.length = n ∧
        results = replies.map .ok ++ [.error fault]

/-- **Calls in turn** all succeed, or succeed up to the first that fails.  The induction is on the
calls. -/
theorem Settles.first_fault (hS : S.Settles) (read : Source ρ) (calls : List κ) (s : σ) (l : ρ)
    (w : World) :
    (∃ replies : List α, (read.run (S.callAll calls s) l w).1.1.1 = replies.map .ok) ∨
      ∃ before call later, calls = before ++ call :: later ∧
        S.FailsAfter before.length (read.run (S.callAll (before ++ [call]) s) l w).1.1 := by
  induction calls generalizing s l w with
  | nil => exact .inl ⟨[], rfl⟩
  | cons call calls ih =>
    have hfails := hS.fails read call s l w
    unfold Meets at hfails
    generalize hstep : read.run (S.step call s) l w = x at hfails
    rcases x with ⟨⟨⟨fault | reply, s'⟩, l'⟩, w'⟩
    · -- This call is the first that fails.
      refine .inr ⟨[], call, calls, rfl, ?_⟩
      rw [List.nil_append, run_callAll_cons, hstep]
      exact ⟨hfails, [], fault, rfl, rfl⟩
    · obtain ⟨replies, hreplies⟩ | ⟨before, call', later, rfl, hfirst⟩ :=
        ih s' l' w'
      · refine .inl ⟨reply :: replies, ?_⟩
        rw [run_callAll_cons, hstep]
        exact congrArg (.ok reply :: ·) hreplies
      · refine .inr ⟨call :: before, call', later, rfl, ?_⟩
        rw [List.cons_append, run_callAll_cons, hstep]
        obtain ⟨hs, replies, fault, hlength, hreplies⟩ := hfirst
        exact ⟨hs, reply :: replies, fault, congrArg (· + 1) hlength,
          congrArg (.ok reply :: ·) hreplies⟩

/-- **The faults of a kind of session are final.** -/
structure FaultsAreFinal (S : Session κ σ α) : Prop where
  /-- A call out of its turn is refused for the stage of the session, without any request, and ends
  the session. -/
  out_of_turn : ∀ call s, S.stage s ∉ S.turns call →
    ∃ s', S.stage s' = .failed ∧ S.step call s = .done (S.refusal (S.stage s) call, s')
  /-- Whatever the calls are and wherever the input comes from, all of them succeed, or there is a
  first that fails.  The session has failed then, and what is left to do for the later calls is to
  refuse them for that, again without any request. -/
  first_fault : ∀ {ρ : Type} (read : Source ρ) (calls : List κ) (s : σ) (l : ρ) (w : World),
    (∃ replies : List α, (read.run (S.callAll calls s) l w).1.1.1 = replies.map .ok) ∨
      ∃ before call later, calls = before ++ call :: later ∧
        let failing := read.run (S.callAll (before ++ [call]) s) l w
        S.FailsAfter before.length failing.1.1 ∧
          ∃ s', S.stage s' = .failed ∧
            S.callAll later failing.1.1.2 = .done (later.map (S.refusal .failed), s') ∧
            read.run (S.callAll calls s) l w
              = (((failing.1.1.1 ++ later.map (S.refusal .failed), s'), failing.1.2), failing.2)

theorem Settles.faultsAreFinal (hS : S.Settles) : S.FaultsAreFinal where
  out_of_turn := hS.refuses
  first_fault read calls s l w := by
    obtain hall | ⟨before, call, later, rfl, hfirst⟩ :=
      hS.first_fault read calls s l w
    · exact .inl hall
    · obtain ⟨s', hs', hlater⟩ := hS.callAll_of_failed later hfirst.1
      refine .inr ⟨before, call, later, rfl, hfirst, s', hs', hlater, ?_⟩
      have hsplit : before ++ call :: later = before ++ [call] ++ later := by
        rw [List.append_assoc]
        rfl
      rw [hsplit, run_callAll_append]
      dsimp only
      rw [hlater]
      rfl

end Session

/-! ### Sessions that encrypt -/

namespace Encryptor

/-- What a session can be called for, each time with settings of its own. -/
inductive Call
  /-- The head. -/
  | head (settings : PassSettings)
  /-- A further block. -/
  | further (settings : PassSettings)
  /-- The head or a further block, whichever is next. -/
  | block (settings : PassSettings)

/-- The step that a call takes. -/
def Call.step : Call → Step Encryptor Block
  | head settings => encryptHead settings
  | further settings => encryptFurther settings
  | block settings => encryptBlock settings

/-- The stages at which a call is in its turn. -/
def Call.turns : Call → List Stage
  | head _ => [.initialized]
  | further _ => [.headDone]
  | block _ => [.initialized, .headDone]

/-- What a call is in the message of its refusal. -/
def Call.operation : Call → String
  | head _ => "encrypt block0"
  | further _ => "encrypt blockN"
  | block _ => "encrypt blockN"

/-- Sessions that encrypt. -/
def session : Session Call Encryptor Block where
  step := Call.step
  stage := Encryptor.stage
  turns := Call.turns
  operation := Call.operation

variable {read : Source ρ} {e : Encryptor} {l : ρ} {w : World}

/-- A fault leaves a session failed and without keys. -/
theorem failed_of_settle (step : Step Encryptor α) :
    Meets read (settle step) e l w (fun _ _ _ _ => True) fun _ e' _ _ =>
      e'.stage = .failed ∧ e'.keys = none ∧
        ∀ tag, e'.lastTag = some tag → tag = Bytes.zeros 32 := by
  unfold settle
  rw [meets_tryCatch]
  refine (Meets.trivial _).mono (fun _ _ _ _ _ => trivial) fun fault e' _ _ _ => ?_
  rw [meets_bind, meets_modify, meets_throw]
  refine ⟨rfl, rfl, fun tag h => ?_⟩
  obtain ⟨_, -, hzeros⟩ := Option.map_eq_some_iff.1 h
  exact hzeros.symm

/-- A step out of its turn does nothing but fail. -/
theorem settle_require_of_ne {expected : Stage} {operation : String}
    {next : Unit → Step Encryptor α} (h : e.stage ≠ expected) :
    settle (require expected operation >>= next) e
      = .done (.error (.stageViolation e.stage operation),
          { e.dropKeys with stage := .failed }) := by
  have hrefused : e.stage.require [expected] operation
      = .error (.stageViolation e.stage operation) :=
    if_neg fun hmem => h (List.mem_singleton.1 hmem)
  have hstep : (require expected operation >>= next) e
      = .done (.error (.stageViolation e.stage operation), e) := by
    unfold require
    rw [bind_assoc, Step.get_bind_apply, hrefused, Step.error_bind_apply]
  unfold settle
  rw [Step.tryCatch_apply, hstep]
  rfl

theorem encryptHead_of_ne {settings : PassSettings} (h : e.stage ≠ .initialized) :
    encryptHead settings e
      = .done (.error (.stageViolation e.stage "encrypt block0"),
          { e.dropKeys with stage := .failed }) :=
  settle_require_of_ne h

theorem encryptFurther_of_ne {settings : PassSettings} (h : e.stage ≠ .headDone) :
    encryptFurther settings e
      = .done (.error (.stageViolation e.stage "encrypt blockN"),
          { e.dropKeys with stage := .failed }) :=
  settle_require_of_ne h

theorem encryptBlock_of_ne {settings : PassSettings} (h : e.stage ≠ .initialized) :
    encryptBlock settings e = encryptFurther settings e := by
  unfold encryptBlock
  rw [Step.get_bind_apply]
  cases hs : e.stage with
  | initialized => exact absurd hs h
  | headDecoded | headDone | finished | failed => rfl

theorem settles_session : session.Settles where
  refuses call e hturn := by
    refine ⟨{ e.dropKeys with stage := .failed }, rfl, ?_⟩
    cases call with
    | head settings => exact encryptHead_of_ne fun h => hturn (List.mem_singleton.2 h)
    | further settings => exact encryptFurther_of_ne fun h => hturn (List.mem_singleton.2 h)
    | block settings =>
      obtain ⟨hinitialized, hdone⟩ : e.stage ≠ .initialized ∧ e.stage ≠ .headDone := by
        simpa [session, Call.turns] using hturn
      exact (encryptBlock_of_ne hinitialized).trans (encryptFurther_of_ne hdone)
  fails read call e l w := by
    have hfailed : ∀ step : Step Encryptor Block,
        Meets read (settle step) e l w (fun _ _ _ _ => True) fun _ e' _ _ =>
          e'.stage = .failed :=
      fun step => (failed_of_settle step).mono (fun _ _ _ _ h => h) fun _ _ _ _ h => h.1
    cases call with
    | head settings => exact hfailed _
    | further settings => exact hfailed _
    | block settings =>
      show Meets read (encryptBlock settings) e l w _ _
      unfold encryptBlock
      rw [meets_bind, meets_get]
      split
      · exact hfailed _
      · exact hfailed _
  failed_not_mem_turns call := by cases call <;> simp [session, Call.turns]

end Encryptor

/-! ### Sessions that decrypt -/

namespace Decryptor

/-- The stages at which a call is in its turn.  The metadata can be had at any time, but not from a
session that has failed. -/
def Call.turns : Call → List Stage
  | info => [.initialized, .headDecoded, .headDone, .finished]
  | head => [.initialized, .headDecoded]
  | further => [.headDone]
  | block => [.initialized, .headDecoded, .headDone]

/-- What a call is in the message of its refusal. -/
def Call.operation : Call → String
  | info => "decode block0"
  | head => "decrypt block0"
  | further => "decrypt blockN"
  | block => "decrypt blockN"

/-- Sessions that decrypt. -/
def session : Session Call Decryptor Reply where
  step := Call.step
  stage := Decryptor.stage
  turns := Call.turns
  operation := Call.operation

theorem session_callAll (calls : List Call) (d : Decryptor) :
    session.callAll calls d = callAll calls d := by
  induction calls generalizing d with
  | nil => rfl
  | cons call calls ih =>
    rw [Session.callAll, callAll]
    simp only [ih]
    rfl

variable {read : Source ρ} {d : Decryptor} {l : ρ} {w : World}

/-- A fault leaves a session failed. -/
theorem failed_of_settle (step : Step Decryptor α) :
    Meets read (settle step) d l w (fun _ _ _ _ => True) fun _ d' _ _ => d'.stage = .failed := by
  unfold settle
  rw [meets_tryCatch]
  refine (Meets.trivial _).mono (fun _ _ _ _ _ => trivial) fun fault d' _ _ _ => ?_
  rw [meets_bind, meets_modify, meets_throw]

/-- A step that fails at once does nothing but fail. -/
theorem settle_of_refused {step : Step Decryptor α} {fault : Fault}
    (h : step d = .done (.error fault, d)) :
    settle step d = .done (.error fault, { d.dropKeys with stage := .failed, head := none }) := by
  unfold settle
  rw [Step.tryCatch_apply, h]
  rfl

theorem require_bind_of_not_mem {expected : List Stage} {operation : String}
    {next : Unit → Step Decryptor α} (h : d.stage ∉ expected) :
    (require expected operation >>= next) d
      = .done (.error (.stageViolation d.stage operation), d) := by
  have hrefused : d.stage.require expected operation
      = .error (.stageViolation d.stage operation) := if_neg h
  unfold require
  rw [bind_assoc, Step.get_bind_apply, hrefused, Step.error_bind_apply]

/-- A failed session does not say what it knew. -/
theorem decodeHead_of_failed (h : d.stage = .failed) :
    decodeHead d = .done (.error (.stageViolation d.stage "decode block0"), d) := by
  have hrequire : ∀ next : Unit → Step Decryptor PassInfo,
      (require [.initialized] "decode block0" >>= next) d
        = .done (.error (.stageViolation d.stage "decode block0"), d) :=
    fun next => require_bind_of_not_mem (by rw [h]; decide)
  unfold decodeHead
  rw [Step.get_bind_apply]
  cases d.metadata with
  | none => exact hrequire _
  | some info =>
    dsimp only
    rw [if_neg (not_not_intro h)]
    exact hrequire _

theorem decryptHead_of_not_mem (h : d.stage ∉ [Stage.initialized, .headDecoded]) :
    decryptHead d
      = .done (.error (.stageViolation d.stage "decrypt block0"),
          { d.dropKeys with stage := .failed, head := none }) :=
  settle_of_refused (require_bind_of_not_mem h)

theorem decryptFurther_of_not_mem (h : d.stage ∉ [Stage.headDone]) :
    decryptFurther d
      = .done (.error (.stageViolation d.stage "decrypt blockN"),
          { d.dropKeys with stage := .failed, head := none }) :=
  settle_of_refused (require_bind_of_not_mem h)

theorem decryptBlock_of_not_mem (h : d.stage ∉ [Stage.initialized, .headDecoded]) :
    decryptBlock d = decryptFurther d := by
  obtain ⟨hinitialized, hdecoded⟩ : d.stage ≠ .initialized ∧ d.stage ≠ .headDecoded := by
    simpa using h
  unfold decryptBlock
  rw [Step.get_bind_apply]
  cases hs : d.stage with
  | initialized => exact absurd hs hinitialized
  | headDecoded => exact absurd hs hdecoded
  | headDone | finished | failed => rfl

/-- A call is a step whose result is put among the replies. -/
theorem bind_reply_of_refused {step : Step Decryptor α} (f : α → Reply) {fault : Fault}
    {d' : Decryptor} (h : step d = .done (.error fault, d')) :
    (step >>= fun a => pure (f a) : Step Decryptor Reply) d = .done (.error fault, d') := by
  rw [Step.bind_apply, h]
  rfl

theorem settles_session : session.Settles where
  refuses call d hturn := by
    refine ⟨{ d.dropKeys with stage := .failed, head := none }, rfl, ?_⟩
    cases call with
    | info =>
      have hfailed : d.stage = .failed := by
        change d.stage ∉ [_, _, _, _] at hturn
        cases hs : d.stage with
        | failed => rfl
        | initialized | headDecoded | headDone | finished => simp [hs] at hturn
      exact bind_reply_of_refused _ (settle_of_refused (decodeHead_of_failed hfailed))
    | head => exact bind_reply_of_refused _ (decryptHead_of_not_mem hturn)
    | further => exact bind_reply_of_refused _ (decryptFurther_of_not_mem hturn)
    | block =>
      have hhead : d.stage ∉ [Stage.initialized, .headDecoded] :=
        fun h => hturn (List.mem_append_left [Stage.headDone] h)
      have hfurther : d.stage ∉ [Stage.headDone] :=
        fun h => hturn (List.mem_append_right [Stage.initialized, .headDecoded] h)
      exact bind_reply_of_refused _
        ((decryptBlock_of_not_mem hhead).trans (decryptFurther_of_not_mem hfurther))
  fails read call d l w := by
    have hblock : Meets read decryptBlock d l w (fun _ _ _ _ => True)
        fun _ d' _ _ => d'.stage = .failed := by
      unfold decryptBlock
      rw [meets_bind, meets_get]
      split
      · exact failed_of_settle _
      · exact failed_of_settle _
      · exact failed_of_settle _
    cases call with
    | info => exact (meets_bind _ _).2 (failed_of_settle _)
    | head => exact (meets_bind _ _).2 (failed_of_settle _)
    | further => exact (meets_bind _ _).2 (failed_of_settle _)
    | block => exact (meets_bind _ _).2 hblock
  failed_not_mem_turns call := by cases call <;> decide

end Decryptor

/-- **Faults are final**, in sessions that encrypt and in sessions that decrypt, from whatever
state, and in whatever world. -/
theorem faults_are_final :
    Encryptor.session.FaultsAreFinal ∧ Decryptor.session.FaultsAreFinal :=
  ⟨Encryptor.settles_session.faultsAreFinal, Decryptor.settles_session.faultsAreFinal⟩

end SealedStream
