import SealedStream.Proofs.Cause
import SealedStream.Proofs.Encryption
import SealedStream.Proofs.Noted

/-!
# The first fault of a run

A fault of a pass crosses to the pass around it as a failed read, and is raised there again, and so
on outward.  So the notes of a run, if there are any, begin with what went wrong first, and go on
with the sessions further out, which fail one by one with the same fault (`Mishap.outward`); the
last of them ends the run.

What is proved of sessions, outlets and pipelines in turn is that their outcome tells of all that
has been noted (`Tells`); a session does because it is prompt.  And a mishap leaves the outlets on
its way at their end.

* `Program.Prompt.told_serve`, `tells_run`: sessions.
* `Outlet.ends_fillLogged`, `Layers.tells_readLogged`, `Pipeline.ends_drainLogged`: what reads them.
* `first_fault_unchanged`: the fault that a run ends with, in any number of passes.
-/

namespace SealedStream

/-! ### Outcomes that tell -/

namespace Mishap

/-- The first level of which the session cannot have failed yet. -/
def next : Mishap → Nat
  | source _ => 1
  | answer level _ => level
  | session level _ => level + 1

/-- What follows a mishap, when there are `n` levels: the sessions further out fail one by one, each
with the fault of the first. -/
def outward (m : Mishap) (n : Nat) : List Mishap :=
  (List.range' m.next (n + 1 - m.next)).map fun level => .session level m.fault

theorem outward_of_lt {m : Mishap} {n : Nat} (h : n < m.next) : m.outward n = [] := by
  rw [outward, Nat.sub_eq_zero_of_le h]
  rfl

theorem outward_succ {m : Mishap} {n : Nat} (h : m.next ≤ n + 1) :
    m.outward (n + 1) = m.outward n ++ [.session (n + 1) m.fault] := by
  have hcount : n + 1 + 1 - m.next = n + 1 - m.next + 1 := by omega
  have hlast : m.next + (n + 1 - m.next) = n + 1 := by omega
  rw [outward, hcount, List.range'_1_concat, List.map_append, hlast]
  rfl

end Mishap

/-- An outcome, which is a failure or not, is told of what has been noted before it at `n` levels:
either nothing has been, or it is a failure with the fault of what went wrong first. -/
def Told (n : Nat) (before : List Mishap) (failure : Option Fault) (after : List Mishap) : Prop :=
  after = before ∨
    ∃ m, m.next ≤ n + 1 ∧ after = before ++ m :: m.outward n ∧ failure = some m.fault

/-- Moreover a failure has been noted, unless it is that a bound was exceeded. -/
structure Tells (n : Nat) (before : List Mishap) (failure : Option Fault) (after : List Mishap) :
    Prop where
  told : Told n before failure after
  noted : ∀ fault, failure = some fault → after = before → fault = .unbounded

section tells

variable {n : Nat} {before after : List Mishap} {failure : Option Fault} {fault : Fault}

/-- Where nothing has failed, nothing has been noted. -/
theorem Told.eq_of_none (h : Told n before none after) : after = before := by
  rcases h with h | ⟨m, -, -, hm⟩
  · exact h
  · cases hm

theorem Tells.refl_none (n : Nat) (before : List Mishap) : Tells n before none before :=
  ⟨.inl rfl, nofun⟩

theorem Tells.refl_unbounded (n : Nat) (before : List Mishap) :
    Tells n before (some .unbounded) before :=
  ⟨.inl rfl, fun _ h _ => (Option.some.inj h).symm⟩

/-- A first mishap, which no session has failed for yet. -/
theorem Tells.first (m : Mishap) (hn : m.next = n + 1) (before : List Mishap) :
    Tells n before (some m.fault) (before ++ [m]) := by
  refine ⟨.inr ⟨m, Nat.le_of_eq hn, ?_, rfl⟩, fun _ _ hsame => ?_⟩
  · rw [Mishap.outward_of_lt (by omega)]
  · cases List.append_right_eq_self.1 hsame

/-- The session further out fails for the same reason. -/
theorem Told.outward (h : Told n before (some fault) after) :
    Tells (n + 1) before (some fault) (after ++ [.session (n + 1) fault]) := by
  rcases h with rfl | ⟨m, hm, rfl, hfault⟩
  · exact .first (.session (n + 1) fault) rfl after
  · cases hfault
    refine ⟨.inr ⟨m, Nat.le_succ_of_le hm, ?_, rfl⟩, fun _ _ hsame => ?_⟩
    · rw [Mishap.outward_succ hm, List.append_assoc]
      rfl
    · rw [List.append_assoc] at hsame
      cases List.append_right_eq_self.1 hsame

end tells

/-! ### Sessions -/

theorem Turn.failure?_ofBlock (result : Except Fault ByteArray) :
    (ofBlock result).failure? = faultOf result := by
  cases result <;> rfl

theorem Turn.failure?_ofOpening (result : Except Fault (PassInfo × Decryptor)) :
    (ofOpening result).failure? = faultOf result := by
  cases result <;> rfl

/-- What a program ends with, in whatever world. -/
def Program.Always {α : Type} (p : Program Host α) (P : α → Prop) : Prop :=
  ∀ w : World, P (w.run p).1

namespace Program.Always

variable {α β : Type} {p : Program Host α} {P : α → Prop} {Q : β → Prop}

theorem pure {a : α} (h : P a) : Program.Always (.done a) P :=
  fun _ => h

theorem bind (h : p.Always P) {f : α → Program Host β} (hf : ∀ a, P a → (f a).Always Q) :
    (p >>= f).Always Q := by
  intro w
  rw [World.run_bind]
  exact hf _ (h w) _

end Program.Always

/-- The outcome of a program with notes, of which `failure` is the fault, tells of what the program
has noted at `n` levels. -/
def TellsRun {α σ : Type} (n : Nat) (failure : α → Option Fault) (s : Logged Mishap σ)
    (p : Program Host (α × Logged Mishap σ)) : Prop :=
  p.Always fun x => Tells n s.log (failure x.1) x.2.log

section sessions

variable {ε σ α : Type} {n : Nat} {read : Source (Logged Mishap σ)} {failure : α → Option Fault}

theorem tells_password (info : PassInfo) (s : Logged Mishap σ) :
    TellsRun n faultOf s (Logger.notes.serve (n + 1) read (.password info) s) := by
  refine Program.Always.bind (P := fun _ => True) (fun _ => trivial) fun reply _ => ?_
  rcases reply with fault | answer
  · exact .pure (.first (.answer (n + 1) fault) rfl s.log)
  · exact .pure (.refl_none n s.log)

/-- **A prompt session** of which the reads tell is told of what has been noted: after the first
mishap it has failed, with that fault.  The induction follows its requests. -/
theorem Program.Prompt.told_serve {p : Program Host α} (h : p.Prompt faultOf failure)
    (hread : ∀ size s, TellsRun n readFault s (read size s)) (events : List Event)
    (s : Logged Mishap σ) :
    ((p.traced events).serve (J := Host) (Logger.notes.serve (n + 1) read) s).Always fun x =>
      Told n s.log (failure x.1.1) x.2.log := by
  -- A session that has failed does nothing more.
  have hfailed : ∀ {before : List Mishap} {q : Program Host α} {a : α} {fault : Fault}
      {events : List Event} {t : Logged Mishap σ}, q = .done a → failure a = some fault →
      Told n before (some fault) t.log →
      ((q.traced events).serve (J := Host) (Logger.notes.serve (n + 1) read) t).Always fun x =>
        Told n before (failure x.1.1) x.2.log := by
    rintro before q a fault events t rfl hfault htold
    refine .pure ?_
    show Told n before (failure a) t.log
    rw [hfault]
    exact htold
  induction h generalizing events s with
  | done a => exact .pure (.inl rfl)
  | @read size next hfails _ ih =>
    refine (hread size s).bind fun x htells => ?_
    rcases x with ⟨e | bytes, t⟩
    · rcases hfails e with ⟨a, hdone, hfault⟩
      exact hfailed hdone hfault htells.told
    · rw [← htells.told.eq_of_none]
      exact ih (.ok bytes) _ t
  | draw _ ih => exact fun w => ih _ _ s _
  | @password info next hfails _ ih =>
    refine (tells_password info s).bind fun x htells => ?_
    rcases x with ⟨fault | answer, t⟩
    · rcases hfails (.error fault) fault rfl with ⟨a, hdone, hfault⟩
      exact hfailed hdone hfault htells.told
    · rw [← htells.told.eq_of_none]
      exact ih (.ok answer) _ t
  | derive _ ih => exact fun w => ih _ _ s _

/-- **A turn of a prompt session** tells, for it is noted if the session fails. -/
theorem tells_run {session : Program Host α} (h : session.Prompt faultOf failure)
    (hread : ∀ size s, TellsRun n readFault s (read size s)) {outcome : α → Turn}
    (houtcome : ∀ a, (outcome a).failure? = failure a) (s : Logged Mishap σ) :
    TellsRun (n + 1) failure s (Logger.notes.run (n + 1) read outcome session s) := by
  refine (h.told_serve hread [] s).bind fun x htold => .pure ?_
  rcases x with ⟨⟨a, events⟩, t⟩
  show Tells (n + 1) s.log (failure a)
    (t.put ((outcome a).failure?.map (Mishap.session (n + 1)))).log
  dsimp only at htold
  rw [houtcome]
  cases hfailure : failure a with
  | none =>
    rw [hfailure] at htold
    exact ⟨.inl htold.eq_of_none, nofun⟩
  | some fault =>
    rw [hfailure] at htold
    exact htold.outward

/-! ### Outlets -/

/-- An outlet that gives nothing any more. -/
structure Outlet.Silent (o : Outlet ε) : Prop where
  ended : o.ended = true
  pending : o.pending = .empty

/-- Reading an outlet tells what has been noted, and the outlet is silent after a mishap. -/
structure Outlet.Ends (n : Nat) (before : List Mishap) (failure : Option Fault) (o : Outlet ε)
    (after : List Mishap) : Prop where
  tells : Tells n before failure after
  silent : after ≠ before → o.Silent

variable {E : Engine ε}

/-- **An outlet of a prompt session** tells what the session does, for a fault comes out of a failed
read as it went in.  The induction is on the number of blocks. -/
theorem Outlet.ends_fillLogged (h : E.next.Prompt faultOf)
    (hread : ∀ size s, TellsRun n readFault s (read size s)) (bound : Nat) (o : Outlet ε)
    (s : Logged Mishap σ) :
    (fillLogged .notes E (n + 1) read bound o s).Always fun x =>
      Ends (n + 1) s.log (readFault x.1.1) x.1.2 x.2.log := by
  induction bound generalizing o s with
  | zero => exact .pure ⟨.refl_unbounded _ _, fun hne => absurd rfl hne⟩
  | succ bound ih =>
    unfold fillLogged
    by_cases hready : (o.ended || !o.pending.isEmpty) = true
    · rw [if_pos hready]
      exact .pure ⟨.refl_none _ _, fun hne => absurd rfl hne⟩
    rw [if_neg hready]
    by_cases hfinished : E.isFinished o.engine = true
    · rw [if_pos hfinished]
      exact .pure ⟨.refl_none _ _, fun hne => absurd rfl hne⟩
    rw [if_neg hfinished]
    refine (tells_run (h o.engine) hread (fun x => Turn.failure?_ofBlock x.1) s).bind
      fun x htells => ?_
    rcases x with ⟨⟨fault | bytes, engine⟩, t⟩
    · refine .pure ⟨?_, fun _ => ⟨rfl, ?_⟩⟩
      · show Tells (n + 1) s.log (some (Fault.ofIoFault fault.toIoFault)) t.log
        rw [Fault.ofIoFault_toIoFault]
        exact htells
      · rw [Bool.or_eq_true, not_or, Bool.not_eq_true', Bool.not_eq_false] at hready
        exact isEmpty_iff.1 hready.2
    · rw [← htells.told.eq_of_none]
      exact ih _ t

theorem Outlet.ends_readLogged (h : E.next.Prompt faultOf)
    (hread : ∀ size s, TellsRun n readFault s (read size s)) (bound size : Nat) (o : Outlet ε)
    (s : Logged Mishap σ) :
    (readLogged .notes E (n + 1) read bound size o s).Always fun x =>
      Ends (n + 1) s.log (readFault x.1.1) x.1.2 x.2.log := by
  refine (ends_fillLogged h hread bound o s).bind fun x hends => ?_
  rcases x with ⟨⟨e | ⟨⟩, o'⟩, t⟩
  · exact .pure hends
  · exact .pure ⟨hends.tells, fun hne => absurd hends.tells.told.eq_of_none hne⟩

end sessions

/-! ### Pipelines -/

/-- Passes that give nothing any more: a read of any size finds the end, asks for nothing and
changes nothing. -/
def Pipeline.Silent {ε : Type} (E : Engine ε) (bound : Nat) (p : Pipeline ε) : Prop :=
  ∀ size, p.read E bound size = pure (.ok .empty, p)

section pipelines

variable {ε : Type} {E : Engine ε} {bound : Nat}

theorem Outlet.Silent.read_eq {o : Outlet ε} (h : o.Silent) (hbound : 0 < bound) (size : Nat) :
    Outlet.read E bound size o = pure (.ok .empty, o) := by
  rcases o with ⟨engine, pending, ended⟩
  rcases h with ⟨rfl, rfl⟩
  rcases Nat.exists_eq_add_one_of_ne_zero (Nat.pos_iff_ne_zero.1 hbound) with ⟨k, rfl⟩
  have hnone : ∀ i j, ByteArray.empty.extract i j = .empty := by
    intro i j
    rw [← ByteArray.size_eq_zero_iff, ByteArray.size_extract]
    exact Nat.sub_eq_zero_of_le (Nat.le_trans (Nat.min_le_right _ _) (Nat.zero_le i))
  have hread : Outlet.read E (k + 1) size ⟨engine, .empty, true⟩
      = pure (.ok (ByteArray.empty.extract 0 size),
          ⟨engine, ByteArray.empty.extract size ByteArray.empty.size, true⟩) := rfl
  rw [hread, hnone, hnone]

theorem Outlet.Silent.pipeline {o : Outlet ε} (h : o.Silent) (hbound : 0 < bound) {n : Nat}
    (below : Layers ε n) : Pipeline.Silent E bound ⟨n + 1, (o, below)⟩ := by
  intro size
  show ((Outlet.read E bound size o).serve (J := Host) _ below >>= _) >>= _ = _
  rw [h.read_eq hbound]
  rfl

/-- **Nested passes** tell, since each tells of the ones inside.  The induction is on their
number. -/
theorem Layers.tells_readLogged (h : E.next.Prompt faultOf) (bound n : Nat) :
    ∀ (size : Nat) (s : Logged Mishap (Layers ε n)),
      TellsRun n readFault s (readLogged .notes E bound n size s) := by
  induction n with
  | zero =>
    intro size s
    refine Program.Always.bind (P := fun _ => True) (fun _ => trivial) fun reply _ => ?_
    rcases reply with e | bytes
    · have hfault : Fault.ofIoFault e = (Mishap.source e).fault := by
        cases e <;> rfl
      refine .pure ?_
      show Tells 0 s.log (some (Fault.ofIoFault e)) (s.log ++ [.source e])
      rw [hfault]
      exact .first (.source e) rfl s.log
    · exact .pure (.refl_none 0 s.log)
  | succ n ih =>
    rintro size ⟨⟨o, below⟩, mishaps⟩
    exact (Outlet.ends_readLogged h ih bound size o ⟨below, mishaps⟩).bind fun x hends =>
      .pure hends.tells

namespace Pipeline

/-- Reading passes, of which there are some, tells what has been noted, and the passes are silent
after a mishap. -/
structure Ends (E : Engine ε) (bound : Nat) (before : List Mishap) (failure : Option Fault)
    (s : Logged Mishap (Pipeline ε)) : Prop where
  tells : Tells s.state.depth before failure s.log
  silent : s.log ≠ before → s.state.Silent E bound
  depth : 0 < s.state.depth

theorem ends_readLogged (h : E.next.Prompt faultOf) (hbound : 0 < bound) (size : Nat)
    {s : Logged Mishap (Pipeline ε)} (hdepth : 0 < s.state.depth) :
    (readLogged .notes E bound size s).Always fun x => Ends E bound s.log (readFault x.1) x.2 := by
  rcases s with ⟨⟨_ | n, o, below⟩, mishaps⟩
  · exact absurd hdepth (Nat.lt_irrefl 0)
  refine Program.Always.bind (P := fun x => Tells (n + 1) mishaps (readFault x.1) x.2.log ∧
    (x.2.log ≠ mishaps → x.2.state.1.Silent)) ?_ fun x hends => ?_
  · exact (Outlet.ends_readLogged h (Layers.tells_readLogged h bound n) bound size o
      ⟨below, mishaps⟩).bind fun x hends => .pure ⟨hends.tells, hends.silent⟩
  · rcases x with ⟨result, ⟨o', below'⟩, after⟩
    exact .pure ⟨hends.1, fun hne => (hends.2 hne).pipeline hbound below', hdepth⟩

/-- **Reading everything** tells what has been noted.  The induction is on the number of pieces. -/
theorem ends_drainLogged (h : E.next.Prompt faultOf) (hbound : 0 < bound) (n : Nat)
    (out : ByteArray) {s : Logged Mishap (Pipeline ε)} (hdepth : 0 < s.state.depth) :
    (drainLogged .notes E bound n out s).Always fun x => Ends E bound s.log (faultOf x.1) x.2 := by
  induction n generalizing out s with
  | zero => exact .pure ⟨.refl_unbounded _ _, fun hne => absurd rfl hne, hdepth⟩
  | succ n ih =>
    unfold drainLogged
    refine (ends_readLogged h hbound pieceSize hdepth).bind fun x hends => ?_
    rcases x with ⟨e | bytes, t⟩
    · exact .pure hends
    have hsame : t.log = s.log := hends.tells.told.eq_of_none
    show Program.Always (ite (bytes.isEmpty = true) _ _) _
    split
    · exact .pure hends
    · rw [← hsame]
      exact ih _ hends.depth

theorem tells_feedLogged {α : Type} {failure : α → Option Fault} {session : Program Host α}
    (h : E.next.Prompt faultOf) (hsession : session.Prompt faultOf failure) {outcome : α → Turn}
    (houtcome : ∀ a, (outcome a).failure? = failure a) (bound : Nat)
    (s : Logged Mishap (Pipeline ε)) :
    TellsRun (s.state.depth + 1) failure s (feedLogged .notes E bound outcome session s) :=
  (tells_run hsession (Layers.tells_readLogged h bound s.state.depth) houtcome
    ⟨s.state.layers, s.log⟩).bind fun _ htells => .pure htells

end Pipeline

end pipelines

/-- **Opening a stream** tells what has been noted.  The induction is on the number of passes. -/
theorem tells_openLogged (bound : Nat) (credential : Credential) (n : Nat)
    (s : Logged Mishap (Pipeline Decryptor)) :
    (openLogged .notes bound credential n s).Always fun x =>
      (∃ k, Tells k s.log (faultOf x.1) x.2) ∧ ∀ p, x.1 = .ok p → 0 < p.depth := by
  induction n generalizing s with
  | zero => exact .pure ⟨⟨0, .refl_unbounded _ _⟩, fun p hp => by cases hp⟩
  | succ n ih =>
    unfold openLogged
    refine (Pipeline.tells_feedLogged Decryptor.prompt_decryptBlock
      (Decryptor.prompt_openPass credential) Turn.failure?_ofOpening bound s).bind
      fun x htells => ?_
    rcases x with ⟨fault | ⟨info, d⟩, t⟩
    · exact .pure ⟨⟨_, htells⟩, fun p hp => by cases hp⟩
    have hsame : t.log = s.log := htells.told.eq_of_none
    show Program.Always (ite (1 < info.loop.index) _ _) _
    split
    · rw [← hsame]
      exact ih _
    · refine .pure ⟨⟨_, htells⟩, fun p hp => ?_⟩
      cases hp
      exact Nat.succ_pos _

/-! ### Whole streams -/

/-- What the notes of a run say: what went wrong first is what it fails with, then the passes
further out failed with it one by one, and then they give nothing any more.  A run does not fail
without a note, but for its bound. -/
structure NotedRun.EndsWithFirst {ε : Type} (E : Engine ε) (bound : Nat) (run : NotedRun ε) :
    Prop where
  first : ∀ m later, run.mishaps = m :: later → run.result = .error m.fault ∧
    ∃ n, later = m.outward n ∧ ∀ p, run.reader = some p → n = p.depth
  silent : run.mishaps ≠ [] → ∀ p, run.reader = some p → p.Silent E bound
  noted : ∀ fault, run.result = .error fault → run.mishaps = [] → fault = .unbounded

section runs

variable {ε : Type} {E : Engine ε} {bound : Nat}

theorem NotedRun.endsWithFirst_of_tells {run : NotedRun ε} {n : Nat}
    (h : Tells n [] (faultOf run.result) run.mishaps)
    (hdepth : ∀ p, run.reader = some p → n = p.depth)
    (hsilent : run.mishaps ≠ [] → ∀ p, run.reader = some p → p.Silent E bound) :
    run.EndsWithFirst E bound := by
  refine ⟨fun m later hmishaps => ?_, hsilent, fun fault hresult => ?_⟩
  · rcases h.told with hnone | ⟨m', -, hall, hfault⟩
    · cases hmishaps.symm.trans hnone
    · cases hmishaps.symm.trans hall
      exact ⟨eq_error_of_faultOf hfault, n, rfl, hdepth⟩
  · refine h.noted fault ?_
    rw [hresult]
    rfl

theorem Pipeline.endsWithFirst_readAllNoted (h : E.next.Prompt faultOf) (hbound : 0 < bound)
    {p : Pipeline ε} (hdepth : 0 < p.depth) :
    (readAllNoted E bound ⟨p, []⟩).Always (NotedRun.EndsWithFirst E bound) := by
  refine (ends_drainLogged h hbound bound .empty hdepth).bind fun x hends => .pure ?_
  refine NotedRun.endsWithFirst_of_tells hends.tells (fun p hp => ?_) fun hne p hp => ?_
  · cases hp
    rfl
  · cases hp
    exact hends.silent hne

end runs

/-- **The first fault of a run is the one that it ends with**, in any number of passes, whichever
pass it is raised in, and whether by its session, by the answer to its question or by the input. -/
theorem first_fault_unchanged (plan : Plan) (credential : Credential) (w : World) :
    (w.encrypt plan credential
        = ((w.encryptNoted plan credential).1.result, (w.encryptNoted plan credential).2) ∧
      (w.encryptNoted plan credential).1.EndsWithFirst EncryptedPass.engine
        (plan.outputBound w.inputBound)) ∧
    w.decrypt credential
        = ((w.decryptNoted credential).1.result, (w.decryptNoted credential).2) ∧
      (w.decryptNoted credential).1.EndsWithFirst Decryptor.engine w.inputBound := by
  have hencrypt : EncryptedPass.engine.next.Prompt faultOf := fun e => by
    refine (EncryptedPass.prompt_next e).mono fun reply fault hdeclined => ?_
    rcases reply with fault' | answer
    · exact hdeclined
    · cases hdeclined
  refine ⟨⟨w.encryptNoted_eq plan credential, ?_⟩, w.decryptNoted_eq credential, ?_⟩
  · have hbound := plan.le_outputBound w.inputBound
    exact Pipeline.endsWithFirst_readAllNoted hencrypt (by omega)
      (Nat.pos_of_ne_zero (plan.depth_pipeline credential)) w
  · refine Program.Always.bind (tells_openLogged _ credential _ ⟨.empty, []⟩)
      (fun x htells => ?_) w
    rcases x with ⟨fault | p, mishaps⟩
    · rcases htells.1 with ⟨n, htells⟩
      exact .pure (NotedRun.endsWithFirst_of_tells htells (fun p hp => by cases hp)
        fun _ p hp => by cases hp)
    · obtain rfl : mishaps = [] := htells.1.elim fun _ htells => htells.told.eq_of_none
      exact Pipeline.endsWithFirst_readAllNoted Decryptor.prompt_decryptBlock
        (Nat.succ_pos _) (htells.2 p rfl)

/-- The innermost of three passes asks, and is not answered. -/
theorem first_fault_unchanged_declined :
    ∃ (plan : Plan) (w : World), plan.count = 3 ∧
      (w.encryptNoted plan ⟨.zeros 32⟩).1.mishaps
        = [.answer 1 .cancelled, .session 1 .cancelled, .session 2 .cancelled,
            .session 3 .cancelled] ∧
      (w.encryptNoted plan ⟨.zeros 32⟩).1.result = .error .cancelled := by
  let plan : Plan :=
    ⟨[.aesGcm, .aegis256, .aesGcm], Limits.iterationsDefault, Limits.readStart, by decide,
      by decide, by decide⟩
  let w : World := { input := [] }
  have hmishaps : (w.encryptNoted plan ⟨.zeros 32⟩).1.mishaps
      = [.answer 1 .cancelled, .session 1 .cancelled, .session 2 .cancelled,
          .session 3 .cancelled] := by
    decide +kernel
  have hends := first_fault_unchanged plan ⟨.zeros 32⟩ w
  exact ⟨plan, w, rfl, hmishaps, (hends.1.2.first _ _ hmishaps).1⟩

end SealedStream
