import SealedStream.Proofs.EncryptionFaults
import SealedStream.Proofs.Unwrapping

/-!
# Bounds that are large enough

Loops that end only because the input does take a bound.  A run that keeps within its bound does the
same with any larger one: the program with the larger bound goes on where the other would be cut
off, and is the same program otherwise (`Program.Extends`).  Since all sessions are prompt, being
cut off anywhere in a pipeline ends all of it, with the fault that says so.

* `World.run_encryption_of_le`, `World.run_decryption_of_le`: whole streams are never cut off with
  the bounds that their input has, so that these, or any larger ones, make no difference.
-/

namespace SealedStream

/-! ### Programs that go on -/

namespace Program

variable {α β σ : Type} {refused : Except Fault Answer → Option Fault}
  {failure : α → Option Fault} {failure' : β → Option Fault}

/-- A program, and one that is the same but goes on where the first is cut off for its bound. -/
inductive Extends (failure : α → Option Fault) : Program Host α → Program Host α → Prop
  | done (a : α) : Extends failure (.done a) (.done a)
  | cut {a : α} (p : Program Host α) : failure a = some .unbounded → Extends failure (.done a) p
  | ask {r : HostRequest} {next next' : r.Reply → Program Host α} :
    (∀ reply, Extends failure (next reply) (next' reply)) →
    Extends failure (.ask (I := Host) r next) (.ask (I := Host) r next')

namespace Extends

theorem refl (failure : α → Option Fault) (p : Program Host α) : Extends failure p p := by
  induction p with
  | done a => exact .done a
  | ask r next ih => exact .ask ih

/-- What has been cut off is not gone on with. -/
theorem bind {p q : Program Host α} (h : Extends failure p q) {f g : α → Program Host β}
    (hcut : ∀ a, failure a = some .unbounded → ∃ b, f a = .done b ∧ failure' b = some .unbounded)
    (hf : ∀ a, Extends failure' (f a) (g a)) : Extends failure' (p >>= f) (q >>= g) := by
  induction h with
  | done a => exact hf a
  | @cut a q hfailure =>
    rcases hcut a hfailure with ⟨b, hdone, hb⟩
    have hbind : (Program.done a : Program Host α) >>= f = .done b := hdone
    rw [hbind]
    exact .cut _ hb
  | ask _ ih => exact .ask ih

/-- **A prompt program whose reads are served** by a source that may be cut off is cut off with
it. -/
theorem serveReads {p q : Program Host α} (h : Extends failure p q)
    (hprompt : Prompt refused failure p)
    {read read' : Nat → σ → Program Host (Except IoFault ByteArray × σ)}
    (hread : ∀ n s, Extends (fun x => readFault x.1) (read n s) (read' n s)) (s : σ) :
    Extends (fun x => failure x.1) (p.serve (J := Host) (SealedStream.serveReads read) s)
      (q.serve (J := Host) (SealedStream.serveReads read') s) := by
  induction h generalizing s with
  | done a => exact .done _
  | cut q hfailure => exact .cut _ hfailure
  | @ask r next next' hnext ih =>
    cases hprompt with
    | read hfails hprompt =>
      refine (hread _ s).bind (fun x hx => ?_) fun x => ih x.1 (hprompt x.1) x.2
      rcases x with ⟨e | bytes, s⟩
      · rcases hfails e with ⟨a, hdone, hfailure⟩
        dsimp only
        rw [hdone]
        exact ⟨_, rfl, hfailure.trans hx⟩
      · cases hx
    | draw hprompt => exact .ask fun reply => ih reply (hprompt reply) s
    | password _ hprompt => exact .ask fun reply => ih reply (hprompt reply) s
    | derive hprompt => exact .ask fun reply => ih reply (hprompt reply) s

/-- **A run that is not cut off** goes no other way with a larger bound. -/
theorem run_eq {p q : Program Host α} (h : Extends failure p q) (w : World) :
    failure (w.run p).1 = some .unbounded ∨ w.run q = w.run p := by
  induction h generalizing w with
  | done a => exact .inr rfl
  | cut q hfailure => exact .inl hfailure
  | ask _ ih => exact ih _ _

end Extends

end Program

/-! ### Pipelines -/

section pipelines

variable {ε α : Type} {E : Engine ε} {refused : Except Fault Answer → Option Fault}
  {bound bound' : Nat}

theorem Outlet.extends_fill (h : bound ≤ bound') (o : Outlet ε) :
    Program.Extends (fun x => readFault x.1) (Outlet.fill E bound o) (Outlet.fill E bound' o) := by
  induction bound generalizing bound' o with
  | zero => exact .cut _ rfl
  | succ bound ih =>
    obtain ⟨bound', rfl⟩ := Nat.exists_eq_add_one_of_ne_zero (Nat.ne_zero_of_lt h)
    unfold Outlet.fill
    split
    · exact .done _
    split
    · exact .done _
    refine (Program.Extends.refl (fun x => faultOf x.1) (E.next o.engine)).bind
      (fun x hx => ?_) fun x => ?_
    · rcases x with ⟨fault | bytes, e⟩
      · cases hx
        exact ⟨_, rfl, rfl⟩
      · cases hx
    · rcases x with ⟨fault | bytes, e⟩
      · exact .done _
      · exact ih (Nat.le_of_succ_le_succ h) _

theorem Outlet.extends_read (h : bound ≤ bound') (size : Nat) (o : Outlet ε) :
    Program.Extends (fun x => readFault x.1) (Outlet.read E bound size o)
      (Outlet.read E bound' size o) := by
  refine (extends_fill h o).bind (fun x hx => ?_) fun x => .refl _ _
  rcases x with ⟨e | ⟨⟩, o⟩
  · exact ⟨_, rfl, hx⟩
  · cases hx

/-- **Nested passes** are cut off all together.  The induction is on their number. -/
theorem Layers.extends_read (hE : E.next.Prompt refused) (h : bound ≤ bound') (n : Nat) :
    ∀ (size : Nat) (l : Layers ε n),
      Program.Extends (fun x => readFault x.1) (Layers.read E bound n size l)
        (Layers.read E bound' n size l) := by
  induction n with
  | zero => exact fun size l => .refl _ _
  | succ n ih =>
    rintro size ⟨o, below⟩
    exact ((Outlet.extends_read h size o).serveReads (Outlet.prompt_read hE bound size o) ih
      below).bind (fun x hx => ⟨_, rfl, hx⟩) fun x => .done _

namespace Pipeline

theorem extends_read (hE : E.next.Prompt refused) (h : bound ≤ bound') (size : Nat)
    (p : Pipeline ε) :
    Program.Extends (fun x => readFault x.1) (p.read E bound size) (p.read E bound' size) :=
  (Layers.extends_read hE h p.depth size p.layers).bind (fun _ hx => ⟨_, rfl, hx⟩) fun _ => .done _

theorem extends_readFrom (hE : E.next.Prompt refused) (h : bound ≤ bound') {n n' : Nat}
    (hn : n ≤ n') (out : ByteArray) (p : Pipeline ε) :
    Program.Extends faultOf (p.readFrom E bound n out) (p.readFrom E bound' n' out) := by
  induction n generalizing n' out p with
  | zero => exact .cut _ rfl
  | succ n ih =>
    obtain ⟨n', rfl⟩ := Nat.exists_eq_add_one_of_ne_zero (Nat.ne_zero_of_lt hn)
    unfold readFrom
    refine (extends_read hE h pieceSize p).bind (fun x hx => ?_) fun x => ?_
    · rcases x with ⟨e | bytes, q⟩
      · exact ⟨_, rfl, hx⟩
      · cases hx
    · rcases x with ⟨e | bytes, q⟩
      · exact .done _
      · dsimp only
        split
        · exact .done _
        · exact ih (Nat.le_of_succ_le_succ hn) _ _

theorem extends_readAll (hE : E.next.Prompt refused) (h : bound ≤ bound') (p : Pipeline ε) :
    Program.Extends faultOf (p.readAll E bound) (p.readAll E bound') :=
  extends_readFrom hE h h _ _

theorem extends_feed {failure : α → Option Fault} {session : Program Host α}
    (hsession : session.Prompt refused failure) (hE : E.next.Prompt refused) (h : bound ≤ bound')
    (p : Pipeline ε) :
    Program.Extends (fun x => failure x.1) (p.feed E bound session) (p.feed E bound' session) :=
  ((Program.Extends.refl failure session).serveReads hsession (Layers.extends_read hE h p.depth)
    p.layers).bind (fun _ hx => ⟨_, rfl, hx⟩) fun _ => .done _

end Pipeline

theorem extends_openPasses (credential : Credential) (h : bound ≤ bound') {n n' : Nat}
    (hn : n ≤ n') (p : Pipeline Decryptor) :
    Program.Extends faultOf (openPasses bound credential n p)
      (openPasses bound' credential n' p) := by
  induction n generalizing n' p with
  | zero => exact .cut _ rfl
  | succ n ih =>
    obtain ⟨n', rfl⟩ := Nat.exists_eq_add_one_of_ne_zero (Nat.ne_zero_of_lt hn)
    unfold openPasses
    refine (Pipeline.extends_feed (Decryptor.prompt_openPass credential)
      Decryptor.prompt_decryptBlock h p).bind (fun x hx => ?_) fun x => ?_
    · rcases x with ⟨fault | ⟨info, d⟩, q⟩
      · exact ⟨_, rfl, hx⟩
      · cases hx
    · rcases x with ⟨fault | ⟨info, d⟩, q⟩
      · exact .done _
      · dsimp only
        split
        · exact ih (Nat.le_of_succ_le_succ hn) _
        · exact .done _

theorem extends_openStream (credential : Credential) (h : bound ≤ bound') :
    Program.Extends faultOf (openStream bound credential) (openStream bound' credential) :=
  extends_openPasses credential h h _

end pipelines

/-! ### Whole streams -/

/-- Decryption of all passes of a stream, as a program. -/
def decryption (bound : Nat) (credential : Credential) : Program Host (Except Fault ByteArray) := do
  match ← openStream bound credential with
  | .error fault => return .error fault
  | .ok p => p.readAll Decryptor.engine bound

theorem extends_decryption (credential : Credential) {bound bound' : Nat} (h : bound ≤ bound') :
    Program.Extends faultOf (decryption bound credential) (decryption bound' credential) := by
  refine (extends_openStream credential h).bind (fun x hx => ?_) fun x => ?_
  · rcases x with fault | p
    · exact ⟨_, rfl, hx⟩
    · cases hx
  · rcases x with fault | p
    · exact .done _
    · exact Pipeline.extends_readAll Decryptor.prompt_decryptBlock h p

namespace World

variable {w : World} {bound : Nat}

/-- Nothing that the world brings says that a bound was exceeded. -/
structure Bounded (w : World) : Prop where
  input : ∀ e, InputItem.failure e ∈ w.input → Fault.ofIoFault e ≠ .unbounded
  answers : ∀ infos, w.provider infos ≠ .error .unbounded

/-- What is refused of an answer does not say so, either. -/
theorem refusal_ne_unbounded {reply : Except Fault Answer} (h : reply ≠ .error .unbounded) :
    refusal reply ≠ some .unbounded := by
  rcases reply with fault | answer
  · intro hfault
    exact h (congrArg Except.error (Option.some.inj hfault))
  · intro hfault
    rw [refusal] at hfault
    split at hfault
    · cases hfault
    split at hfault
    · cases hfault
    · cases hfault

theorem Bounded.causeOf_ne (h : w.Bounded) {α : Type} (p : Program Host α) :
    (w.eventsOf p).findSome? causeOf ≠ some .unbounded := by
  intro hcause
  rcases exists_of_findSome? p hcause with ⟨e, he, hfault⟩ | ⟨info, reply, hasked, hrefused⟩
  · exact h.input e he hfault.symm
  · obtain ⟨before, rfl⟩ := exists_provider_of_mem_questions p hasked
    exact refusal_ne_unbounded (h.answers _) hrefused

theorem Bounded.encrypt_ne (h : w.Bounded) (plan : Plan) (credential : Credential) :
    (w.encrypt plan credential).1 ≠ .error .unbounded := by
  intro hfault
  exact h.causeOf_ne _ (encrypt_eq_error_iff.1 ⟨_, Prod.ext hfault rfl⟩)

theorem Bounded.decrypt_ne (h : w.Bounded) (credential : Credential) :
    (w.decrypt credential).1 ≠ .error .unbounded := by
  intro hfault
  rcases isVerdict_of_decrypt (v := (w.decrypt credential).2) (Prod.ext hfault rfl) with
    hverdict | ⟨e, he, hbrings⟩ | ⟨infos, hbrings⟩
  · exact hverdict
  · exact h.input e he hbrings.symm
  · exact h.answers _ hbrings

/-- **Encryption is never cut off** with the bound of its input, so that no larger one makes a
difference. -/
theorem run_encryption_of_le (h : w.Bounded) (plan : Plan) (credential : Credential)
    (hbound : plan.outputBound w.inputBound ≤ bound) :
    w.run ((plan.pipeline credential).readAll EncryptedPass.engine bound)
      = w.encrypt plan credential := by
  refine ((Pipeline.extends_readAll EncryptedPass.prompt_next hbound
    (plan.pipeline credential)).run_eq w).resolve_left fun hcut => ?_
  exact h.encrypt_ne plan credential (eq_error_of_faultOf hcut)

/-- **Nor is decryption.** -/
theorem run_decryption_of_le (h : w.Bounded) (credential : Credential)
    (hbound : w.inputBound ≤ bound) :
    w.run (decryption bound credential) = w.decrypt credential := by
  refine ((extends_decryption credential hbound).run_eq w).resolve_left fun hcut => ?_
  exact h.decrypt_ne credential (eq_error_of_faultOf hcut)

end World

end SealedStream
