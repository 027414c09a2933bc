import SealedStream.CommandLine.Machine
import SealedStream.Proofs.Trace

/-!
# Performing actions

What an action does to a machine (`Machine.perform`), with one rule for each way of building one.
What all of a program's requests keep, a run of it keeps (`Program.Only.run`); it is enough, then,
to say of an action which requests it makes (`Action.Only`).
-/

namespace SealedStream

/-! ### Programs with some of the requests -/

namespace Program

variable {I J : Interface} {α β σ : Type} {allowed : I.Request → Prop}

/-- A program that makes only some of the requests. -/
inductive Only (allowed : I.Request → Prop) : Program I α → Prop
  | done (a : α) : Only allowed (.done a)
  | ask {r : I.Request} {next : I.Reply r → Program I α} :
    allowed r → (∀ reply, Only allowed (next reply)) → Only allowed (.ask r next)

namespace Only

theorem request {r : I.Request} (h : allowed r) : Only allowed (Program.request r) :=
  .ask h fun reply => .done reply

theorem bind {p : Program I α} {f : α → Program I β} (h : Only allowed p)
    (hf : ∀ a, Only allowed (f a)) : Only allowed (p >>= f) := by
  induction h with
  | done a => exact hf a
  | ask hr _ ih => exact .ask hr ih

theorem mono {allowed' : I.Request → Prop} {p : Program I α} (h : Only allowed p)
    (himp : ∀ r, allowed r → allowed' r) : Only allowed' p := by
  induction h with
  | done a => exact .done a
  | ask hr _ ih => exact .ask (himp _ hr) ih

/-- A program that is served makes the requests of its server. -/
theorem serve {server : (r : J.Request) → σ → Program I (J.Reply r × σ)}
    (h : ∀ r s, Only allowed (server r s)) (p : Program J α) (s : σ) :
    Only allowed (p.serve server s) := by
  induction p generalizing s with
  | done a => exact .done (a, s)
  | ask r next ih => exact (h r s).bind fun x => ih x.1 x.2

/-- **What the requests keep** is kept by a run. -/
theorem run {p : Program I α} (h : Only allowed p) {answer : (r : I.Request) → σ → I.Reply r × σ}
    (inv : σ → Prop) (hkeeps : ∀ r s, allowed r → inv s → inv (answer r s).2) {s : σ}
    (hs : inv s) : inv (p.run answer s).2 := by
  induction h generalizing s with
  | done a => exact hs
  | ask hr _ ih => exact ih _ (hkeeps _ _ hr hs)

end Only

/-- A program that always ends with a result of some kind. -/
inductive Yields (P : α → Prop) : Program I α → Prop
  | done {a : α} : P a → Yields P (.done a)
  | ask {r : I.Request} {next : I.Reply r → Program I α} :
    (∀ reply, Yields P (next reply)) → Yields P (.ask r next)

namespace Yields

variable {P : α → Prop} {Q : β → Prop}

theorem bind {p : Program I α} {f : α → Program I β} (h : Yields P p)
    (hf : ∀ a, P a → Yields Q (f a)) : Yields Q (p >>= f) := by
  induction h with
  | done ha => exact hf _ ha
  | ask _ ih => exact .ask ih

theorem run {p : Program I α} (h : Yields P p) (answer : (r : I.Request) → σ → I.Reply r × σ)
    (s : σ) : P (p.run answer s).1 := by
  induction h generalizing s with
  | done ha => exact ha
  | ask _ ih => exact ih _ _

end Yields

end Program

namespace CommandLine

variable {α β : Type}

/-! ### Performing -/

namespace Machine

/-- The result of a program, and the machine after it. -/
def run (p : Program Shell α) (m : Machine) : α × Machine :=
  p.run (I := Shell) answer m

/-- What comes of an action: its result, the input after it, and the machine after it. -/
def perform (a : Action α) (input : Input) (m : Machine) : (Except Report α × Input) × Machine :=
  m.run (a input)

variable (input : Input) (m : Machine)

theorem run_ask (r : ShellRequest) : m.run (ask r) = m.answer r := rfl

theorem run_bind (p : Program Shell α) (f : α → Program Shell β) :
    m.run (p >>= f) = (m.run p).2.run (f (m.run p).1) :=
  Program.run_bind (I := Shell) answer p f m

theorem perform_bind (a : Action α) (f : α → Action β) :
    m.perform (a >>= f) input =
      match m.perform a input with
      | ((.ok b, input), m) => m.perform (f b) input
      | ((.error report, input), m) => ((.error report, input), m) := by
  refine (m.run_bind (a input) _).trans ?_
  rw [perform]
  rcases m.run (a input) with ⟨⟨report | b, input⟩, m⟩
  · rfl
  · rfl

/-- The parts of an action are performed in turn. -/
theorem perform_bind_of_ok {a : Action α} {f : α → Action β} {b : α} {input' : Input}
    {m' : Machine} (h : m.perform a input = ((.ok b, input'), m')) :
    m.perform (a >>= f) input = m'.perform (f b) input' := by
  rw [perform_bind, h]

/-- A part that stops the command stops it as a whole. -/
theorem perform_bind_of_error {a : Action α} {f : α → Action β} {report : Report} {input' : Input}
    {m' : Machine} (h : m.perform a input = ((.error report, input'), m')) :
    m.perform (a >>= f) input = ((.error report, input'), m') := by
  rw [perform_bind, h]

@[simp] theorem perform_ofProgram (p : Program Shell α) :
    m.perform (Action.ofProgram p) input = ((.ok (m.run p).1, input), (m.run p).2) := by
  refine (m.run_bind _ _).trans ?_
  rw [show m.run (StateT.lift p input) = _ from m.run_bind p _]
  rfl

theorem perform_orReport (p : Program Shell (Except OsError α)) (report : OsError → Report) :
    m.perform (Action.orReport p report) input
      = (((m.run p).1.mapError report, input), (m.run p).2) := by
  rw [Action.orReport, perform_bind, perform_ofProgram]
  dsimp only
  cases (m.run p).1 with
  | error e => rfl
  | ok a => rfl

theorem perform_orReport_of_ok {p : Program Shell (Except OsError α)} (report : OsError → Report)
    {a : α} {m' : Machine} (h : m.run p = (.ok a, m')) :
    m.perform (Action.orReport p report) input = ((.ok a, input), m') := by
  rw [perform_orReport, h]
  rfl

theorem perform_orReport_of_error {p : Program Shell (Except OsError α)}
    (report : OsError → Report) {e : OsError} {m' : Machine} (h : m.run p = (.error e, m')) :
    m.perform (Action.orReport p report) input = ((.error (report e), input), m') := by
  rw [perform_orReport, h]
  rfl

theorem perform_session (provider : Provider) (p : Program Host α) {input' : Input} {a : α}
    {m' : Machine}
    (h : m.run (p.serve (J := Shell) (serveSession provider) input) = ((a, input'), m')) :
    m.perform (Action.session provider p) input = ((.ok a, input'), m') := by
  refine (m.run_bind (p.serve (J := Shell) (serveSession provider) input) _).trans ?_
  rw [h]
  rfl

@[simp] theorem perform_ofExcept (result : Except Report α) :
    m.perform (liftM result : Action α) input = ((result, input), m) := by
  cases result with
  | error report => rfl
  | ok a => rfl

/-- What is done after a failure is done last. -/
theorem perform_tryCatch (a : Action α) (handle : Report → Action α) :
    m.perform (tryCatch a handle) input =
      match m.perform a input with
      | ((.ok b, input), m) => ((.ok b, input), m)
      | ((.error report, input), m) => m.perform (handle report) input := by
  refine (m.run_bind (a input) _).trans ?_
  rw [perform]
  rcases m.run (a input) with ⟨⟨report | b, input⟩, m⟩
  · rfl
  · rfl

end Machine

/-! ### Actions with some of the requests -/

namespace Action

variable {allowed : ShellRequest → Prop}

/-- An action that makes only some of the requests. -/
def Only (allowed : ShellRequest → Prop) (a : Action α) : Prop :=
  ∀ input, Program.Only (I := Shell) allowed (a input)

namespace Only

theorem pure (a : α) : Only allowed (Pure.pure a) :=
  fun input => .done (Except.ok a, input)

theorem throw (report : Report) : Only allowed (MonadExcept.throw report : Action α) :=
  fun input => .done (Except.error report, input)

theorem set (input : Input) : Only allowed (MonadStateOf.set input : Action Unit) :=
  fun _ => .done (Except.ok (), input)

theorem bind {a : Action α} {f : α → Action β} (h : Only allowed a)
    (hf : ∀ b, Only allowed (f b)) : Only allowed (a >>= f) := by
  refine fun input => (h input).bind fun x => ?_
  rcases x with ⟨report | b, input⟩
  · exact .done _
  · exact hf b input

theorem ofProgram {p : Program Shell α} (h : p.Only allowed) : Only allowed (Action.ofProgram p) :=
  fun _ => (h.bind fun _ => .done _).bind fun _ => .done _

theorem ofExcept (result : Except Report α) : Only allowed (liftM result : Action α) := by
  cases result with
  | error report => exact throw report
  | ok a => exact pure a

theorem orReport {p : Program Shell (Except OsError α)} (h : p.Only allowed)
    (report : OsError → Report) : Only allowed (Action.orReport p report) := by
  refine (ofProgram h).bind fun result => ?_
  cases result with
  | error e => exact throw _
  | ok a => exact pure a

theorem orExplain (result : Except Fault α) : Only allowed (Action.orExplain result) := by
  cases result with
  | error fault => exact throw _
  | ok a => exact pure a

/-- **What the requests of an action keep** is kept when it is performed. -/
theorem perform {a : Action α} (h : Only allowed a) (inv : Machine → Prop)
    (hkeeps : ∀ r m, allowed r → inv m → inv (m.answer r).2) (input : Input) {m : Machine}
    (hm : inv m) : inv (m.perform a input).2 :=
  (h input).run inv hkeeps hm

end Only

end Action

end CommandLine

end SealedStream
