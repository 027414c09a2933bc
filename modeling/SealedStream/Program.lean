/-!
# Programs that make requests

What a session does to the world around it is data: a program is finished, or makes a request and
says how to go on with each reply.  The same program can then be run against a world that is a value
(`Program.run`), inside another program that serves some of its requests (`Program.serve`), or
against the real system.

* `run_bind`: running a sequence is running its parts in turn.
-/

namespace SealedStream

/-- The requests that programs may make, and what the replies to each are. -/
structure Interface where
  Request : Type
  Reply : Request → Type

/-- A program with the requests of `I` and a result in `α`. -/
inductive Program (I : Interface) (α : Type) : Type
  | done (result : α)
  | ask (request : I.Request) (next : I.Reply request → Program I α)

namespace Program

variable {I J : Interface} {α β σ : Type}

/-- One program after another, which depends on its result. -/
protected def bind : Program I α → (α → Program I β) → Program I β
  | done a, f => f a
  | ask r next, f => ask r fun x => (next x).bind f

instance : Monad (Program I) where
  pure := done
  bind := Program.bind

/-- A single request. -/
def request (r : I.Request) : Program I (I.Reply r) :=
  ask r done

/-! ### Running -/

/-- The result of a program in a world that answers each request and changes by it. -/
def run (answer : (r : I.Request) → σ → I.Reply r × σ) : Program I α → σ → α × σ
  | done a, s => (a, s)
  | ask r next, s => (next (answer r s).1).run answer (answer r s).2

/-- A program whose requests are served by programs of another kind, with a state. -/
def serve (server : (r : I.Request) → σ → Program J (I.Reply r × σ)) :
    Program I α → σ → Program J (α × σ)
  | done a, s => done (a, s)
  | ask r next, s => (server r s).bind fun x => (next x.1).serve server x.2

@[simp] theorem run_done (answer : (r : I.Request) → σ → I.Reply r × σ) (a : α) (s : σ) :
    (done a : Program I α).run answer s = (a, s) := rfl

@[simp] theorem run_pure (answer : (r : I.Request) → σ → I.Reply r × σ) (a : α) (s : σ) :
    (pure a : Program I α).run answer s = (a, s) := rfl

@[simp] theorem run_ask (answer : (r : I.Request) → σ → I.Reply r × σ) (r : I.Request)
    (next : I.Reply r → Program I α) (s : σ) :
    (ask r next).run answer s = (next (answer r s).1).run answer (answer r s).2 := rfl

@[simp] theorem run_request (answer : (r : I.Request) → σ → I.Reply r × σ) (r : I.Request)
    (s : σ) : (request r).run answer s = answer r s := rfl

/-- **Running a sequence** is running its parts in turn. -/
@[simp] theorem run_bind (answer : (r : I.Request) → σ → I.Reply r × σ) (p : Program I α)
    (f : α → Program I β) (s : σ) :
    (p >>= f).run answer s = (f (p.run answer s).1).run answer (p.run answer s).2 := by
  show (Program.bind p f).run answer s = _
  induction p generalizing s with
  | done a => rfl
  | ask r next ih => exact ih _ _

end Program

end SealedStream
