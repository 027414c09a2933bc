import SealedStream.Proofs.Recorded

/-!
# Logs of nested passes

Nested passes take their turns inside each other: one asks for bytes, and the one inside it makes a
block if it has none left.  The outcome of a run alone does not tell which of them did what, nor in
which order.  So a run can be given a log, of all levels, counted from the input.  What is put down
in it is up to a `Logger`, which sees the replies of the host and how each turn of a session ends.
Sessions, outlets, nested passes and the loops over them are written once with a log, whatever it is
for.

* `Pipeline.map_readEachLogged`, `Pipeline.fst_map_drainLogged`, `fst_map_openLogged`: some reads,
  all that passes give, and the opening of a stream are what they are without a log.
-/

namespace SealedStream

variable {ι ε σ α : Type}

/-! ### Loggers -/

/-- How a turn of a session ends. -/
inductive Turn
  | failed (fault : Fault)
  | gave (block : ByteArray)
  | opened (info : PassInfo)

namespace Turn

/-- A turn that makes a block. -/
def ofBlock : Except Fault ByteArray → Turn
  | .error fault => failed fault
  | .ok bytes => gave bytes

/-- A turn that opens a pass. -/
def ofOpening : Except Fault (PassInfo × Decryptor) → Turn
  | .error fault => failed fault
  | .ok (info, _) => opened info

/-- What the session failed with. -/
def failure? : Turn → Option Fault
  | failed fault => some fault
  | _ => none

/-- The block that the session made. -/
def block? : Turn → Option ByteArray
  | gave block => some block
  | _ => none

end Turn

/-- A state, and what has been put down so far, the first in front. -/
structure Logged (ι σ : Type) where
  state : σ
  log : List ι := []

namespace Logged

/-- The same state, with one more entry. -/
def add (s : Logged ι σ) (i : ι) : Logged ι σ :=
  { s with log := s.log ++ [i] }

/-- The same state, with one more entry if there is one. -/
def put (s : Logged ι σ) : Option ι → Logged ι σ
  | none => s
  | some i => s.add i

@[simp] theorem state_put (s : Logged ι σ) (entry : Option ι) : (s.put entry).state = s.state := by
  cases entry <;> rfl

end Logged

/-- What is put down in a log. -/
structure Logger (ι : Type) where
  /-- What is put down of the reply of the host to the session at a level.  Only the input itself,
  at level 0, reads from the host. -/
  reply : (level : Nat) → (r : HostRequest) → r.Reply → Option ι
  /-- What is put down of a turn of the session at a level, with the events in it. -/
  turn : (level : Nat) → List Event → Turn → Option ι

namespace Logger

variable (L : Logger ι) (level : Nat) (read : Source (Logged ι σ))

/-- A logger that puts down nothing but turns. -/
def ofTurns (turn : (level : Nat) → List Event → Turn → Option ι) : Logger ι where
  reply _ _ _ := none
  turn := turn

/-- Leaves a request to the host. -/
def ask (r : HostRequest) (s : Logged ι σ) : Program Host (r.Reply × Logged ι σ) := do
  let reply ← Program.request (I := Host) r
  return (reply, s.put (L.reply level r reply))

/-- Serves the requests of the session at a level, as `serveReads` does. -/
def serve : (r : HostRequest) → Logged ι σ → Program Host (r.Reply × Logged ι σ)
  | .read size, s => read size s
  | .draw size, s => L.ask level (.draw size) s
  | .password info, s => L.ask level (.password info) s
  | .derive derivation, s => L.ask level (.derive derivation) s

/-- A turn of the session at a level; `outcome` tells from its result how it ended. -/
def run (outcome : α → Turn) (session : Program Host α) (s : Logged ι σ) :
    Program Host (α × Logged ι σ) := do
  let ((a, events), s) ← (session.traced []).serve (J := Host) (L.serve level read) s
  return (a, s.put (L.turn level events (outcome a)))

end Logger

/-! ### Outlets -/

section outlets

variable (L : Logger ι) (E : Engine ε) (level : Nat) (read : Source (Logged ι σ))

/-- `Outlet.fill` with a log. -/
def Outlet.fillLogged : (bound : Nat) → Outlet ε → Logged ι σ →
    Program Host ((Except IoFault Unit × Outlet ε) × Logged ι σ)
  | 0, o, s => .done ((.error (Fault.toIoFault .unbounded), { o with ended := true }), s)
  | bound + 1, o, s => do
    if o.ended || !o.pending.isEmpty then return ((.ok (), o), s)
    else if E.isFinished o.engine then return ((.ok (), { o with ended := true }), s)
    else
      let ((result, engine), s) ← L.run level read (fun x => .ofBlock x.1) (E.next o.engine) s
      match result with
      | .error fault => return ((.error fault.toIoFault, { o with engine, ended := true }), s)
      | .ok bytes => fillLogged bound { o with engine, pending := bytes } s

/-- `Outlet.read` with a log. -/
def Outlet.readLogged (bound size : Nat) (o : Outlet ε) (s : Logged ι σ) :
    Program Host ((Except IoFault ByteArray × Outlet ε) × Logged ι σ) := do
  let ((result, o), s) ← fillLogged L E level read bound o s
  match result with
  | .error e => return ((.error e, o), s)
  | .ok () =>
    let rest := { o with pending := o.pending.extract size o.pending.size }
    return ((.ok (o.pending.extract 0 size), rest), s)

end outlets

/-! ### Pipelines -/

section pipelines

variable (L : Logger ι) (E : Engine ε) (bound : Nat)

/-- `Layers.read` with a log. -/
def Layers.readLogged : (n : Nat) → Source (Logged ι (Layers ε n))
  | 0, size, s => L.ask 0 (.read size) s
  | n + 1, size, ⟨(o, below), log⟩ => do
    let ((result, o), s) ← Outlet.readLogged L E (n + 1) (readLogged n) bound size o ⟨below, log⟩
    return (result, ⟨(o, s.state), s.log⟩)

namespace Pipeline

/-- `Pipeline.read` with a log. -/
def readLogged (size : Nat) (s : Logged ι (Pipeline ε)) :
    Program Host (Except IoFault ByteArray × Logged ι (Pipeline ε)) := do
  let (result, l) ← Layers.readLogged L E bound s.state.depth size ⟨s.state.layers, s.log⟩
  return (result, ⟨⟨s.state.depth, l.state⟩, l.log⟩)

/-- `Pipeline.feed` with a log. -/
def feedLogged (outcome : α → Turn) (session : Program Host α) (s : Logged ι (Pipeline ε)) :
    Program Host (α × Logged ι (Pipeline ε)) := do
  let (result, l) ← L.run (s.state.depth + 1) (Layers.readLogged L E bound s.state.depth) outcome
    session ⟨s.state.layers, s.log⟩
  return (result, ⟨⟨s.state.depth, l.state⟩, l.log⟩)

/-- Some reads in turn, of the sizes given, whether or not they fail, and what each of them
gives. -/
def readEach : List Nat → Pipeline ε →
    Program Host (List (Except IoFault ByteArray) × Pipeline ε)
  | [], p => return ([], p)
  | size :: sizes, p => do
    let (result, p) ← p.read E bound size
    let (results, p) ← readEach sizes p
    return (result :: results, p)

/-- `Pipeline.readEach` with a log. -/
def readEachLogged : List Nat → Logged ι (Pipeline ε) →
    Program Host (List (Except IoFault ByteArray) × Logged ι (Pipeline ε))
  | [], s => return ([], s)
  | size :: sizes, s => do
    let (result, s) ← readLogged L E bound size s
    let (results, s) ← readEachLogged sizes s
    return (result :: results, s)

/-- `Pipeline.readFrom` with a log, which keeps the passes as they are at its end. -/
def drainLogged : (n : Nat) → (out : ByteArray) → Logged ι (Pipeline ε) →
    Program Host (Except Fault ByteArray × Logged ι (Pipeline ε))
  | 0, _, s => .done (.error .unbounded, s)
  | n + 1, out, s => do
    let (result, s) ← readLogged L E bound pieceSize s
    match result with
    | .error e => return (.error (.ofIoFault e), s)
    | .ok bytes => if bytes.isEmpty then return (.ok out, s) else drainLogged n (out ++ bytes) s

end Pipeline

/-- `openPasses` with a log. -/
def openLogged (credential : Credential) : (n : Nat) → Logged ι (Pipeline Decryptor) →
    Program Host (Except Fault (Pipeline Decryptor) × List ι)
  | 0, s => .done (.error .unbounded, s.log)
  | n + 1, s => do
    let (result, s) ← Pipeline.feedLogged L Decryptor.engine bound .ofOpening
      (Decryptor.openPass credential) s
    match result with
    | .error fault => return (.error fault, s.log)
    | .ok (info, d) =>
      if 1 < info.loop.index then openLogged credential n ⟨s.state.push d, s.log⟩
      else return (.ok (s.state.push d), s.log)

end pipelines

/-! ### A log changes nothing -/

section forget

variable {L : Logger ι} {E : Engine ε} {level : Nat} {read : Source (Logged ι σ)}
  {plain : Source σ}

namespace Logger

/-- Where only turns are put down, requests are served as they are without a log. -/
theorem serve_ofTurns (turn : (level : Nat) → List Event → Turn → Option ι) (level : Nat)
    (read : Source (Logged ι σ)) : (ofTurns turn).serve level read = serveReads read := by
  funext r s
  cases r <;> rfl

theorem map_ask (r : HostRequest) (s : Logged ι σ) :
    Prod.map id Logged.state <$> L.ask level r s
      = (do return (← Program.request (I := Host) r, s.state)) := by
  rw [ask, map_bind]
  refine congrArg _ (funext fun reply => ?_)
  rw [map_pure, Prod.map_apply, Logged.state_put]
  rfl

theorem map_serve (h : ∀ n s, Prod.map id Logged.state <$> read n s = plain n s.state)
    (r : HostRequest) (s : Logged ι σ) :
    Prod.map id Logged.state <$> L.serve level read r s = serveReads plain r s.state := by
  cases r with
  | read size => exact h size s
  | draw size => exact map_ask (.draw size) s
  | password info => exact map_ask (.password info) s
  | derive derivation => exact map_ask (.derive derivation) s

/-- **A turn of a session** is what it is without a log. -/
theorem map_run (L : Logger ι) (level : Nat)
    (h : ∀ n s, Prod.map id Logged.state <$> read n s = plain n s.state) (outcome : α → Turn)
    (session : Program Host α) (s : Logged ι σ) :
    Prod.map id Logged.state <$> L.run level read outcome session s
      = session.serve (J := Host) (serveReads plain) s.state := by
  conv => rhs; rw [← session.fst_map_traced []]
  rw [Program.serve_map, ← Program.map_serve _ (map_serve h), run, map_bind, Functor.map_map,
    map_eq_pure_bind]
  refine congrArg _ (funext fun x => ?_)
  rw [map_pure, Prod.map_apply, Logged.state_put]
  rfl

end Logger

theorem Outlet.map_fillLogged
    (h : ∀ n s, Prod.map id Logged.state <$> read n s = plain n s.state) (n : Nat) (o : Outlet ε)
    (s : Logged ι σ) :
    Prod.map id Logged.state <$> fillLogged L E level read n o s
      = (fill E n o).serve (J := Host) (serveReads plain) s.state := by
  induction n generalizing o s with
  | zero => rfl
  | succ n ih =>
    unfold fillLogged fill
    by_cases hready : (o.ended || !o.pending.isEmpty) = true
    · rw [if_pos hready, if_pos hready]
      rfl
    rw [if_neg hready, if_neg hready]
    by_cases hfinished : E.isFinished o.engine = true
    · rw [if_pos hfinished, if_pos hfinished]
      rfl
    rw [if_neg hfinished, if_neg hfinished, map_bind, Program.serve_bind,
      ← Logger.map_run L level h fun x => .ofBlock x.1, bind_map_left]
    refine congrArg _ (funext fun x => ?_)
    rcases x with ⟨⟨fault | bytes, engine⟩, s⟩
    · rfl
    · exact ih _ _

theorem Outlet.map_readLogged
    (h : ∀ n s, Prod.map id Logged.state <$> read n s = plain n s.state) (bound size : Nat)
    (o : Outlet ε) (s : Logged ι σ) :
    Prod.map id Logged.state <$> readLogged L E level read bound size o s
      = (Outlet.read E bound size o).serve (J := Host) (serveReads plain) s.state := by
  unfold readLogged Outlet.read
  rw [map_bind, Program.serve_bind, ← map_fillLogged h, bind_map_left]
  refine congrArg _ (funext fun x => ?_)
  rcases x with ⟨⟨e | ⟨⟩, o⟩, s⟩
  · rfl
  · rfl

/-- **Nested passes** do what they do without a log.  The induction is on their number. -/
theorem Layers.map_readLogged (bound n : Nat) :
    ∀ (size : Nat) (s : Logged ι (Layers ε n)),
      Prod.map id Logged.state <$> readLogged L E bound n size s
        = Layers.read E bound n size s.state := by
  induction n with
  | zero => exact fun size s => Logger.map_ask (.read size) s
  | succ n ih =>
    rintro size ⟨⟨o, below⟩, log⟩
    show _ <$> (_ >>= _) = (Outlet.read E bound size o).serve (J := Host) _ _ >>= _
    rw [map_bind, ← Outlet.map_readLogged ih bound size o ⟨below, log⟩, bind_map_left]
    rfl

namespace Pipeline

theorem map_readLogged (bound size : Nat) (s : Logged ι (Pipeline ε)) :
    Prod.map id Logged.state <$> readLogged L E bound size s = s.state.read E bound size := by
  have hread : s.state.read E bound size
      = s.state.layers.read E bound s.state.depth size >>= fun x =>
          pure (x.1, (⟨s.state.depth, x.2⟩ : Pipeline ε)) := rfl
  rw [hread, readLogged, map_bind, ← Layers.map_readLogged bound s.state.depth size
    ⟨s.state.layers, s.log⟩, bind_map_left]
  rfl

theorem map_feedLogged (bound : Nat) (outcome : α → Turn) (session : Program Host α)
    (s : Logged ι (Pipeline ε)) :
    Prod.map id Logged.state <$> feedLogged L E bound outcome session s
      = s.state.feed E bound session := by
  have hfeed : s.state.feed E bound session
      = session.serve (J := Host) (serveReads (Layers.read E bound s.state.depth)) s.state.layers
          >>= fun x => pure (x.1, (⟨s.state.depth, x.2⟩ : Pipeline ε)) := rfl
  rw [hfeed, feedLogged, map_bind, ← Logger.map_run L (s.state.depth + 1)
    (Layers.map_readLogged bound s.state.depth) outcome session ⟨s.state.layers, s.log⟩,
    bind_map_left]
  rfl

theorem map_readEachLogged (bound : Nat) (sizes : List Nat) (s : Logged ι (Pipeline ε)) :
    Prod.map id Logged.state <$> readEachLogged L E bound sizes s
      = s.state.readEach E bound sizes := by
  induction sizes generalizing s with
  | nil => rfl
  | cons size sizes ih =>
    unfold readEachLogged readEach
    rw [map_bind, ← map_readLogged (L := L), bind_map_left]
    refine congrArg _ (funext fun x => ?_)
    show _ <$> (_ >>= _) = readEach E bound sizes x.2.state >>= _
    rw [map_bind, ← ih, bind_map_left]
    rfl

theorem fst_map_drainLogged (bound n : Nat) (out : ByteArray) (s : Logged ι (Pipeline ε)) :
    Prod.fst <$> drainLogged L E bound n out s = s.state.readFrom E bound n out := by
  induction n generalizing out s with
  | zero => rfl
  | succ n ih =>
    unfold drainLogged readFrom
    rw [map_bind, ← map_readLogged (L := L), bind_map_left]
    refine congrArg _ (funext fun x => ?_)
    rcases x with ⟨e | bytes, s⟩
    · rfl
    · show _ <$> ite _ _ _ = ite (bytes.isEmpty = true) _ _
      split
      · rfl
      · exact ih _ _

end Pipeline

theorem fst_map_openLogged (bound : Nat) (credential : Credential) (n : Nat)
    (s : Logged ι (Pipeline Decryptor)) :
    Prod.fst <$> openLogged L bound credential n s = openPasses bound credential n s.state := by
  induction n generalizing s with
  | zero => rfl
  | succ n ih =>
    unfold openLogged openPasses
    rw [map_bind, ← Pipeline.map_feedLogged (L := L) bound .ofOpening, bind_map_left]
    refine congrArg _ (funext fun x => ?_)
    rcases x with ⟨fault | ⟨info, d⟩, s⟩
    · rfl
    · show _ <$> ite _ _ _ = ite (1 < info.loop.index) _ _
      split
      · exact ih _
      · rfl

end forget

end SealedStream
