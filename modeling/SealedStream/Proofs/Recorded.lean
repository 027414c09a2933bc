import SealedStream.Proofs.Pipeline
import SealedStream.Proofs.Trace
import SealedStream.World

/-!
# Records of nested passes

What a pass inside others does is hard to see from outside: its blocks go to the next pass, and its
reads are served by another.  So each session is given a record, of what happened to it and of the
bytes that it gave (`Recorded`).  Nothing else changes by that.

* `encryptRecorded_eq`: encryption does what it does without records.
-/

namespace SealedStream

/-- A session with a record of what it has done. -/
structure Recorded (ε : Type) where
  session : ε
  /-- What it asked for and what it got. -/
  events : List Event := []
  /-- The bytes of its blocks. -/
  given : ByteArray := .empty

/-- The same sessions, which keep a record. -/
def Engine.recorded {ε : Type} (E : Engine ε) : Engine (Recorded ε) where
  isFinished r := E.isFinished r.session
  next r := do
    let ((result, session), events) ← (E.next r.session).traced r.events
    match result with
    | .error fault => return (.error fault, ⟨session, events, r.given⟩)
    | .ok bytes => return (.ok bytes, ⟨session, events, r.given ++ bytes⟩)

/-! ### Sessions that keep more than others -/

section forget

variable {ε ε' α β σ τ : Type} {I J : Interface}

theorem Program.map_serve (f : σ → τ) {server : (r : I.Request) → σ → Program J (I.Reply r × σ)}
    {server' : (r : I.Request) → τ → Program J (I.Reply r × τ)}
    (h : ∀ r s, Prod.map id f <$> server r s = server' r (f s)) (p : Program I α) (s : σ) :
    Prod.map id f <$> p.serve server s = p.serve server' (f s) := by
  induction p generalizing s with
  | done a => rfl
  | ask r next ih =>
    show _ <$> (server r s >>= fun x => (next x.1).serve server x.2)
      = server' r (f s) >>= fun x => (next x.1).serve server' x.2
    rw [map_bind, ← h, bind_map_left]
    simp only [ih, Prod.map_fst, Prod.map_snd, id_eq]

theorem Program.serve_map (g : α → β) (server : (r : I.Request) → σ → Program J (I.Reply r × σ))
    (p : Program I α) (s : σ) : (g <$> p).serve server s = Prod.map g id <$> p.serve server s := by
  rw [map_eq_pure_bind, Program.serve_bind, map_eq_pure_bind]
  rfl

/-- Sessions of one kind do what those of another do, and keep more. -/
structure Engine.Forgets (E' : Engine ε') (E : Engine ε) (f : ε' → ε) : Prop where
  isFinished : ∀ e, E'.isFinished e = E.isFinished (f e)
  next : ∀ e, Prod.map id f <$> E'.next e = E.next (f e)

/-- A record can be forgotten. -/
theorem Engine.recorded_forgets (E : Engine ε) : E.recorded.Forgets E Recorded.session where
  isFinished _ := rfl
  next r := by
    have h := (E.next r.session).fst_map_traced r.events
    conv => rhs; rw [← h]
    show _ <$> (_ >>= _) = _
    rw [map_bind, map_eq_pure_bind]
    refine congrArg _ (funext fun x => ?_)
    rcases x with ⟨⟨fault | bytes, session⟩, events⟩
    · rfl
    · rfl

/-- An outlet of which more is kept. -/
def Outlet.map (f : ε' → ε) (o : Outlet ε') : Outlet ε :=
  { o with engine := f o.engine }

/-- Passes of which more is kept. -/
def Layers.map (f : ε' → ε) : (n : Nat) → Layers ε' n → Layers ε n
  | 0, _ => ()
  | n + 1, (o, below) => (o.map f, below.map f n)

/-- Passes of which more is kept. -/
def Pipeline.map (f : ε' → ε) (p : Pipeline ε') : Pipeline ε :=
  ⟨p.depth, p.layers.map f p.depth⟩

namespace Engine.Forgets

variable {E' : Engine ε'} {E : Engine ε} {f : ε' → ε}

theorem map_fill (h : E'.Forgets E f) (n : Nat) (o : Outlet ε') :
    Prod.map id (Outlet.map f) <$> Outlet.fill E' n o = Outlet.fill E n (o.map f) := by
  induction n generalizing o with
  | zero => rfl
  | succ n ih =>
    unfold Outlet.fill
    have hfinished : E.isFinished (o.map f).engine = E'.isFinished o.engine :=
      (h.isFinished o.engine).symm
    rw [hfinished]
    show _ <$> ite _ _ _ = ite ((o.ended || !o.pending.isEmpty) = true) _ _
    split
    · rfl
    split
    · rfl
    show _ <$> (_ >>= _) = E.next (f o.engine) >>= _
    rw [map_bind, ← h.next, bind_map_left]
    refine congrArg _ (funext fun x => ?_)
    rcases x with ⟨fault | bytes, e⟩
    · rfl
    · exact ih _

theorem map_read (h : E'.Forgets E f) (bound size : Nat) (o : Outlet ε') :
    Prod.map id (Outlet.map f) <$> Outlet.read E' bound size o
      = Outlet.read E bound size (o.map f) := by
  unfold Outlet.read
  rw [map_bind, ← h.map_fill, bind_map_left]
  refine congrArg _ (funext fun x => ?_)
  rcases x with ⟨e | ⟨⟩, o⟩
  · rfl
  · rfl

theorem map_layers (h : E'.Forgets E f) (bound : Nat) (n size : Nat) (l : Layers ε' n) :
    Prod.map id (Layers.map f n) <$> Layers.read E' bound n size l
      = Layers.read E bound n size (l.map f n) := by
  induction n generalizing size with
  | zero => rfl
  | succ n ih =>
    rcases l with ⟨o, below⟩
    have hserve : ∀ r s, Prod.map id (Layers.map f n) <$> serveReads (Layers.read E' bound n) r s
        = serveReads (Layers.read E bound n) r (s.map f n) := by
      intro r s
      cases r with
      | read size => exact ih size s
      | draw size => rfl
      | password info => rfl
      | derive derivation => rfl
    have hread : (Outlet.read E bound size (o.map f)).serve (J := Host)
          (serveReads (Layers.read E bound n)) (below.map f n)
        = Prod.map (Prod.map id (Outlet.map f)) id <$> Prod.map id (Layers.map f n) <$>
          (Outlet.read E' bound size o).serve (J := Host)
            (serveReads (Layers.read E' bound n)) below := by
      rw [← h.map_read, Program.serve_map, Program.map_serve _ hserve]
    show _ <$> (_ >>= _) = (Outlet.read E bound size (o.map f)).serve (J := Host) _ _ >>= _
    rw [hread, map_bind, bind_map_left, bind_map_left]
    rfl

theorem map_pipeline (h : E'.Forgets E f) (bound size : Nat) (p : Pipeline ε') :
    Prod.map id (Pipeline.map f) <$> p.read E' bound size = (p.map f).read E bound size := by
  have hread : (p.map f).read E bound size
      = (p.layers.map f p.depth).read E bound p.depth size >>= fun x =>
          pure (x.1, (⟨p.depth, x.2⟩ : Pipeline ε)) := rfl
  rw [hread, Pipeline.read, map_bind, ← h.map_layers, bind_map_left]
  rfl

/-- **Everything is read** as it is where less is kept. -/
theorem map_drainFrom (h : E'.Forgets E f) (bound n : Nat) (out : ByteArray) (p : Pipeline ε') :
    Prod.map id (Pipeline.map f) <$> Pipeline.drainFrom E' bound n out p
      = Pipeline.drainFrom E bound n out (p.map f) := by
  induction n generalizing out p with
  | zero => rfl
  | succ n ih =>
    unfold Pipeline.drainFrom
    rw [map_bind, ← h.map_pipeline, bind_map_left]
    refine congrArg _ (funext fun x => ?_)
    rcases x with ⟨e | bytes, p⟩
    · rfl
    · show _ <$> ite _ _ _ = ite (bytes.isEmpty = true) _ _
      split
      · rfl
      · exact ih _ _

end Engine.Forgets

end forget

/-! ### Encryption with records -/

/-- The sessions of some passes, innermost first. -/
def Layers.sessions {ε : Type} : (n : Nat) → Layers ε n → List ε
  | 0, _ => []
  | n + 1, (o, below) => below.sessions n ++ [o.engine]

namespace Plan

/-- The passes of a plan, each with an empty record. -/
def recordedPipeline (plan : Plan) (credential : Credential) : Pipeline (Recorded EncryptedPass) :=
  plan.passes.foldl
    (fun l settings => l.push { session := ⟨.start credential plan.readStart, settings⟩ }) .empty

theorem map_foldl_push {ε ε' α : Type} (f : ε' → ε) (make : α → ε') (items : List α)
    (p : Pipeline ε') :
    (items.foldl (fun l item => l.push (make item)) p).map f
      = items.foldl (fun l item => l.push (f (make item))) (p.map f) := by
  induction items generalizing p with
  | nil => rfl
  | cons item items ih => exact ih _

theorem map_recordedPipeline (plan : Plan) (credential : Credential) :
    (plan.recordedPipeline credential).map Recorded.session = plan.pipeline credential :=
  map_foldl_push _ _ _ _

end Plan

/-- Encrypts the input with a plan, and gives the record of each pass besides, innermost first. -/
def World.encryptRecorded (plan : Plan) (credential : Credential) (w : World) :
    (Except Fault ByteArray × List (Recorded EncryptedPass)) × World :=
  let bound := plan.outputBound w.inputBound
  let ((result, p), w) := w.run
    ((plan.recordedPipeline credential).drainFrom EncryptedPass.engine.recorded bound bound .empty)
  ((result, p.layers.sessions p.depth), w)

/-- **Keeping records changes nothing** about encryption. -/
theorem World.encryptRecorded_eq (plan : Plan) (credential : Credential) (w : World) :
    w.encrypt plan credential
      = ((w.encryptRecorded plan credential).1.1, (w.encryptRecorded plan credential).2) := by
  have hforget := EncryptedPass.engine.recorded_forgets.map_drainFrom
    (plan.outputBound w.inputBound) (plan.outputBound w.inputBound) .empty
    (plan.recordedPipeline credential)
  rw [plan.map_recordedPipeline credential] at hforget
  rw [encrypt, Pipeline.readAll, Pipeline.run_readFrom, ← hforget, run_map]
  rfl

end SealedStream
