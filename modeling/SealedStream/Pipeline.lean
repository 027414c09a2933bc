import SealedStream.Decryptor
import SealedStream.Encryptor

/-!
# Nested passes

A session gives blocks; whoever is around it reads bytes.  An outlet stands between the two: it asks
its session for a block when its bytes have run out, and hands them out in pieces of any size.
Passes nest by reading from each other's outlets (`Layers`), the outermost at the front, the
innermost from the host.

```text
encryption: clear ─▶ pass 1 ─▶ pass 2 ─▶ … ─▶ pass n ─▶ cipher
decryption: cipher ─▶ pass n ─▶ … ─▶ pass 2 ─▶ pass 1 ─▶ clear
```

Nothing is read before it is asked for.  A fault of a pass crosses to the next as a failed read,
after which the outlet is at its end.

Some loops here end only because the input does: those over blocks without bytes, over passes found
in the input, and over the pieces of a stream.  Each takes a bound that no finite input of that many
bytes can reach.
-/

namespace SealedStream

/-! ### Outlets -/

/-- What gives the bytes of a pass, block by block. -/
structure Engine (ε : Type) where
  isFinished : ε → Bool
  next : Step ε ByteArray

/-- A session and the bytes of its last block that have not been handed out. -/
structure Outlet (ε : Type) where
  engine : ε
  pending : ByteArray := .empty
  /-- The session has finished or failed; there will be no more bytes. -/
  ended : Bool := false

namespace Outlet

variable {ε : Type} (E : Engine ε)

/-- Asks for blocks until one has bytes or there are no more; at most `bound` of them. -/
def fill : (bound : Nat) → Outlet ε → Program Host (Except IoFault Unit × Outlet ε)
  | 0, o => .done (.error (Fault.toIoFault .unbounded), { o with ended := true })
  | bound + 1, o => do
    if o.ended || !o.pending.isEmpty then return (.ok (), o)
    else if E.isFinished o.engine then return (.ok (), { o with ended := true })
    else
      let (result, engine) ← E.next o.engine
      match result with
      -- A fault is told once.
      | .error fault => return (.error fault.toIoFault, { o with engine, ended := true })
      | .ok bytes => fill bound { o with engine, pending := bytes }

/-- At most `size` bytes; none at the end. -/
def read (bound size : Nat) (o : Outlet ε) :
    Program Host (Except IoFault ByteArray × Outlet ε) := do
  let (result, o) ← fill E bound o
  match result with
  | .error e => return (.error e, o)
  | .ok () =>
    let rest := { o with pending := o.pending.extract size o.pending.size }
    return (.ok (o.pending.extract 0 size), rest)

end Outlet

/-! ### Layers -/

/-- Outlets of `n` passes, each of which reads from the next. -/
def Layers (ε : Type) : Nat → Type
  | 0 => Unit
  | n + 1 => Outlet ε × Layers ε n

/-- Serves the reads of a session by a reader of another kind, and leaves its other requests to the
host. -/
def serveReads {σ : Type} (read : Nat → σ → Program Host (Except IoFault ByteArray × σ)) :
    (r : HostRequest) → σ → Program Host (r.Reply × σ)
  | .read size, s => read size s
  | .draw size, s => do return (← Host.draw size, s)
  | .password info, s => do return (← Host.password info, s)
  | .derive derivation, s => do return (← Host.derive derivation, s)

namespace Layers

variable {ε : Type} (E : Engine ε) (bound : Nat)

/-- At most `size` bytes from the outermost of the passes; from the host if there is none. -/
def read : (n size : Nat) → Layers ε n → Program Host (Except IoFault ByteArray × Layers ε n)
  | 0, size, l => do return (← Host.read size, l)
  | n + 1, size, (o, below) => do
    let ((result, o), below) ←
      (Outlet.read E bound size o).serve (J := Host) (serveReads (read n)) below
    return (result, (o, below))

end Layers

/-- Any number of nested passes. -/
structure Pipeline (ε : Type) where
  depth : Nat
  layers : Layers ε depth

namespace Pipeline

variable {ε : Type} (E : Engine ε) (bound : Nat)

/-- No pass: the input itself. -/
def empty : Pipeline ε :=
  ⟨0, ()⟩

/-- One more pass around the others. -/
def push (p : Pipeline ε) (engine : ε) : Pipeline ε :=
  ⟨p.depth + 1, ({ engine }, p.layers)⟩

/-- At most `size` bytes; none at the end. -/
def read (size : Nat) (p : Pipeline ε) :
    Program Host (Except IoFault ByteArray × Pipeline ε) := do
  let (result, layers) ← p.layers.read E bound p.depth size
  return (result, ⟨p.depth, layers⟩)

/-- A session whose input is what the passes give. -/
def feed {α : Type} (session : Program Host α) (p : Pipeline ε) :
    Program Host (α × Pipeline ε) := do
  let server := serveReads (Layers.read E bound p.depth)
  let (result, layers) ← session.serve (J := Host) server p.layers
  return (result, ⟨p.depth, layers⟩)

/-- The largest piece that `readAll` asks for. -/
def pieceSize : Nat := 0x1000000

/-- The loop of `readAll`: `out` has been read, and at most `n` pieces may follow. -/
def readFrom : (n : Nat) → (out : ByteArray) → Pipeline ε → Program Host (Except Fault ByteArray)
  | 0, _, _ => .done (.error .unbounded)
  | n + 1, out, p => do
    let (result, p) ← p.read E bound pieceSize
    match result with
    | .error e => return .error (.ofIoFault e)
    | .ok bytes => if bytes.isEmpty then return .ok out else readFrom n (out ++ bytes) p

/-- Everything up to the end. -/
def readAll (p : Pipeline ε) : Program Host (Except Fault ByteArray) :=
  readFrom E bound bound .empty p

/-- The first `n` bytes, or all if there are fewer, one by one; `out` has been read before. -/
def take : (n : Nat) → (out : ByteArray) → Pipeline ε → Program Host (Except Fault ByteArray)
  | 0, out, _ => .done (.ok out)
  | n + 1, out, p => do
    let (result, p) ← p.read E bound 1
    match result with
    | .error e => return .error (.ofIoFault e)
    | .ok bytes => if bytes.isEmpty then return .ok out else take n (out ++ bytes) p

end Pipeline

end SealedStream
