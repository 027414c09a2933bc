import SealedStream.Host

/-!
# Chunks of input

The input of a session comes in pieces of any size.  A chunk reader collects them, and hands out
chunks of the size asked for: how the input was cut into pieces does not show.

* `fill`: reads until what is wanted is there or the input ends.  The end is final.
* `Chunk.done`: exact for `readAvailable` and `readToLimit`, which look one byte ahead.
* `Room.reserve`: how much is read at a time.

A failed read loses nothing: what was collected stays.
-/

namespace SealedStream

/-- A piece of input, and whether nothing follows it. -/
structure Chunk where
  bytes : ByteArray
  done : Bool
  deriving DecidableEq

/-! ### Room -/

/-- The memory that bytes are collected in.  The chunks that were handed out of it stand before the
bytes that were not. -/
structure Room where
  /-- The size of the memory. -/
  size : Nat := 0
  /-- Where the bytes that were not handed out begin. -/
  start : Nat := 0
  /-- How many bytes may be collected from there on. -/
  capacity : Nat := 0
  deriving DecidableEq

namespace Room

/-- Room for `want` bytes, of which `held` have been collected.  Memory is left to a chunk in it
that is still in use.  If there is none, the bytes move to its front, unless there are more of them
than were handed out; otherwise the memory grows. -/
def reserve (want held : Nat) (inUse : Bool) (r : Room) : Room :=
  if want ≤ r.capacity then r
  else if inUse then ⟨want, 0, want⟩
  else if r.start + want ≤ r.size then { r with capacity := want }
  else if want ≤ r.size ∧ held ≤ r.start then ⟨r.size, 0, r.size⟩
  else
    let size := max (2 * r.size) (r.start + want)
    ⟨size, r.start, size - r.start⟩

/-- There is room for what is wanted. -/
theorem le_capacity_reserve (want held : Nat) (inUse : Bool) (r : Room) :
    want ≤ (r.reserve want held inUse).capacity := by
  fun_cases reserve <;> grind

/-- The room after a chunk of `n` bytes has been handed out. -/
def handOut (n : Nat) (r : Room) : Room :=
  { r with start := r.start + n, capacity := r.capacity - n }

end Room

/-! ### Readers -/

/-- Bytes that were read and not handed out, and whether the input has ended. -/
structure ChunkReader where
  buffer : ByteArray := .empty
  ended : Bool := false
  room : Room := {}
  deriving DecidableEq

namespace ChunkReader

/-- Whether everything has been handed out. -/
def isDone (r : ChunkReader) : Bool :=
  r.ended && r.buffer.isEmpty

/-- Reads until `want` bytes have been collected or the input ends, as much at a time as there is
room for.  A chunk that was handed out before may still be in use. -/
def fill (want : Nat) (inUse : Bool) (r : ChunkReader) :
    Program Host (Except Fault Unit × ChunkReader) :=
  if _h : r.buffer.size < want ∧ r.ended = false then
    let room := r.room.reserve want r.buffer.size inUse
    .ask (HostRequest.read (room.capacity - r.buffer.size))
      fun (reply : Except IoFault ByteArray) =>
        match reply with
        | .error e => .done (.error (.ofIoFault e), { r with room })
        | .ok bytes =>
          -- What is missing shrinks with each piece, since a piece has bytes.
          if _h0 : bytes.size = 0 then .done (.ok (), { r with ended := true, room })
          else fill want inUse { r with buffer := r.buffer ++ bytes, room }
  else .done (.ok (), r)
  termination_by want - r.buffer.size
  decreasing_by
    simp only [ByteArray.size_append]
    omega

/-- Hands out at most `n` of the bytes collected. -/
def split (n : Nat) (r : ChunkReader) : Chunk × ChunkReader :=
  let bytes := r.buffer.extract 0 n
  let rest := { r with
    buffer := r.buffer.extract n r.buffer.size, room := r.room.handOut bytes.size }
  (⟨bytes, rest.isDone⟩, rest)

/-- A step that collects bytes. -/
def collect (want : Nat) (inUse : Bool) : Step ChunkReader Unit :=
  fill want inUse

/-- A step that hands out bytes. -/
def handOut (n : Nat) : Step ChunkReader Chunk :=
  modifyGet (split n)

/-- Exactly `n` bytes, or fewer when the input ends before. -/
def readFill (n : Nat) (inUse : Bool) : Step ChunkReader Chunk := do
  collect n inUse
  handOut n

/-- At most `n` bytes, and whether they are the last. -/
def readAvailable (n : Nat) (inUse : Bool) : Step ChunkReader Chunk := do
  collect (n + 1) inUse
  handOut n

/-- All that is left, which must be at most `limit` bytes. -/
def readToLimit (limit : Nat) (inUse : Bool) : Step ChunkReader Chunk := do
  collect (limit + 1) inUse
  let size := (← get).buffer.size
  if limit < size then throw (.sizeMismatch "message" limit size)
  handOut limit

end ChunkReader

end SealedStream
