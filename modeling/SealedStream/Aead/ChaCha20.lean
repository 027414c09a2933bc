import SealedStream.Hash.Words

/-!
# ChaCha20

A stream cipher whose blocks are counted, and the function that turns a key and the first sixteen
bytes of a long nonce into a key of its own (`subkey`).
-/

namespace SealedStream.ChaCha20

/-- Four words of the state. -/
structure Quad where
  (a b c d : UInt32)

/-- The quarter round. -/
@[inline] def quarter (q : Quad) : Quad :=
  let a := q.a + q.b
  let d := rotl32 (q.d ^^^ a) 16
  let c := q.c + d
  let b := rotl32 (q.b ^^^ c) 12
  let a := a + b
  let d := rotl32 (d ^^^ a) 8
  let c := c + d
  ⟨a, rotl32 (b ^^^ c) 7, c, d⟩

/-- Two rounds: over the four columns, then over the four diagonals. -/
def doubleRound (x : Words16x32) : Words16x32 :=
  let p := quarter ⟨x.w0, x.w4, x.w8, x.w12⟩
  let q := quarter ⟨x.w1, x.w5, x.w9, x.w13⟩
  let r := quarter ⟨x.w2, x.w6, x.w10, x.w14⟩
  let s := quarter ⟨x.w3, x.w7, x.w11, x.w15⟩
  let e := quarter ⟨p.a, q.b, r.c, s.d⟩
  let f := quarter ⟨q.a, r.b, s.c, p.d⟩
  let g := quarter ⟨r.a, s.b, p.c, q.d⟩
  let h := quarter ⟨s.a, p.b, q.c, r.d⟩
  ⟨e.a, f.a, g.a, h.a, h.b, e.b, f.b, g.b, g.c, h.c, e.c, f.c, f.d, g.d, h.d, e.d⟩

/-- `n` double rounds. -/
def doubleRounds : (n : Nat) → Words16x32 → Words16x32
  | 0, x => x
  | n + 1, x => doubleRounds n (doubleRound x)

/-- The state: four fixed words, the key and sixteen more bytes. -/
def state (key : Bytes 32) (tail : ByteArray) : Words16x32 :=
  let k := key.data
  ⟨0x61707865, 0x3320646e, 0x79622d32, 0x6b206574,
    le32At k 0, le32At k 4, le32At k 8, le32At k 12,
    le32At k 16, le32At k 20, le32At k 24, le32At k 28,
    le32At tail 0, le32At tail 4, le32At tail 8, le32At tail 12⟩

/-- Appends the block of the key stream that belongs to a counter and a nonce of twelve bytes. -/
def pushBlock (key : Bytes 32) (nonce : ByteArray) (out : ByteArray) (counter : Nat) : ByteArray :=
  let x := state key (pushLe32 .empty counter.toUInt32 ++ nonce)
  ((doubleRounds 10 x).add x).pushLE out

/-- A key of its own for the first sixteen bytes of a long nonce. -/
def subkey (key : Bytes 32) (nonce : ByteArray) : Bytes 32 :=
  let x := doubleRounds 10 (state key nonce)
  ⟨(Words8x32.mk x.w0 x.w1 x.w2 x.w3 x.w12 x.w13 x.w14 x.w15).pushLE .empty, by simp⟩

end SealedStream.ChaCha20
