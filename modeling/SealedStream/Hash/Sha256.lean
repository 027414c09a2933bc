import SealedStream.Hash.Words

/-!
# SHA-256

A hash function with results of 32 bytes.  A message is padded to whole blocks of 64 bytes, and
each block is mixed into eight chaining words by 64 rounds, taken sixteen at a time: after each
sixteen the message schedule (`next`) moves on by one row.
-/

namespace SealedStream.Sha256

/-! ### One block -/

/-- The small sigma functions, which spread the message over the schedule. -/
@[inline] def sigma0 (x : UInt32) : UInt32 :=
  rotr32 x 7 ^^^ rotr32 x 18 ^^^ (x >>> 3)

@[inherit_doc sigma0, inline] def sigma1 (x : UInt32) : UInt32 :=
  rotr32 x 17 ^^^ rotr32 x 19 ^^^ (x >>> 10)

/-- The large sigma functions, which mix a working variable. -/
@[inline] def bigSigma0 (x : UInt32) : UInt32 :=
  rotr32 x 2 ^^^ rotr32 x 13 ^^^ rotr32 x 22

@[inherit_doc bigSigma0, inline] def bigSigma1 (x : UInt32) : UInt32 :=
  rotr32 x 6 ^^^ rotr32 x 11 ^^^ rotr32 x 25

/-- The bits of `y` where `x` has ones, of `z` elsewhere. -/
@[inline] def choose (x y z : UInt32) : UInt32 :=
  (x &&& y) ^^^ (~~~x &&& z)

/-- The bits that at least two of the three have. -/
@[inline] def majority (x y z : UInt32) : UInt32 :=
  (x &&& y) ^^^ (x &&& z) ^^^ (y &&& z)

/-- One round on the working variables, with a round constant and a word of the schedule. -/
@[inline] def round (v : Words8x32) (k w : UInt32) : Words8x32 :=
  let t1 := v.h + bigSigma1 v.e + choose v.e v.f v.g + k + w
  let t2 := bigSigma0 v.a + majority v.a v.b v.c
  ⟨t1 + t2, v.a, v.b, v.c, v.d + t1, v.e, v.f, v.g⟩

/-- Sixteen rounds, with a row of constants and a row of the schedule. -/
def rounds (v : Words8x32) (k w : Words16x32) : Words8x32 :=
  let v := round (round (round (round v k.w0 w.w0) k.w1 w.w1) k.w2 w.w2) k.w3 w.w3
  let v := round (round (round (round v k.w4 w.w4) k.w5 w.w5) k.w6 w.w6) k.w7 w.w7
  let v := round (round (round (round v k.w8 w.w8) k.w9 w.w9) k.w10 w.w10) k.w11 w.w11
  round (round (round (round v k.w12 w.w12) k.w13 w.w13) k.w14 w.w14) k.w15 w.w15

/-- One word of the schedule from the words 2, 7, 15 and 16 places before it. -/
@[inline] def extend (w2 w7 w15 w16 : UInt32) : UInt32 :=
  sigma1 w2 + w7 + sigma0 w15 + w16

/-- The next sixteen words of the schedule. -/
def next (w : Words16x32) : Words16x32 :=
  let x0 := extend w.w14 w.w9 w.w1 w.w0
  let x1 := extend w.w15 w.w10 w.w2 w.w1
  let x2 := extend x0 w.w11 w.w3 w.w2
  let x3 := extend x1 w.w12 w.w4 w.w3
  let x4 := extend x2 w.w13 w.w5 w.w4
  let x5 := extend x3 w.w14 w.w6 w.w5
  let x6 := extend x4 w.w15 w.w7 w.w6
  let x7 := extend x5 x0 w.w8 w.w7
  let x8 := extend x6 x1 w.w9 w.w8
  let x9 := extend x7 x2 w.w10 w.w9
  let x10 := extend x8 x3 w.w11 w.w10
  let x11 := extend x9 x4 w.w12 w.w11
  let x12 := extend x10 x5 w.w13 w.w12
  let x13 := extend x11 x6 w.w14 w.w13
  let x14 := extend x12 x7 w.w15 w.w14
  let x15 := extend x13 x8 x0 w.w15
  ⟨x0, x1, x2, x3, x4, x5, x6, x7, x8, x9, x10, x11, x12, x13, x14, x15⟩

/-! ### Constants -/

/-- The round constants, sixteen to a row: the first 32 fraction bits of the cube roots of the
first 64 primes. -/
def constants0 : Words16x32 :=
  ⟨0x428a2f98, 0x71374491, 0xb5c0fbcf, 0xe9b5dba5, 0x3956c25b, 0x59f111f1, 0x923f82a4, 0xab1c5ed5,
    0xd807aa98, 0x12835b01, 0x243185be, 0x550c7dc3, 0x72be5d74, 0x80deb1fe, 0x9bdc06a7, 0xc19bf174⟩

@[inherit_doc constants0] def constants1 : Words16x32 :=
  ⟨0xe49b69c1, 0xefbe4786, 0x0fc19dc6, 0x240ca1cc, 0x2de92c6f, 0x4a7484aa, 0x5cb0a9dc, 0x76f988da,
    0x983e5152, 0xa831c66d, 0xb00327c8, 0xbf597fc7, 0xc6e00bf3, 0xd5a79147, 0x06ca6351, 0x14292967⟩

@[inherit_doc constants0] def constants2 : Words16x32 :=
  ⟨0x27b70a85, 0x2e1b2138, 0x4d2c6dfc, 0x53380d13, 0x650a7354, 0x766a0abb, 0x81c2c92e, 0x92722c85,
    0xa2bfe8a1, 0xa81a664b, 0xc24b8b70, 0xc76c51a3, 0xd192e819, 0xd6990624, 0xf40e3585, 0x106aa070⟩

@[inherit_doc constants0] def constants3 : Words16x32 :=
  ⟨0x19a4c116, 0x1e376c08, 0x2748774c, 0x34b0bcb5, 0x391c0cb3, 0x4ed8aa4a, 0x5b9cca4f, 0x682e6ff3,
    0x748f82ee, 0x78a5636f, 0x84c87814, 0x8cc70208, 0x90befffa, 0xa4506ceb, 0xbef9a3f7, 0xc67178f2⟩

/-- The first chaining value: the fraction bits of the square roots of the first eight primes. -/
def initial : Words8x32 :=
  ⟨0x6a09e667, 0xbb67ae85, 0x3c6ef372, 0xa54ff53a, 0x510e527f, 0x9b05688c, 0x1f83d9ab, 0x5be0cd19⟩

/-! ### Chaining -/

/-- The chaining value after one more block. -/
def compress (s : Words8x32) (w0 : Words16x32) : Words8x32 :=
  let w1 := next w0
  let w2 := next w1
  let w3 := next w2
  let v := rounds (rounds s constants0 w0) constants1 w1
  s.add (rounds (rounds v constants2 w2) constants3 w3)

/-- The loop of `absorb`: `i` is where the next block starts, `n` the number of blocks left. -/
def absorbFrom (data : ByteArray) : (n i : Nat) → Words8x32 → Words8x32
  | 0, _, s => s
  | n + 1, i, s => absorbFrom data n (i + 64) (compress s (.readBE data i))

/-- The chaining value after all whole blocks of `data`. -/
def absorb (s : Words8x32) (data : ByteArray) : Words8x32 :=
  absorbFrom data (data.size / 64) 0 s

/-- `data` padded to whole blocks: a one bit, zeros, and the length in bits of the message, of which
`before` bytes went before `data`. -/
def pad (before : Nat) (data : ByteArray) : ByteArray :=
  let gap := (119 - data.size % 64) % 64
  pushBe64 (data.push 0x80 ++ zeros (gap)) (8 * (before + data.size)).toUInt64

/-- The hash of a message whose first `before` bytes, whole blocks, took the chaining value to `s`
and whose rest is `data`. -/
def hashFrom (s : Words8x32) (before : Nat) (data : ByteArray) : Words8x32 :=
  absorb s (pad before data)

/-- The hash of `data`. -/
def hash (data : ByteArray) : Bytes 32 :=
  ⟨(hashFrom initial 0 data).pushBE .empty, by simp⟩

end SealedStream.Sha256
