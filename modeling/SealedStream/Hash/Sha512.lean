import SealedStream.Hash.Words

/-!
# SHA-512

A hash function with results of 64 bytes.  A message is padded to whole blocks of 128 bytes, and
each block is mixed into eight chaining words by 80 rounds, taken sixteen at a time: after each
sixteen the message schedule (`next`) moves on by one row.

`hashFrom` continues from a chaining value, so that a key which fills the first block of many
messages is absorbed once.
-/

namespace SealedStream.Sha512

/-! ### One block -/

/-- The small sigma functions, which spread the message over the schedule. -/
@[inline] def sigma0 (x : UInt64) : UInt64 :=
  rotr64 x 1 ^^^ rotr64 x 8 ^^^ (x >>> 7)

@[inherit_doc sigma0, inline] def sigma1 (x : UInt64) : UInt64 :=
  rotr64 x 19 ^^^ rotr64 x 61 ^^^ (x >>> 6)

/-- The large sigma functions, which mix a working variable. -/
@[inline] def bigSigma0 (x : UInt64) : UInt64 :=
  rotr64 x 28 ^^^ rotr64 x 34 ^^^ rotr64 x 39

@[inherit_doc bigSigma0, inline] def bigSigma1 (x : UInt64) : UInt64 :=
  rotr64 x 14 ^^^ rotr64 x 18 ^^^ rotr64 x 41

/-- The bits of `y` where `x` has ones, of `z` elsewhere. -/
@[inline] def choose (x y z : UInt64) : UInt64 :=
  (x &&& y) ^^^ (~~~x &&& z)

/-- The bits that at least two of the three have. -/
@[inline] def majority (x y z : UInt64) : UInt64 :=
  (x &&& y) ^^^ (x &&& z) ^^^ (y &&& z)

/-- One round on the working variables, with a round constant and a word of the schedule. -/
@[inline] def round (v : Words8x64) (k w : UInt64) : Words8x64 :=
  let t1 := v.h + bigSigma1 v.e + choose v.e v.f v.g + k + w
  let t2 := bigSigma0 v.a + majority v.a v.b v.c
  ⟨t1 + t2, v.a, v.b, v.c, v.d + t1, v.e, v.f, v.g⟩

/-- Sixteen rounds, with a row of constants and a row of the schedule. -/
def rounds (v : Words8x64) (k w : Words16x64) : Words8x64 :=
  let v := round (round (round (round v k.w0 w.w0) k.w1 w.w1) k.w2 w.w2) k.w3 w.w3
  let v := round (round (round (round v k.w4 w.w4) k.w5 w.w5) k.w6 w.w6) k.w7 w.w7
  let v := round (round (round (round v k.w8 w.w8) k.w9 w.w9) k.w10 w.w10) k.w11 w.w11
  round (round (round (round v k.w12 w.w12) k.w13 w.w13) k.w14 w.w14) k.w15 w.w15

/-- One word of the schedule from the words 2, 7, 15 and 16 places before it. -/
@[inline] def extend (w2 w7 w15 w16 : UInt64) : UInt64 :=
  sigma1 w2 + w7 + sigma0 w15 + w16

/-- The next sixteen words of the schedule. -/
def next (w : Words16x64) : Words16x64 :=
  let x0 := extend w.w14 w.w9 w.w1 w.w0
  let x1 := extend w.w15 w.w10 w.w2 w.w1
  let x2 := extend x0 w.w11 w.w3 w.w2
  let x3 := extend x1 w.w12 w.w4 w.w3
  let x4 := extend x2 w.w13 w.w5 w.w4
  let x5 := extend x3 w.w14 w.w6 w.w5
  let x6 := extend x4 w.w15 w.w7 w.w6
  let x7 := extend x5 x0 w.w8 w.w7
  let x8 := extend x6 x1 w.w9 w.w8
  let x9 := extend x7 x2 w.w10 w.w9
  let x10 := extend x8 x3 w.w11 w.w10
  let x11 := extend x9 x4 w.w12 w.w11
  let x12 := extend x10 x5 w.w13 w.w12
  let x13 := extend x11 x6 w.w14 w.w13
  let x14 := extend x12 x7 w.w15 w.w14
  let x15 := extend x13 x8 x0 w.w15
  ⟨x0, x1, x2, x3, x4, x5, x6, x7, x8, x9, x10, x11, x12, x13, x14, x15⟩

/-! ### Constants -/

/-- The round constants, sixteen to a row: the first 64 fraction bits of the cube roots of the
first 80 primes. -/
def constants0 : Words16x64 :=
  ⟨0x428a2f98d728ae22, 0x7137449123ef65cd, 0xb5c0fbcfec4d3b2f, 0xe9b5dba58189dbbc,
    0x3956c25bf348b538, 0x59f111f1b605d019, 0x923f82a4af194f9b, 0xab1c5ed5da6d8118,
    0xd807aa98a3030242, 0x12835b0145706fbe, 0x243185be4ee4b28c, 0x550c7dc3d5ffb4e2,
    0x72be5d74f27b896f, 0x80deb1fe3b1696b1, 0x9bdc06a725c71235, 0xc19bf174cf692694⟩

@[inherit_doc constants0] def constants1 : Words16x64 :=
  ⟨0xe49b69c19ef14ad2, 0xefbe4786384f25e3, 0x0fc19dc68b8cd5b5, 0x240ca1cc77ac9c65,
    0x2de92c6f592b0275, 0x4a7484aa6ea6e483, 0x5cb0a9dcbd41fbd4, 0x76f988da831153b5,
    0x983e5152ee66dfab, 0xa831c66d2db43210, 0xb00327c898fb213f, 0xbf597fc7beef0ee4,
    0xc6e00bf33da88fc2, 0xd5a79147930aa725, 0x06ca6351e003826f, 0x142929670a0e6e70⟩

@[inherit_doc constants0] def constants2 : Words16x64 :=
  ⟨0x27b70a8546d22ffc, 0x2e1b21385c26c926, 0x4d2c6dfc5ac42aed, 0x53380d139d95b3df,
    0x650a73548baf63de, 0x766a0abb3c77b2a8, 0x81c2c92e47edaee6, 0x92722c851482353b,
    0xa2bfe8a14cf10364, 0xa81a664bbc423001, 0xc24b8b70d0f89791, 0xc76c51a30654be30,
    0xd192e819d6ef5218, 0xd69906245565a910, 0xf40e35855771202a, 0x106aa07032bbd1b8⟩

@[inherit_doc constants0] def constants3 : Words16x64 :=
  ⟨0x19a4c116b8d2d0c8, 0x1e376c085141ab53, 0x2748774cdf8eeb99, 0x34b0bcb5e19b48a8,
    0x391c0cb3c5c95a63, 0x4ed8aa4ae3418acb, 0x5b9cca4f7763e373, 0x682e6ff3d6b2b8a3,
    0x748f82ee5defb2fc, 0x78a5636f43172f60, 0x84c87814a1f0ab72, 0x8cc702081a6439ec,
    0x90befffa23631e28, 0xa4506cebde82bde9, 0xbef9a3f7b2c67915, 0xc67178f2e372532b⟩

@[inherit_doc constants0] def constants4 : Words16x64 :=
  ⟨0xca273eceea26619c, 0xd186b8c721c0c207, 0xeada7dd6cde0eb1e, 0xf57d4f7fee6ed178,
    0x06f067aa72176fba, 0x0a637dc5a2c898a6, 0x113f9804bef90dae, 0x1b710b35131c471b,
    0x28db77f523047d84, 0x32caab7b40c72493, 0x3c9ebe0a15c9bebc, 0x431d67c49c100d4c,
    0x4cc5d4becb3e42b6, 0x597f299cfc657e2a, 0x5fcb6fab3ad6faec, 0x6c44198c4a475817⟩

/-- The first chaining value: the fraction bits of the square roots of the first eight primes. -/
def initial : Words8x64 :=
  ⟨0x6a09e667f3bcc908, 0xbb67ae8584caa73b, 0x3c6ef372fe94f82b, 0xa54ff53a5f1d36f1,
    0x510e527fade682d1, 0x9b05688c2b3e6c1f, 0x1f83d9abfb41bd6b, 0x5be0cd19137e2179⟩

/-! ### Chaining -/

/-- The chaining value after one more block. -/
def compress (s : Words8x64) (w0 : Words16x64) : Words8x64 :=
  let w1 := next w0
  let w2 := next w1
  let w3 := next w2
  let w4 := next w3
  let v := rounds (rounds (rounds s constants0 w0) constants1 w1) constants2 w2
  s.add (rounds (rounds v constants3 w3) constants4 w4)

/-- The loop of `absorb`: `i` is where the next block starts, `n` the number of blocks left. -/
def absorbFrom (data : ByteArray) : (n i : Nat) → Words8x64 → Words8x64
  | 0, _, s => s
  | n + 1, i, s => absorbFrom data n (i + 128) (compress s (.readBE data i))

/-- The chaining value after all whole blocks of `data`. -/
def absorb (s : Words8x64) (data : ByteArray) : Words8x64 :=
  absorbFrom data (data.size / 128) 0 s

/-- `data` padded to whole blocks: a one bit, zeros, and the length in bits of the message, of which
`before` bytes went before `data`. -/
def pad (before : Nat) (data : ByteArray) : ByteArray :=
  let gap := (239 - data.size % 128) % 128
  pushBe64 (data.push 0x80 ++ zeros (gap + 8)) (8 * (before + data.size)).toUInt64

/-- The hash of a message whose first `before` bytes, whole blocks, took the chaining value to `s`
and whose rest is `data`. -/
def hashFrom (s : Words8x64) (before : Nat) (data : ByteArray) : Words8x64 :=
  absorb s (pad before data)

/-- The hash of `data`. -/
def hash (data : ByteArray) : Bytes 64 :=
  ⟨(hashFrom initial 0 data).pushBE .empty, by simp⟩

end SealedStream.Sha512
