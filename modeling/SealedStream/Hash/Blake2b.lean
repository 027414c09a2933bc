import SealedStream.Hash.Words

/-!
# Keyed BLAKE2b

The hash function BLAKE2b in its keyed form, with results of 32 bytes.  The key is a block of its
own in front of the message; each block of 128 bytes is mixed into eight chaining words by twelve
rounds, which read the message words in ten different orders.
-/

namespace SealedStream.Blake2b

/-! ### One block -/

/-- The sixteen working words, as four rows of four. -/
structure Work where
  (a0 a1 a2 a3 b0 b1 b2 b3 : UInt64)
  (c0 c1 c2 c3 d0 d1 d2 d3 : UInt64)

/-- Four working words, one of each row. -/
structure Column where
  (a b c d : UInt64)

/-- The mixing function: two message words are stirred into four working words. -/
@[inline] def mix (q : Column) (x y : UInt64) : Column :=
  let a := q.a + q.b + x
  let d := rotr64 (q.d ^^^ a) 32
  let c := q.c + d
  let b := rotr64 (q.b ^^^ c) 24
  let a := a + b + y
  let d := rotr64 (d ^^^ a) 16
  let c := c + d
  ⟨a, rotr64 (b ^^^ c) 63, c, d⟩

/-- One round: the four columns, then the four diagonals.  `m` holds the message words in the order
of the round. -/
def round (v : Work) (m : Words16x64) : Work :=
  let p := mix ⟨v.a0, v.b0, v.c0, v.d0⟩ m.w0 m.w1
  let q := mix ⟨v.a1, v.b1, v.c1, v.d1⟩ m.w2 m.w3
  let r := mix ⟨v.a2, v.b2, v.c2, v.d2⟩ m.w4 m.w5
  let s := mix ⟨v.a3, v.b3, v.c3, v.d3⟩ m.w6 m.w7
  let e := mix ⟨p.a, q.b, r.c, s.d⟩ m.w8 m.w9
  let f := mix ⟨q.a, r.b, s.c, p.d⟩ m.w10 m.w11
  let g := mix ⟨r.a, s.b, p.c, q.d⟩ m.w12 m.w13
  let h := mix ⟨s.a, p.b, q.c, r.d⟩ m.w14 m.w15
  ⟨e.a, f.a, g.a, h.a, h.b, e.b, f.b, g.b, g.c, h.c, e.c, f.c, f.d, g.d, h.d, e.d⟩

/-! ### Orders of the message words

Ten fixed orders; the eleventh and twelfth rounds use the first two again. -/

@[inherit_doc round] def order1 (m : Words16x64) : Words16x64 :=
  ⟨m.w14, m.w10, m.w4, m.w8, m.w9, m.w15, m.w13, m.w6, m.w1, m.w12, m.w0, m.w2, m.w11, m.w7, m.w5,
    m.w3⟩

@[inherit_doc round] def order2 (m : Words16x64) : Words16x64 :=
  ⟨m.w11, m.w8, m.w12, m.w0, m.w5, m.w2, m.w15, m.w13, m.w10, m.w14, m.w3, m.w6, m.w7, m.w1, m.w9,
    m.w4⟩

@[inherit_doc round] def order3 (m : Words16x64) : Words16x64 :=
  ⟨m.w7, m.w9, m.w3, m.w1, m.w13, m.w12, m.w11, m.w14, m.w2, m.w6, m.w5, m.w10, m.w4, m.w0, m.w15,
    m.w8⟩

@[inherit_doc round] def order4 (m : Words16x64) : Words16x64 :=
  ⟨m.w9, m.w0, m.w5, m.w7, m.w2, m.w4, m.w10, m.w15, m.w14, m.w1, m.w11, m.w12, m.w6, m.w8, m.w3,
    m.w13⟩

@[inherit_doc round] def order5 (m : Words16x64) : Words16x64 :=
  ⟨m.w2, m.w12, m.w6, m.w10, m.w0, m.w11, m.w8, m.w3, m.w4, m.w13, m.w7, m.w5, m.w15, m.w14, m.w1,
    m.w9⟩

@[inherit_doc round] def order6 (m : Words16x64) : Words16x64 :=
  ⟨m.w12, m.w5, m.w1, m.w15, m.w14, m.w13, m.w4, m.w10, m.w0, m.w7, m.w6, m.w3, m.w9, m.w2, m.w8,
    m.w11⟩

@[inherit_doc round] def order7 (m : Words16x64) : Words16x64 :=
  ⟨m.w13, m.w11, m.w7, m.w14, m.w12, m.w1, m.w3, m.w9, m.w5, m.w0, m.w15, m.w4, m.w8, m.w6, m.w2,
    m.w10⟩

@[inherit_doc round] def order8 (m : Words16x64) : Words16x64 :=
  ⟨m.w6, m.w15, m.w14, m.w9, m.w11, m.w3, m.w0, m.w8, m.w12, m.w2, m.w13, m.w7, m.w1, m.w4, m.w10,
    m.w5⟩

@[inherit_doc round] def order9 (m : Words16x64) : Words16x64 :=
  ⟨m.w10, m.w2, m.w8, m.w4, m.w7, m.w6, m.w1, m.w5, m.w15, m.w11, m.w9, m.w14, m.w3, m.w12, m.w13,
    m.w0⟩

/-- All twelve rounds. -/
def rounds (v : Work) (m : Words16x64) : Work :=
  let v := round (round (round v m) (order1 m)) (order2 m)
  let v := round (round (round v (order3 m)) (order4 m)) (order5 m)
  let v := round (round (round v (order6 m)) (order7 m)) (order8 m)
  round (round (round v (order9 m)) m) (order1 m)

/-! ### Chaining -/

/-- The initialisation vector, which SHA-512 uses too. -/
def iv : Words8x64 :=
  ⟨0x6a09e667f3bcc908, 0xbb67ae8584caa73b, 0x3c6ef372fe94f82b, 0xa54ff53a5f1d36f1,
    0x510e527fade682d1, 0x9b05688c2b3e6c1f, 0x1f83d9abfb41bd6b, 0x5be0cd19137e2179⟩

/-- The chaining value after one more block.  `total` counts the bytes up to and with this block,
and `last` marks the final one. -/
def compress (s : Words8x64) (m : Words16x64) (total : Nat) (last : Bool) : Words8x64 :=
  let mark : UInt64 := if last then 0xffffffffffffffff else 0
  let v := rounds ⟨s.a, s.b, s.c, s.d, s.e, s.f, s.g, s.h, iv.a, iv.b, iv.c, iv.d,
    iv.e ^^^ total.toUInt64, iv.f ^^^ (total >>> 64).toUInt64, iv.g ^^^ mark, iv.h⟩ m
  s.xor ⟨v.a0 ^^^ v.c0, v.a1 ^^^ v.c1, v.a2 ^^^ v.c2, v.a3 ^^^ v.c3,
    v.b0 ^^^ v.d0, v.b1 ^^^ v.d1, v.b2 ^^^ v.d2, v.b3 ^^^ v.d3⟩

/-- The loop of `hash`: `n` whole blocks of `data` from `i` on are left before the last. -/
def absorbFrom (data : ByteArray) : (n i : Nat) → Words8x64 → Words8x64
  | 0, i, s => compress s (.readLE data i) data.size true
  | n + 1, i, s => absorbFrom data n (i + 128) (compress s (.readLE data i) (i + 128) false)

/-- The hash of `data` under a key of 32 bytes, in 32 bytes.  The last block is never empty: it
holds between 1 and 128 bytes of the padded key and the message. -/
def keyedHash (key : Bytes 32) (data : ByteArray) : Bytes 32 :=
  let message := key.data ++ zeros 96 ++ data
  let s := absorbFrom message ((message.size - 1) / 128) 0 { iv with a := iv.a ^^^ 0x01012020 }
  .takeFrom 32 (s.pushLE .empty) 0 (by simp)

end SealedStream.Blake2b
