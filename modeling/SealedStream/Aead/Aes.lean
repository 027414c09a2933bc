import SealedStream.Aead.Block128

/-!
# AES

The block cipher AES with keys of 256 bits.  Its substitution is computed from the field of 256
elements, and one round works on the four columns of the block through a table of the products of
the substituted byte (`mixedTable`).
-/

namespace SealedStream.Aes

/-! ### The field of 256 elements -/

/-- Twice a field element: a shift, and the reduction by `x ^ 8 + x ^ 4 + x ^ 3 + x + 1`. -/
def double (x : UInt8) : UInt8 :=
  (x <<< 1) ^^^ (if x &&& 0x80 = 0 then 0 else 0x1b)

/-- The product of two field elements, over the lowest `n` bits of `y`. -/
def product : (n : Nat) → (x y : UInt8) → UInt8
  | 0, _, _ => 0
  | n + 1, x, y => (if y &&& 1 = 0 then 0 else x) ^^^ product n (double x) (y >>> 1)

/-- The power of a field element. -/
def power (x : UInt8) : Nat → UInt8
  | 0 => 1
  | n + 1 => product 8 x (power x n)

/-- Rotation to the left by `n` bits, `0 < n < 8`. -/
def rotl8 (x n : UInt8) : UInt8 :=
  (x <<< n) ||| (x >>> (8 - n))

/-- The substitution: the inverse in the field, then an affine map of its bits. -/
def substituted (x : UInt8) : UInt8 :=
  let y := power x 254
  y ^^^ rotl8 y 1 ^^^ rotl8 y 2 ^^^ rotl8 y 3 ^^^ rotl8 y 4 ^^^ 0x63

/-- Four bytes as a column, the first in the highest place. -/
@[inline] def column (a b c d : UInt8) : UInt32 :=
  (a.toUInt32 <<< 24) ||| (b.toUInt32 <<< 16) ||| (c.toUInt32 <<< 8) ||| d.toUInt32

/-- The substitution, tabulated. -/
def table : Array UInt8 :=
  (Array.range 256).map fun i => substituted i.toUInt8

/-- The column that a byte at the top of a column contributes to a round, tabulated. -/
def mixedTable : Array UInt32 :=
  (Array.range 256).map fun i =>
    let s := substituted i.toUInt8
    column (double s) s s (double s ^^^ s)

/-- The substitution of a byte. -/
@[inline] def substitute (x : UInt8) : UInt8 :=
  table.getD x.toNat 0

/-- The contribution of a byte to a round. -/
@[inline] def mixed (x : UInt8) : UInt32 :=
  mixedTable.getD x.toNat 0

/-! ### Rounds -/

/-- The four columns of a block. -/
structure Columns where
  (a b c d : UInt32)

/-- A block as columns. -/
@[inline] def columns (x : Block128) : Columns :=
  ⟨(x.hi >>> 32).toUInt32, x.hi.toUInt32, (x.lo >>> 32).toUInt32, x.lo.toUInt32⟩

/-- Columns as a block. -/
@[inline] def ofColumns (q : Columns) : Block128 :=
  ⟨(q.a.toUInt64 <<< 32) ||| q.b.toUInt64, (q.c.toUInt64 <<< 32) ||| q.d.toUInt64⟩

/-- One column of a round.  Its bytes come from four different columns, which is the row shift. -/
@[inline] def mixColumn (a b c d : UInt32) : UInt32 :=
  mixed (a >>> 24).toUInt8 ^^^ rotr32 (mixed (b >>> 16).toUInt8) 8
    ^^^ rotr32 (mixed (c >>> 8).toUInt8) 16 ^^^ rotr32 (mixed d.toUInt8) 24

/-- One column of the last round, which does not mix. -/
@[inline] def lastColumn (a b c d : UInt32) : UInt32 :=
  column (substitute (a >>> 24).toUInt8) (substitute (b >>> 16).toUInt8)
    (substitute (c >>> 8).toUInt8) (substitute d.toUInt8)

/-- One round: substitution, row shift, column mixing and the round key. -/
def round (x key : Block128) : Block128 :=
  let q := columns x
  ofColumns ⟨mixColumn q.a q.b q.c q.d, mixColumn q.b q.c q.d q.a, mixColumn q.c q.d q.a q.b,
    mixColumn q.d q.a q.b q.c⟩ ^^^ key

/-- The last round. -/
def lastRound (x key : Block128) : Block128 :=
  let q := columns x
  ofColumns ⟨lastColumn q.a q.b q.c q.d, lastColumn q.b q.c q.d q.a, lastColumn q.c q.d q.a q.b,
    lastColumn q.d q.a q.b q.c⟩ ^^^ key

/-! ### Key schedule -/

/-- The round keys, in the order of use. -/
structure Schedule where
  /-- Added before the first round. -/
  first : Block128
  /-- The keys of the rounds that mix. -/
  middle : List Block128
  /-- The key of the last round. -/
  last : Block128

/-- The substitution of each byte of a word. -/
def substituteWord (x : UInt32) : UInt32 :=
  column (substitute (x >>> 24).toUInt8) (substitute (x >>> 16).toUInt8)
    (substitute (x >>> 8).toUInt8) (substitute x.toUInt8)

/-- The round key eight words after `k`: each word is added to the one before it, the first to
`t`. -/
def nextKey (k : Block128) (t : UInt32) : Block128 :=
  let q := columns k
  let a := q.a ^^^ t
  let b := q.b ^^^ a
  let c := q.c ^^^ b
  ofColumns ⟨a, b, c, q.d ^^^ c⟩

/-- The round keys after `k` and `l`, two at a time, `n` pairs of them, with the round constant. -/
def expand : (n : Nat) → (constant : UInt8) → (k l : Block128) → List Block128
  | 0, _, _, _ => []
  | n + 1, constant, k, l =>
    let t := substituteWord (rotr32 (columns l).d 24) ^^^ (constant.toUInt32 <<< 24)
    let k' := nextKey k t
    let l' := nextKey l (substituteWord (columns k').d)
    k' :: l' :: expand n (double constant) k' l'

/-- The fifteen round keys of a key. -/
def schedule (key : Bytes 32) : Schedule :=
  let k := Block128.ofByteArray key.data
  let l := Block128.ofByteArray (key.data.extract 16 32)
  let keys := expand 7 1 k l
  ⟨k, l :: keys.take 12, keys.getD 12 .zero⟩

/-- The cipher on one block. -/
def encrypt (s : Schedule) (x : Block128) : Block128 :=
  lastRound (s.middle.foldl round (x ^^^ s.first)) s.last

end SealedStream.Aes
