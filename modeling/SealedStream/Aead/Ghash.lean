import SealedStream.Aead.Block128

/-!
# GHASH

The authenticator of the Galois/Counter Mode: the blocks of a string are the coefficients of a
polynomial over the field of `2 ^ 128` elements, which is evaluated at the hash key.  Bits are
counted from the most significant one.
-/

namespace SealedStream.Ghash

/-- The loop of `product` over the `n` highest bits of `x`: `y` has been moved on by as many places
as bits are done, and `z` is the sum so far. -/
def productFrom : (n : Nat) → (x : UInt64) → (y z : Block128) → Block128 × Block128
  | 0, _, y, z => (y, z)
  | n + 1, x, y, z =>
    let z := if x >>> 63 = 0 then z else z ^^^ y
    let carry : UInt64 := if y.lo &&& 1 = 0 then 0 else 0xe100000000000000
    productFrom n (x <<< 1) ⟨(y.hi >>> 1) ^^^ carry, (y.lo >>> 1) ||| (y.hi <<< 63)⟩ z

/-- The product in the field. -/
def product (x y : Block128) : Block128 :=
  let (y, z) := productFrom 64 x.hi y .zero
  (productFrom 64 x.lo y z).2

/-- The hash of a string of whole blocks, by Horner's rule. -/
def hash (key : Block128) (data : ByteArray) : Block128 :=
  (chunks 16 data).foldl (fun y c => product (y ^^^ .ofByteArray c) key) .zero

end SealedStream.Ghash
