/-!
# Byte strings

Byte strings of any length are `ByteArray`s; those whose length is part of their meaning (salts,
keys, tags) are `Bytes n`.  The module also holds the two ways in which numbers and words are laid
out, least or most significant byte first, and the exclusive or of two strings.

* `leNat_leDigits`: the digits of a number that fits read back as that number.
* `leDigits_leNat`: the digits of what was read are the bytes themselves.
* `size_xorBytes`: the exclusive or is as long as its first argument.
-/

namespace SealedStream

-- One way to compare byte strings and one to take powers, whatever else a module sees.
attribute [instance (2000)] ByteArray.instDecidableEq
attribute [local instance (2000)] instPowNat

/-- A byte string of exactly `n` bytes. -/
structure Bytes (n : Nat) where
  /-- The bytes themselves. -/
  data : ByteArray
  /-- Their number is `n`. -/
  size_data : data.size = n
  deriving DecidableEq

namespace Bytes

/-- The string `a` as one of `n` bytes, if it has that length. -/
def ofByteArray? (n : Nat) (a : ByteArray) : Option (Bytes n) :=
  if h : a.size = n then some ⟨a, h⟩ else none

/-- The first `n` of at least `n` bytes. -/
def takeFrom (n : Nat) (a : ByteArray) (start : Nat) (h : start + n ≤ a.size) : Bytes n :=
  ⟨a.extract start (start + n), by rw [ByteArray.size_extract]; omega⟩

instance {n : Nat} : Hashable (Bytes n) where
  hash b := hash b.data

@[ext] theorem ext {n : Nat} {a b : Bytes n} (h : a.data = b.data) : a = b := by
  cases a; cases b; cases h; rfl

end Bytes

/-! ### Single bytes -/

/-- The byte at index `i`; past the end the string reads as zeros. -/
@[inline] def byteAt (a : ByteArray) (i : Nat) : UInt8 :=
  if h : i < a.size then a[i] else 0

/-- `n` zero bytes. -/
def zeros (n : Nat) : ByteArray :=
  ⟨Array.replicate n 0⟩

@[simp] theorem size_zeros (n : Nat) : (zeros n).size = n := by
  simp [zeros, ByteArray.size]

/-- `n` zero bytes, as a string of that length. -/
def Bytes.zeros (n : Nat) : Bytes n :=
  ⟨SealedStream.zeros n, size_zeros n⟩

/-- `n` copies of the byte `b`. -/
def replicate (n : Nat) (b : UInt8) : ByteArray :=
  ⟨Array.replicate n b⟩

/-- The bytes of a short list. -/
def ofList (bs : List UInt8) : ByteArray :=
  bs.toByteArray

/-- The loop of `xorBytes`: `out` holds the bytes below `i`. -/
def xorBytes.go (a b : ByteArray) (i : Nat) (out : ByteArray) : ByteArray :=
  if h : i < a.size then xorBytes.go a b (i + 1) (out.push (a[i] ^^^ byteAt b i)) else out
  termination_by a.size - i

/-- Byte by byte exclusive or, as long as `a`; missing bytes of `b` count as zero. -/
def xorBytes (a b : ByteArray) : ByteArray :=
  xorBytes.go a b 0 (ByteArray.emptyWithCapacity a.size)

theorem xorBytes.size_go (a b : ByteArray) (i : Nat) (out : ByteArray) :
    (xorBytes.go a b i out).size = out.size + (a.size - i) := by
  fun_induction xorBytes.go a b i out with
  | case1 i out h ih => rw [ih, ByteArray.size_push]; omega
  | case2 i out h => omega

@[simp] theorem size_xorBytes (a b : ByteArray) : (xorBytes a b).size = a.size := by
  have h : (ByteArray.emptyWithCapacity a.size).size = 0 := rfl
  rw [xorBytes, xorBytes.size_go, h]
  omega

/-- `a` cut into pieces of `n` bytes, of which the last may be shorter, but not empty. -/
def chunks (n : Nat) (a : ByteArray) : List ByteArray :=
  (List.range ((a.size + n - 1) / n)).map fun k => a.extract (k * n) (k * n + n)

/-- `a` filled up with zeros to whole blocks of `n` bytes. -/
def padTo (n : Nat) (a : ByteArray) : ByteArray :=
  a ++ zeros ((n - a.size % n) % n)

/-! ### Numbers, least significant byte first -/

/-- The number whose digits to base 256 are `bs`, the least significant first. -/
def leNat : List UInt8 → Nat
  | [] => 0
  | b :: bs => b.toNat + 256 * leNat bs

/-- The `width` lowest digits of `n` to base 256, the least significant first. -/
def leDigits : (width n : Nat) → List UInt8
  | 0, _ => []
  | width + 1, n => UInt8.ofNat (n % 256) :: leDigits width (n / 256)

@[simp] theorem length_leDigits (width n : Nat) : (leDigits width n).length = width := by
  induction width generalizing n with
  | zero => rfl
  | succ width ih => simp [leDigits, ih]

theorem leNat_lt (bs : List UInt8) : leNat bs < 256 ^ bs.length := by
  induction bs with
  | nil => simp [leNat]
  | cons b bs ih =>
    have hb := b.toNat_lt
    simp only [leNat, List.length_cons, Nat.pow_succ]
    omega

/-- **Digits read back.**  A number below `256 ^ width` is what its digits say. -/
theorem leNat_leDigits {width n : Nat} (h : n < 256 ^ width) : leNat (leDigits width n) = n := by
  induction width generalizing n with
  | zero => simp [leDigits, leNat] at h ⊢; omega
  | succ width ih =>
    have hq : n / 256 < 256 ^ width := by
      rw [Nat.div_lt_iff_lt_mul (by decide)]
      simpa [Nat.pow_succ] using h
    simp only [leDigits, leNat, ih hq, UInt8.toNat_ofNat']
    omega

/-- **Bytes are digits.**  The digits of the number read are the bytes it was read from. -/
theorem leDigits_leNat (bs : List UInt8) : leDigits bs.length (leNat bs) = bs := by
  induction bs with
  | nil => rfl
  | cons b bs ih =>
    have hb := b.toNat_lt
    have h1 : (b.toNat + 256 * leNat bs) % 256 = b.toNat := by omega
    have h2 : (b.toNat + 256 * leNat bs) / 256 = leNat bs := by omega
    simp [leDigits, leNat, h1, h2, ih]

/-- The little-endian number in all of `a`. -/
def readLE (a : ByteArray) : Nat :=
  leNat a.data.toList

/-- `n` in `width` little-endian bytes. -/
def writeLE (width n : Nat) : ByteArray :=
  ofList (leDigits width n)

/-! ### Words

Reading past the end of a string reads zeros, so that the last, incomplete block of a message needs
no copy. -/

/-- Four bytes at `i`, most significant first. -/
@[inline] def be32At (a : ByteArray) (i : Nat) : UInt32 :=
  ((byteAt a i).toUInt32 <<< 24) ||| ((byteAt a (i + 1)).toUInt32 <<< 16)
    ||| ((byteAt a (i + 2)).toUInt32 <<< 8) ||| (byteAt a (i + 3)).toUInt32

/-- Four bytes at `i`, least significant first. -/
@[inline] def le32At (a : ByteArray) (i : Nat) : UInt32 :=
  (byteAt a i).toUInt32 ||| ((byteAt a (i + 1)).toUInt32 <<< 8)
    ||| ((byteAt a (i + 2)).toUInt32 <<< 16) ||| ((byteAt a (i + 3)).toUInt32 <<< 24)

/-- Eight bytes at `i`, most significant first. -/
@[inline] def be64At (a : ByteArray) (i : Nat) : UInt64 :=
  ((be32At a i).toUInt64 <<< 32) ||| (be32At a (i + 4)).toUInt64

/-- Eight bytes at `i`, least significant first. -/
@[inline] def le64At (a : ByteArray) (i : Nat) : UInt64 :=
  (le32At a i).toUInt64 ||| ((le32At a (i + 4)).toUInt64 <<< 32)

/-- Appends a word, most significant byte first. -/
@[inline] def pushBe32 (out : ByteArray) (w : UInt32) : ByteArray :=
  (((out.push (w >>> 24).toUInt8).push (w >>> 16).toUInt8).push (w >>> 8).toUInt8).push w.toUInt8

/-- Appends a word, least significant byte first. -/
@[inline] def pushLe32 (out : ByteArray) (w : UInt32) : ByteArray :=
  (((out.push w.toUInt8).push (w >>> 8).toUInt8).push (w >>> 16).toUInt8).push (w >>> 24).toUInt8

/-- Appends a double word, most significant byte first. -/
@[inline] def pushBe64 (out : ByteArray) (w : UInt64) : ByteArray :=
  pushBe32 (pushBe32 out (w >>> 32).toUInt32) w.toUInt32

/-- Appends a double word, least significant byte first. -/
@[inline] def pushLe64 (out : ByteArray) (w : UInt64) : ByteArray :=
  pushLe32 (pushLe32 out w.toUInt32) (w >>> 32).toUInt32

@[simp] theorem size_pushBe32 (out : ByteArray) (w : UInt32) :
    (pushBe32 out w).size = out.size + 4 := by
  simp [pushBe32, ByteArray.size_push]

@[simp] theorem size_pushLe32 (out : ByteArray) (w : UInt32) :
    (pushLe32 out w).size = out.size + 4 := by
  simp [pushLe32, ByteArray.size_push]

@[simp] theorem size_pushBe64 (out : ByteArray) (w : UInt64) :
    (pushBe64 out w).size = out.size + 8 := by
  simp [pushBe64]

@[simp] theorem size_pushLe64 (out : ByteArray) (w : UInt64) :
    (pushLe64 out w).size = out.size + 8 := by
  simp [pushLe64]

end SealedStream
