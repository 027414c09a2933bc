import SealedStream.Bytes

/-!
# Byte strings in a row

What is said of streams is said of their bytes in a row: a stream is some strings one after another
(`concat`), and two such rows are compared from the front.

* `append_inj`: rows of strings of the same lengths are equal only part by part.
* `readLE_writeLE`, `writeLE_readLE`: numbers on the wire read back, and bytes are those of the
  number read.
-/

namespace SealedStream

attribute [local instance (2000)] instPowNat

/-! ### Strings one after another -/

/-- Some strings, one after another. -/
def concat : List ByteArray → ByteArray
  | [] => .empty
  | b :: bs => b ++ concat bs

@[simp] theorem concat_nil : concat [] = .empty := rfl

@[simp] theorem concat_cons (b : ByteArray) (bs : List ByteArray) :
    concat (b :: bs) = b ++ concat bs := rfl

theorem concat_singleton (b : ByteArray) : concat [b] = b :=
  ByteArray.append_empty

@[simp] theorem concat_append (bs cs : List ByteArray) :
    concat (bs ++ cs) = concat bs ++ concat cs := by
  induction bs with
  | nil => simp
  | cons b bs ih => simp [ih, ByteArray.append_assoc]

/-! ### Comparing rows -/

/-- Rows whose first parts have the same length are equal part by part. -/
theorem append_inj {a b c d : ByteArray} (h : a ++ b = c ++ d) (hs : a.size = c.size) :
    a = c ∧ b = d :=
  (ByteArray.append_eq_append_iff_of_size_eq_left hs).1 h

/-- A first part that is no longer than another begins it. -/
theorem exists_append_of_append_eq {a b c d : ByteArray} (h : a ++ b = c ++ d)
    (hs : a.size ≤ c.size) : ∃ e, c = a ++ e ∧ b = e ++ d := by
  have hc : c = c.extract 0 a.size ++ c.extract a.size c.size := by
    rw [← ByteArray.extract_eq_extract_append_extract a.size (Nat.zero_le _) hs,
      ByteArray.extract_zero_size]
  rw [hc, ByteArray.append_assoc] at h
  have hsize : a.size = (c.extract 0 a.size).size := by
    rw [ByteArray.size_extract]
    omega
  obtain ⟨ha, hb⟩ := append_inj h hsize
  exact ⟨c.extract a.size c.size, by rw [ha, ← hsize]; exact hc, hb⟩

/-- A string that has at least `n` bytes begins with `n` bytes. -/
theorem exists_eq_append_of_le {n : Nat} {a : ByteArray} (h : n ≤ a.size) :
    ∃ b c, a = b ++ c ∧ b.size = n := by
  refine ⟨a.extract 0 n, a.extract n a.size, ?_, ?_⟩
  · rw [← ByteArray.extract_eq_extract_append_extract n (Nat.zero_le _) h,
      ByteArray.extract_zero_size]
  · rw [ByteArray.size_extract]
    omega

/-- A row that is cut off is cut in one of its parts, or in front of it. -/
theorem exists_of_cut {bs : List ByteArray} {bytes rest : ByteArray}
    (h : concat bs = bytes ++ rest) (hrest : rest ≠ .empty) :
    ∃ pre b post front back, bs = pre ++ b :: post ∧ bytes = concat pre ++ front ∧
      b = front ++ back ∧ back ≠ .empty := by
  induction bs generalizing bytes with
  | nil => exact absurd (ByteArray.append_eq_empty_iff.1 h.symm).2 hrest
  | cons b bs ih =>
    by_cases hs : b.size ≤ bytes.size
    · -- The first part is whole, and the cut is behind it.
      obtain ⟨bytes', rfl, hbs⟩ := exists_append_of_append_eq h hs
      obtain ⟨pre, c, post, front, back, rfl, rfl, hc, hback⟩ := ih hbs
      exact ⟨b :: pre, c, post, front, back, rfl, (ByteArray.append_assoc).symm, hc, hback⟩
    · obtain ⟨back, hb, -⟩ := exists_append_of_append_eq h.symm (Nat.le_of_not_le hs)
      refine ⟨[], b, bs, bytes, back, rfl, ByteArray.empty_append.symm, hb, fun hback => hs ?_⟩
      rw [hback, ByteArray.append_empty] at hb
      exact Nat.le_of_eq (congrArg ByteArray.size hb)

theorem extract_append_left {a b : ByteArray} {n : Nat} (h : a.size = n) :
    (a ++ b).extract 0 n = a :=
  ByteArray.extract_append_eq_left h.symm

theorem extract_append_of_le {a b : ByteArray} {i j : Nat} (h : j ≤ a.size) :
    (a ++ b).extract i j = a.extract i j := by
  have hnone : b.extract (i - a.size) (j - a.size) = .empty :=
    ByteArray.extract_eq_empty_iff.2 (by omega)
  rw [ByteArray.extract_append, hnone, ByteArray.append_empty]

theorem extract_append_right {a b : ByteArray} {n m : Nat} (h : a.size = n)
    (hm : m = (a ++ b).size) : (a ++ b).extract n m = b :=
  ByteArray.extract_append_eq_right h.symm (by rw [hm, ByteArray.size_append])

@[simp] theorem isEmpty_iff {a : ByteArray} : a.isEmpty = true ↔ a = .empty := by
  rw [ByteArray.isEmpty, beq_iff_eq, ByteArray.size_eq_zero_iff]

theorem eq_ofList_byteAt {b : ByteArray} (h : b.size = 1) : b = ofList [byteAt b 0] := by
  obtain ⟨⟨l⟩⟩ := b
  match l, h with
  | [x], _ => rfl

theorem byteAt_append_left {a b : ByteArray} {i : Nat} (h : i < a.size) :
    byteAt (a ++ b) i = byteAt a i := by
  have hlt : i < (a ++ b).size := by
    rw [ByteArray.size_append]
    omega
  rw [byteAt, byteAt, dif_pos hlt, dif_pos h, ByteArray.getElem_append_left h]

theorem byteAt_append_right {a b : ByteArray} {i : Nat} (h : a.size ≤ i) :
    byteAt (a ++ b) i = byteAt b (i - a.size) := by
  unfold byteAt
  by_cases hb : i - a.size < b.size
  · have hlt : i < (a ++ b).size := by
      rw [ByteArray.size_append]
      omega
    rw [dif_pos hlt, dif_pos hb, ByteArray.getElem_append_right h]
  · have hge : ¬ i < (a ++ b).size := by
      rw [ByteArray.size_append]
      omega
    rw [dif_neg hge, dif_neg hb]

theorem zeros_add (m n : Nat) : zeros (m + n) = zeros m ++ zeros n :=
  ByteArray.ext (by simp [zeros])

/-! ### Numbers on the wire -/

@[simp] theorem size_writeLE (width n : Nat) : (writeLE width n).size = width := by
  simp [writeLE, ofList]

/-- **Numbers read back.** -/
theorem readLE_writeLE {width n : Nat} (h : n < 256 ^ width) : readLE (writeLE width n) = n := by
  rw [readLE, writeLE, ofList, List.toList_data_toByteArray, leNat_leDigits h]

/-- **Bytes are those of the number read.** -/
theorem writeLE_readLE {width : Nat} {b : ByteArray} (h : b.size = width) :
    writeLE width (readLE b) = b := by
  have hl : b.data.toList.length = width := by simpa using h
  rw [writeLE, readLE, ofList, ← hl, leDigits_leNat]
  exact ByteArray.ext (by simp)

theorem readLE_lt (b : ByteArray) : readLE b < 256 ^ b.size := by
  have h := leNat_lt b.data.toList
  rwa [Array.length_toList] at h

end SealedStream
