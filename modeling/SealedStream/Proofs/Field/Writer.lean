import SealedStream.Field.Writer
import SealedStream.Proofs.Bytes
import SealedStream.Proofs.Field.Range
import SealedStream.Proofs.Field.Run

/-!
# What field writers write

A field writer between the bytes it has written and those it is going to replace (`between`).  A
program writes the string `b` under a condition (`WritesWhen`) if it succeeds exactly where that
holds and there is room, and then puts `b` over as many old bytes.  There is one such lemma for each
field, `writesWhen_mac` to `writesWhen_size`; a sequence writes its parts in a row
(`WritesWhen.bind`).  Where the condition is known to hold, the program just writes (`Writes`).
-/

namespace SealedStream

attribute [local instance (2000)] instPowNat

namespace FieldWriter

/-- A writer that has written some bytes, with others to be replaced. -/
def between (done ahead : ByteArray) : FieldWriter :=
  ⟨done ++ ahead, done.size⟩

@[simp] theorem free_between (done ahead : ByteArray) : (between done ahead).free = ahead.size := by
  simp [free, between]

@[simp] theorem written_between (done ahead : ByteArray) :
    (between done ahead).written = done := by
  rw [written, between]
  exact extract_append_left rfl

/-- Bytes take the place of as many others. -/
theorem replace_between {done old rest b : ByteArray} (h : old.size = b.size) :
    (between done (old ++ rest)).replace b = between (done ++ b) rest := by
  have hr : (done ++ (old ++ rest)).extract (done.size + b.size) (done ++ (old ++ rest)).size
      = rest := by
    rw [← ByteArray.append_assoc]
    exact extract_append_right (by rw [ByteArray.size_append, h]) rfl
  rw [replace, written_between]
  show FieldWriter.mk (done ++ b ++ (done ++ (old ++ rest)).extract (done.size + b.size)
    (done ++ (old ++ rest)).size) (done.size + b.size) = _
  rw [hr, between, ByteArray.size_append]

theorem ofSize_eq_between (n : Nat) : ofSize n = between .empty (zeros n) := by
  simp [ofSize, between]

/-- A writer of zeros, of which the first have been passed over. -/
theorem ofSize_add_eq_between (m n : Nat) : ofSize (m + n) m = between (zeros m) (zeros n) := by
  have h : min m (m + n) = m := Nat.min_eq_left (Nat.le_add_right m n)
  rw [ofSize, between, h, size_zeros, zeros_add]

/-! ### Programs that write -/

/-- A program that puts `b` over as many bytes if `p` holds and there are so many, and else
fails. -/
def WritesWhen (p : Prop) (x : Writing Unit) (b : ByteArray) : Prop :=
  ∀ (done ahead : ByteArray) (u : Unit) (w : FieldWriter),
    x.run (between done ahead) = (.ok u, w) ↔
      p ∧ ∃ old rest, ahead = old ++ rest ∧ old.size = b.size ∧ w = between (done ++ b) rest

/-- A program that puts `b` over as many bytes. -/
def Writes (x : Writing Unit) (b : ByteArray) : Prop :=
  ∀ done old rest : ByteArray, old.size = b.size →
    x.run (between done (old ++ rest)) = (.ok ⟨⟩, between (done ++ b) rest)

variable {p q : Prop} {x y : Writing Unit} {b c : ByteArray}

theorem WritesWhen.writes (hx : WritesWhen p x b) (h : p) : Writes x b :=
  fun done old rest hsize => (hx done (old ++ rest) ⟨⟩ _).2 ⟨h, old, rest, rfl, hsize, rfl⟩

theorem WritesWhen.congr (hx : WritesWhen p x b) (h : p ↔ q) : WritesWhen q x b := by
  rwa [propext h] at hx

theorem writesWhen_nothing : WritesWhen True (pure ⟨⟩) .empty := by
  intro done ahead u w
  rw [run_pure_eq_ok, true_and]
  constructor
  · rintro ⟨-, rfl⟩
    exact ⟨.empty, ahead, ByteArray.empty_append.symm, rfl, by rw [ByteArray.append_empty]⟩
  · rintro ⟨old, rest, rfl, hsize, rfl⟩
    rw [ByteArray.size_eq_zero_iff.1 hsize, ByteArray.empty_append, ByteArray.append_empty]
    exact ⟨rfl, rfl⟩

/-- A sequence writes its parts in a row. -/
theorem WritesWhen.bind (hx : WritesWhen p x b) (hy : WritesWhen q y c) :
    WritesWhen (p ∧ q) (do x; y) (b ++ c) := by
  intro done ahead u w
  simp only [run_bind_eq_ok]
  constructor
  · rintro ⟨_, _, hrun, hrun'⟩
    obtain ⟨hp, old, _, rfl, hsize, rfl⟩ := (hx ..).1 hrun
    obtain ⟨hq, old', rest, rfl, hsize', rfl⟩ := (hy ..).1 hrun'
    exact ⟨⟨hp, hq⟩, old ++ old', rest, ByteArray.append_assoc.symm,
      by rw [ByteArray.size_append, ByteArray.size_append, hsize, hsize'],
      by rw [ByteArray.append_assoc]⟩
  · rintro ⟨⟨hp, hq⟩, old, rest, rfl, hsize, rfl⟩
    rw [ByteArray.size_append] at hsize
    obtain ⟨old, old', rfl, hold⟩ := exists_eq_append_of_le (n := b.size) (a := old) (by omega)
    rw [ByteArray.size_append] at hsize
    refine ⟨⟨⟩, _, (hx ..).2 ⟨hp, old, old' ++ rest, ByteArray.append_assoc, hold, rfl⟩,
      (hy ..).2 ⟨hq, old', rest, rfl, by omega, ?_⟩⟩
    rw [ByteArray.append_assoc]

/-- A program that goes on with a value that has passed a check. -/
theorem WritesWhen.check {α : Type} {e : Except Fault α} {a : α} {f : α → Writing Unit}
    (he : ∀ {a'}, e = .ok a' ↔ a' = a ∧ p) (hf : WritesWhen q (f a) b) :
    WritesWhen (p ∧ q) (liftM e >>= f) b := by
  intro done ahead u w
  simp only [run_bind_eq_ok, run_check_eq_ok, he]
  constructor
  · rintro ⟨_, _, ⟨⟨rfl, hp⟩, rfl⟩, hrun⟩
    obtain ⟨hq, hw⟩ := (hf ..).1 hrun
    exact ⟨⟨hp, hq⟩, hw⟩
  · rintro ⟨⟨hp, hq⟩, hw⟩
    exact ⟨a, _, ⟨⟨rfl, hp⟩, rfl⟩, (hf ..).2 ⟨hq, hw⟩⟩

theorem WritesWhen.unless {c : Prop} [Decidable c] {fault : Fault} (hx : WritesWhen p x b) :
    WritesWhen (¬ c ∧ p) (do
      if c then throw fault
      x) b := by
  intro done ahead u w
  rw [run_unless_eq_ok, hx, and_assoc]

theorem Writes.nothing : Writes (pure ⟨⟩) .empty := writesWhen_nothing.writes trivial

theorem Writes.bind (hx : Writes x b) (hy : Writes y c) : Writes (do x; y) (b ++ c) := by
  intro done old rest h
  rw [ByteArray.size_append] at h
  obtain ⟨o, o', rfl, ho⟩ := exists_eq_append_of_le (n := b.size) (a := old) (by omega)
  rw [ByteArray.size_append] at h
  rw [ByteArray.append_assoc, ← ByteArray.append_assoc (a := done)]
  exact run_bind_eq_ok.2 ⟨⟨⟩, _, hx done o (o' ++ rest) ho, hy _ o' rest (by omega)⟩

/-- All of a string of zeros is written over by as many bytes. -/
theorem Writes.run_ofSize (hx : Writes x b) {n : Nat} (hn : n = b.size) :
    x.run (ofSize n) = (.ok ⟨⟩, between b .empty) := by
  have h := hx .empty (zeros n) .empty (by rw [size_zeros, hn])
  rwa [ByteArray.append_empty, ByteArray.empty_append, ← ofSize_eq_between] at h

/-! ### Fields -/

theorem writesWhen_put (field : String) (b : ByteArray) : WritesWhen True (put field b) b := by
  intro done ahead u w
  simp only [put, run_bind_eq_ok, run_get_eq_ok]
  constructor
  · rintro ⟨_, _, ⟨rfl, rfl⟩, h⟩
    obtain ⟨hroom, hset⟩ := run_unless_eq_ok.1 h
    rw [free_between] at hroom
    obtain ⟨old, rest, rfl, hsize⟩ := exists_eq_append_of_le (Nat.le_of_not_lt hroom)
    rw [run_set_eq_ok, replace_between hsize] at hset
    exact ⟨trivial, old, rest, rfl, hsize, hset⟩
  · rintro ⟨-, old, rest, rfl, hsize, rfl⟩
    refine ⟨_, _, ⟨rfl, rfl⟩, run_unless_eq_ok.2 ⟨?_, run_set_eq_ok.2 (replace_between hsize).symm⟩⟩
    rw [free_between, ByteArray.size_append]
    omega

theorem writesWhen_putNat (field : String) (n width : Nat) :
    WritesWhen (n < 256 ^ width) (putNat field n width) (writeLE width n) :=
  (writesWhen_put field _).unless.congr (by rw [and_true, Nat.not_le])

/-- A number that is checked before it is written. -/
theorem writesWhen_checked {e : Except Fault Nat} {field : String} {n width : Nat}
    (he : ∀ {m}, e = .ok m ↔ m = n ∧ p) (hlt : p → n < 256 ^ width) :
    WritesWhen p (do
      let m ← e
      putNat field m width) (writeLE width n) :=
  (WritesWhen.check (a := n) he (writesWhen_putNat field n width)).congr (and_iff_left_of_imp hlt)

theorem writesWhen_mac (tag : ByteArray) : WritesWhen (tag.size = Limits.macBytes) (mac tag) tag :=
  (writesWhen_put "mac" tag).unless.congr (by rw [and_true, Decidable.not_not])

theorem writesWhen_algorithm (a : Algorithm) :
    WritesWhen True (algorithm a) (writeLE Limits.algorithmBytes a.id) :=
  (writesWhen_putNat _ _ _).congr (iff_true_intro (by cases a <;> decide))

theorem writesWhen_iv (a : Algorithm) (nonce : ByteArray) :
    WritesWhen (nonce.size = a.ivBytes) (iv a nonce) nonce :=
  (writesWhen_put "iv" nonce).unless.congr (by rw [and_true, Decidable.not_not])

theorem writesWhen_salt (b : ByteArray) : WritesWhen (b.size = Limits.saltBytes) (salt b) b :=
  (writesWhen_put "slt" b).unless.congr (by rw [and_true, Decidable.not_not])

theorem writesWhen_iterations (n : Nat) :
    WritesWhen (IterationsInRange n) (iterations n) (writeLE Limits.iterationsBytes n) :=
  writesWhen_checked checkIterationsField_eq_ok fun h => Nat.lt_of_le_of_lt h.2 (by decide)

theorem writesWhen_version (n : Nat) :
    WritesWhen (n ∈ [Limits.version1, Limits.version4, Limits.version5]) (version n)
      (writeLE Limits.versionBytes n) :=
  writesWhen_checked checkVersion_eq_ok version_lt

theorem writesWhen_loopIndex (l : LoopIndex) :
    WritesWhen l.Valid (loopIndex l) (ofList [l.toByte]) :=
  (WritesWhen.check LoopIndex.check_eq_ok (writesWhen_put "lpp" _)).congr (iff_of_eq (and_true _))

theorem writesWhen_flags (n : Nat) :
    WritesWhen (n ≤ Limits.flagTerminal) (flags n) (writeLE Limits.flagsBytes n) :=
  (WritesWhen.check checkFlags_eq_ok (writesWhen_put "flags" _)).congr (iff_of_eq (and_true _))

theorem writesWhen_hint (b : ByteArray) :
    WritesWhen (b.size ≤ Limits.sealedHintMax) (hint b)
      (writeLE Limits.hintLengthBytes b.size ++ b) :=
  (writesWhen_put "hint" _).unless.congr (by rw [and_true, Nat.not_lt])

theorem writesWhen_size (n : Nat) :
    WritesWhen (Limits.payloadMin ≤ n ∧ n ≤ Limits.payloadMax) (size n)
      (writeLE Limits.sizeBytes n) :=
  writesWhen_checked checkSize_eq_ok fun h => Nat.lt_of_le_of_lt h.2 (by decide)

end FieldWriter

end SealedStream
