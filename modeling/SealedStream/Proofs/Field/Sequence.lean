import SealedStream.Proofs.Field.Reader
import SealedStream.Proofs.Field.Writer

/-!
# Fields in a row

Fields of any kinds, one after another in any order and number, as a writer writes them and a reader
reads them.  The only thing that one field tells another is which algorithm came last, for the
length of a nonce.

For each kind, writer and reader agree on which values are in range (`Field.InRange`) and on their
bytes (`Field.bytes`): `Field.writesWhen`, `run_readField_eq_ok`.  By induction they agree on fields
in a row: `writesWhen_writeAll`, `run_readAll_eq_ok`.

* `readAll_writeAll_inverse`: the fields written are those read back, with nothing left over; and
  the fields read are written as the very bytes that the reader has passed.
-/

namespace SealedStream

attribute [local instance (2000)] instPowNat

/-! ### A field -/

/-- The kinds of fields. -/
inductive FieldKind
  | mac
  | algorithm
  | iv
  | salt
  | iterations
  | version
  | loopIndex
  | flags
  | hint
  | size
  deriving DecidableEq, Repr

/-- What a field of a kind holds. -/
abbrev FieldKind.Value : FieldKind → Type
  | .mac | .iv | .salt | .hint => ByteArray
  | .algorithm => Algorithm
  | .iterations | .version | .flags | .size => Nat
  | .loopIndex => LoopIndex

/-- A field: a value of some kind, in range or not. -/
structure Field where
  kind : FieldKind
  value : kind.Value

/-- Reads a field of a kind. -/
def FieldKind.read : (kind : FieldKind) → Reading kind.Value
  | .mac => Bytes.data <$> FieldReader.mac
  | .algorithm => FieldReader.readAlgorithm
  | .iv => FieldReader.iv
  | .salt => Bytes.data <$> FieldReader.salt
  | .iterations => FieldReader.iterations
  | .version => FieldReader.version
  | .loopIndex => FieldReader.loopIndex
  | .flags => FieldReader.flags
  | .hint => FieldReader.hint
  | .size => FieldReader.size

namespace Field

/-- Writes a field, a nonce as one of the algorithm `last`; before any algorithm there is no way to
write one. -/
def write (last : Option Algorithm) : Field → Writing Unit
  | ⟨.mac, tag⟩ => FieldWriter.mac tag
  | ⟨.algorithm, a⟩ => FieldWriter.algorithm a
  | ⟨.iv, nonce⟩ => match last with
    | some a => FieldWriter.iv a nonce
    | none => throw (.malformedField "iv" "algorithm must be written first")
  | ⟨.salt, bytes⟩ => FieldWriter.salt bytes
  | ⟨.iterations, n⟩ => FieldWriter.iterations n
  | ⟨.version, n⟩ => FieldWriter.version n
  | ⟨.loopIndex, l⟩ => FieldWriter.loopIndex l
  | ⟨.flags, n⟩ => FieldWriter.flags n
  | ⟨.hint, bytes⟩ => FieldWriter.hint bytes
  | ⟨.size, n⟩ => FieldWriter.size n

/-- The algorithm that came last, after a field. -/
def remember (last : Option Algorithm) : Field → Option Algorithm
  | ⟨.algorithm, a⟩ => some a
  | _ => last

/-- The values that a field may hold. -/
def InRange (last : Option Algorithm) : Field → Prop
  | ⟨.mac, tag⟩ => tag.size = Limits.macBytes
  | ⟨.algorithm, _⟩ => True
  | ⟨.iv, nonce⟩ => ∃ a ∈ last, nonce.size = a.ivBytes
  | ⟨.salt, bytes⟩ => bytes.size = Limits.saltBytes
  | ⟨.iterations, n⟩ => IterationsInRange n
  | ⟨.version, n⟩ => n ∈ [Limits.version1, Limits.version4, Limits.version5]
  | ⟨.loopIndex, l⟩ => l.Valid
  | ⟨.flags, n⟩ => n ≤ Limits.flagTerminal
  | ⟨.hint, bytes⟩ => bytes.size ≤ Limits.sealedHintMax
  | ⟨.size, n⟩ => Limits.payloadMin ≤ n ∧ n ≤ Limits.payloadMax

/-- A field on the wire. -/
def bytes : Field → ByteArray
  | ⟨.mac, b⟩ | ⟨.iv, b⟩ | ⟨.salt, b⟩ => b
  | ⟨.algorithm, a⟩ => writeLE Limits.algorithmBytes a.id
  | ⟨.iterations, n⟩ => writeLE Limits.iterationsBytes n
  | ⟨.version, n⟩ => writeLE Limits.versionBytes n
  | ⟨.loopIndex, l⟩ => ofList [l.toByte]
  | ⟨.flags, n⟩ => writeLE Limits.flagsBytes n
  | ⟨.hint, b⟩ => writeLE Limits.hintLengthBytes b.size ++ b
  | ⟨.size, n⟩ => writeLE Limits.sizeBytes n

/-- **A field is written** if its value is in range and there is room for its bytes. -/
theorem writesWhen (last : Option Algorithm) (f : Field) :
    FieldWriter.WritesWhen (f.InRange last) (f.write last) f.bytes := by
  obtain ⟨kind, value⟩ := f
  cases kind with
  | mac => exact FieldWriter.writesWhen_mac value
  | algorithm => exact FieldWriter.writesWhen_algorithm value
  | iv =>
    cases last with
    | none =>
      intro done ahead u w
      exact ⟨fun h => absurd h run_throw_ne_ok, fun ⟨⟨_, hnone, _⟩, _⟩ => nomatch hnone⟩
    | some a =>
      refine (FieldWriter.writesWhen_iv a value).congr ⟨fun h => ⟨a, rfl, h⟩, ?_⟩
      rintro ⟨_, ⟨⟩, h⟩
      exact h
  | salt => exact FieldWriter.writesWhen_salt value
  | iterations => exact FieldWriter.writesWhen_iterations value
  | version => exact FieldWriter.writesWhen_version value
  | loopIndex => exact FieldWriter.writesWhen_loopIndex value
  | flags => exact FieldWriter.writesWhen_flags value
  | hint => exact FieldWriter.writesWhen_hint value
  | size => exact FieldWriter.writesWhen_size value

end Field

section read

open FieldReader

variable {passed ahead : ByteArray} {last : Option Algorithm} {r : FieldReader}

/-- A string whose length is in the type of what is read. -/
theorem run_data_eq_ok {n : Nat} {x : Reading (Bytes n)}
    (hx : ∀ {b : Bytes n}, x.run (between passed ahead last) = (.ok b, r) ↔
      ∃ after, ahead = b.data ++ after ∧ r = between (passed ++ b.data) after last)
    {b : ByteArray} :
    (Bytes.data <$> x).run (between passed ahead last) = (.ok b, r) ↔
      b.size = n ∧ ∃ after, ahead = b ++ after ∧ r = between (passed ++ b) after last := by
  rw [run_map_eq_ok]
  constructor
  · rintro ⟨c, hc, rfl⟩
    exact ⟨c.size_data, hx.1 hc⟩
  · rintro ⟨hsize, h⟩
    exact ⟨⟨b, hsize⟩, hx.2 h, rfl⟩

/-- **A field is read** if the bytes of a value in range are ahead. -/
theorem run_read_eq_ok {kind : FieldKind} {value : kind.Value} :
    kind.read.run (between passed ahead last) = (.ok value, r) ↔
      (Field.mk kind value).InRange last ∧
        ∃ after, ahead = (Field.mk kind value).bytes ++ after ∧
          r = between (passed ++ (Field.mk kind value).bytes) after
            ((Field.mk kind value).remember last) := by
  cases kind with
  | mac => exact run_data_eq_ok run_mac_eq_ok
  | algorithm => exact run_readAlgorithm_eq_ok.trans (iff_of_eq (true_and _)).symm
  | iv =>
    cases last with
    | none =>
      constructor
      · intro h
        obtain ⟨_, _, hget, hthrow⟩ := run_bind_eq_ok.1 h
        obtain ⟨rfl, rfl⟩ := run_get_eq_ok.1 hget
        exact absurd hthrow run_throw_ne_ok
      · rintro ⟨⟨_, hnone, -⟩, -⟩
        cases hnone
    | some a =>
      refine run_iv_eq_ok.trans (and_congr_left fun _ => ⟨fun h => ⟨a, rfl, h⟩, ?_⟩)
      rintro ⟨_, ⟨⟩, h⟩
      exact h
  | salt => exact run_data_eq_ok run_salt_eq_ok
  | iterations => exact run_iterations_eq_ok
  | version => exact run_version_eq_ok
  | loopIndex => exact run_loopIndex_eq_ok
  | flags => exact run_flags_eq_ok
  | hint => exact run_hint_eq_ok
  | size => exact run_size_eq_ok

end read

/-! ### Fields in a row -/

/-- Writes fields one after another. -/
def writeAll (last : Option Algorithm) : List Field → Writing Unit
  | [] => pure ⟨⟩
  | f :: fs => do
    f.write last
    writeAll (f.remember last) fs

/-- Reads fields of some kinds, one after another. -/
def readAll : List FieldKind → Reading (List Field)
  | [] => return []
  | kind :: kinds => do
    let value ← kind.read
    return ⟨kind, value⟩ :: (← readAll kinds)

/-- Fields of which each is in range, after those before it. -/
def AllInRange (last : Option Algorithm) : List Field → Prop
  | [] => True
  | f :: fs => f.InRange last ∧ AllInRange (f.remember last) fs

/-- Fields on the wire. -/
def fieldBytes (fs : List Field) : ByteArray :=
  concat (fs.map Field.bytes)

theorem writesWhen_writeAll (last : Option Algorithm) (fs : List Field) :
    FieldWriter.WritesWhen (AllInRange last fs) (writeAll last fs) (fieldBytes fs) := by
  induction fs generalizing last with
  | nil => exact FieldWriter.writesWhen_nothing
  | cons f fs ih => exact (f.writesWhen last).bind (ih (f.remember last))

@[simp] theorem fieldBytes_nil : fieldBytes [] = .empty := rfl

@[simp] theorem fieldBytes_cons (f : Field) (fs : List Field) :
    fieldBytes (f :: fs) = f.bytes ++ fieldBytes fs := rfl

/-- **Fields are read** if the bytes of fields of those kinds, each in range, are ahead. -/
theorem run_readAll_eq_ok {passed ahead : ByteArray} {last : Option Algorithm}
    {kinds : List FieldKind} {fs : List Field} {r : FieldReader} :
    (readAll kinds).run (FieldReader.between passed ahead last) = (.ok fs, r) ↔
      fs.map Field.kind = kinds ∧ AllInRange last fs ∧ ∃ after, ahead = fieldBytes fs ++ after ∧
        r = FieldReader.between (passed ++ fieldBytes fs) after (fs.foldl Field.remember last) := by
  induction kinds generalizing passed ahead last fs r with
  | nil =>
    rw [readAll, run_pure_eq_ok, List.map_eq_nil_iff]
    constructor
    · rintro ⟨rfl, rfl⟩
      exact ⟨rfl, trivial, ahead, by simp⟩
    · rintro ⟨rfl, -, after, rfl, rfl⟩
      exact ⟨rfl, by simp⟩
  | cons kind kinds ih =>
    simp only [readAll, run_bind_eq_ok, run_read_eq_ok, run_pure_eq_ok]
    constructor
    · rintro ⟨value, _, ⟨hvalue, _, rfl, rfl⟩, fs, _, hfs, rfl, rfl⟩
      obtain ⟨rfl, hall, after, rfl, rfl⟩ := ih.1 hfs
      exact ⟨rfl, ⟨hvalue, hall⟩, after, by simp [ByteArray.append_assoc]⟩
    · rintro ⟨hkinds, hall, after, rfl, rfl⟩
      obtain ⟨f, fs, rfl, rfl, rfl⟩ := List.map_eq_cons_iff.1 hkinds
      refine ⟨f.value, _, ⟨hall.1, fieldBytes fs ++ after, ?_, rfl⟩, fs, _,
        ih.2 ⟨rfl, hall.2, after, rfl, rfl⟩, ?_⟩
      · rw [fieldBytes_cons, ByteArray.append_assoc]
      · rw [fieldBytes_cons, ByteArray.append_assoc]
        exact ⟨rfl, rfl⟩

/-! ### Reading and writing -/

/-- Fields written into zeros are in range, and what is written is their bytes. -/
theorem run_writeAll_ofSize {fs : List Field} {n : Nat} {w : FieldWriter} :
    (writeAll none fs).run (.ofSize n) = (.ok ⟨⟩, w) ↔
      AllInRange none fs ∧ ∃ m, n = (fieldBytes fs).size + m ∧
        w = FieldWriter.between (fieldBytes fs) (zeros m) := by
  rw [FieldWriter.ofSize_eq_between, writesWhen_writeAll none fs, ByteArray.empty_append]
  refine and_congr_right fun _ => ?_
  constructor
  · rintro ⟨old, rest, hzeros, hsize, rfl⟩
    have hn : n = (fieldBytes fs).size + rest.size := by
      rw [← hsize, ← ByteArray.size_append, ← hzeros, size_zeros]
    refine ⟨rest.size, hn, ?_⟩
    rw [hn, zeros_add] at hzeros
    rw [(append_inj hzeros (by rw [size_zeros, hsize])).2]
  · rintro ⟨m, rfl, rfl⟩
    exact ⟨zeros (fieldBytes fs).size, zeros m, zeros_add _ _, size_zeros _, rfl⟩

/-- **Writing and reading are inverse**, for fields of any kinds in a row.  If fields can be written
into some zeros, the same fields are read from what has been written, and nothing remains.  If
fields can be read from the start of a string, they can be written into as many zeros as the reader
has passed bytes, and make those bytes of them. -/
theorem readAll_writeAll_inverse :
    (∀ (fs : List Field) (n : Nat) (w : FieldWriter),
      (writeAll none fs).run (.ofSize n) = (.ok ⟨⟩, w) →
        ∃ r, (readAll (fs.map Field.kind)).run { bytes := w.written } = (.ok fs, r) ∧
          r.remaining = 0) ∧
    (∀ (bytes : ByteArray) (kinds : List FieldKind) (fs : List Field) (r : FieldReader),
      (readAll kinds).run { bytes } = (.ok fs, r) →
        fs.map Field.kind = kinds ∧ r.offset ≤ bytes.size ∧
          ∃ w, (writeAll none fs).run (.ofSize r.offset) = (.ok ⟨⟩, w) ∧
            w.buffer = bytes.extract 0 r.offset) := by
  constructor
  · intro fs n w hw
    obtain ⟨hall, m, rfl, rfl⟩ := run_writeAll_ofSize.1 hw
    rw [FieldWriter.written_between, FieldReader.start_eq_between]
    refine ⟨_, run_readAll_eq_ok.2 ⟨rfl, hall, .empty, ByteArray.append_empty.symm, rfl⟩, ?_⟩
    rw [FieldReader.remaining_between]
    rfl
  · intro bytes kinds fs r hr
    rw [FieldReader.start_eq_between] at hr
    obtain ⟨hkinds, hall, after, rfl, rfl⟩ := run_readAll_eq_ok.1 hr
    rw [FieldReader.offset_between, ByteArray.empty_append]
    refine ⟨hkinds, by rw [ByteArray.size_append]; omega, _,
      run_writeAll_ofSize.2 ⟨hall, 0, rfl, rfl⟩, ?_⟩
    rw [extract_append_left rfl, FieldWriter.between]
    exact ByteArray.append_empty

end SealedStream
