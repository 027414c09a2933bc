import Mathlib.Tactic.MkIffOfInductiveProp
import SealedStream.AssociatedData
import SealedStream.Proofs.Field.Reader
import SealedStream.Proofs.Field.Writer

/-!
# Associated data on the wire

What associated data is, apart from how it is read and written: the fields of a head (`HeadData`)
and of a further block (`FurtherData`), each with the proofs that its fields are in range, and their
bytes.

* `decodeHead_eq_ok`, `decodeFurther_eq_ok`: a payload decodes exactly if it begins with such bytes.
* `encode_headData`, `encode_furtherData`: the encoding is those bytes.
* `encoding_is_canonical`: for associated data with any of its fields, encoding fails as validation
  does and else has the length foretold; and the two decoders undo it, on what has all fields and on
  what has the first two, in whatever follows the encoding and from whatever they accept.
-/

namespace SealedStream

attribute [local instance (2000)] instPowNat

open FieldReader FieldWriter

/-! ### The fields -/

/-- The associated data of a head. -/
structure HeadData where
  algorithm : Algorithm
  iv : ByteArray
  salt : Bytes 16
  iterations : Nat
  loop : LoopIndex
  sealedHint : ByteArray
  size_iv : iv.size = algorithm.ivBytes
  iterations_mem : IterationsInRange iterations
  loop_valid : loop.Valid
  size_sealedHint : sealedHint.size ≤ Limits.sealedHintMax

/-- The associated data of a further block. -/
structure FurtherData where
  algorithm : Algorithm
  iv : ByteArray
  size_iv : iv.size = algorithm.ivBytes

namespace HeadData

/-- The fields, as they are decoded. -/
def data (h : HeadData) : AssociatedData :=
  ⟨h.algorithm, h.iv, h.salt, h.iterations, h.loop, h.sealedHint⟩

/-- The bytes of the fields, in the order of the wire. -/
def toByteArray (h : HeadData) : ByteArray :=
  writeLE Limits.algorithmBytes h.algorithm.id ++ h.iv ++ h.salt.data
    ++ writeLE Limits.iterationsBytes h.iterations ++ ofList [h.loop.toByte]
    ++ (writeLE Limits.hintLengthBytes h.sealedHint.size ++ h.sealedHint)

theorem size_toByteArray (h : HeadData) :
    h.toByteArray.size = 24 + h.algorithm.ivBytes + h.sealedHint.size := by
  have hb : (ofList [h.loop.toByte]).size = 1 := rfl
  simp only [toByteArray, ByteArray.size_append, size_writeLE, h.salt.size_data, hb, h.size_iv,
    Limits.algorithmBytes, Limits.iterationsBytes, Limits.hintLengthBytes]
  omega

end HeadData

namespace FurtherData

/-- The fields, as they are decoded. -/
def data (f : FurtherData) : AssociatedData :=
  { algorithm := f.algorithm, iv := f.iv }

/-- The bytes of the fields, in the order of the wire. -/
def toByteArray (f : FurtherData) : ByteArray :=
  writeLE Limits.algorithmBytes f.algorithm.id ++ f.iv

theorem size_toByteArray (f : FurtherData) : f.toByteArray.size = 2 + f.algorithm.ivBytes := by
  simp only [toByteArray, ByteArray.size_append, size_writeLE, f.size_iv, Limits.algorithmBytes]

end FurtherData

namespace AssociatedData

/-! ### Decoding -/

theorem decodeWith_eq_ok {reading : Reading AssociatedData} {payload : ByteArray}
    {a : AssociatedData} {n : Nat} :
    decodeWith reading payload = .ok (a, n) ↔
      ∃ r, reading.run (FieldReader.between .empty payload none) = (.ok a, r) ∧ n = r.offset := by
  rw [decodeWith, start_eq_between]
  constructor
  · intro h
    split at h
    next a' r hr =>
      cases h
      exact ⟨r, hr, rfl⟩
    next => cases h
  · rintro ⟨r, hr, rfl⟩
    rw [hr]

/-- **Heads.**  A payload decodes as that of a head if it begins with the bytes of one. -/
theorem decodeHead_eq_ok {payload : ByteArray} {a : AssociatedData} {n : Nat} :
    decodeHead payload = .ok (a, n) ↔
      ∃ (h : HeadData) (after : ByteArray), payload = h.toByteArray ++ after
        ∧ a = h.data ∧ n = h.toByteArray.size := by
  rw [decodeHead, decodeWith_eq_ok]
  simp only [readHead, run_bind_eq_ok]
  constructor
  · rintro ⟨r, ⟨algorithm, _, ha, iv, _, hi, salt, _, hs, iterations, _, hn, loop, _, hl, hint, _,
      hh, hr⟩, rfl⟩
    obtain ⟨_, rfl, rfl⟩ := run_readAlgorithm_eq_ok.1 ha
    obtain ⟨hiv, _, rfl, rfl⟩ := run_iv_eq_ok.1 hi
    obtain ⟨_, rfl, rfl⟩ := run_salt_eq_ok.1 hs
    obtain ⟨hiterations, _, rfl, rfl⟩ := run_iterations_eq_ok.1 hn
    obtain ⟨hloop, _, rfl, rfl⟩ := run_loopIndex_eq_ok.1 hl
    obtain ⟨hhint, after, rfl, rfl⟩ := run_hint_eq_ok.1 hh
    obtain ⟨rfl, rfl⟩ := run_pure_eq_ok.1 hr
    refine ⟨⟨algorithm, iv, salt, iterations, loop, hint, hiv, hiterations, hloop, hhint⟩, after,
      ?_, rfl, ?_⟩
    · simp only [HeadData.toByteArray, ByteArray.append_assoc]
    · simp only [HeadData.toByteArray, offset_between, ByteArray.empty_append]
  · rintro ⟨h, after, rfl, rfl, rfl⟩
    refine ⟨_, ⟨_, _, run_readAlgorithm_eq_ok.2 ⟨_, ?_, rfl⟩,
      _, _, run_iv_eq_ok.2 ⟨h.size_iv, _, rfl, rfl⟩,
      _, _, run_salt_eq_ok.2 ⟨_, rfl, rfl⟩,
      _, _, run_iterations_eq_ok.2 ⟨h.iterations_mem, _, rfl, rfl⟩,
      _, _, run_loopIndex_eq_ok.2 ⟨h.loop_valid, _, rfl, rfl⟩,
      _, _, run_hint_eq_ok.2 ⟨h.size_sealedHint, after, rfl, rfl⟩,
      run_pure_eq_ok.2 ⟨rfl, rfl⟩⟩, ?_⟩
    · simp only [HeadData.toByteArray, ByteArray.append_assoc]
    · simp only [HeadData.toByteArray, offset_between, ByteArray.empty_append]

/-- **Further blocks.**  A payload decodes as that of a further block if it begins with the bytes of
one. -/
theorem decodeFurther_eq_ok {payload : ByteArray} {a : AssociatedData} {n : Nat} :
    decodeFurther payload = .ok (a, n) ↔
      ∃ (f : FurtherData) (after : ByteArray), payload = f.toByteArray ++ after
        ∧ a = f.data ∧ n = f.toByteArray.size := by
  rw [decodeFurther, decodeWith_eq_ok]
  simp only [readFurther, run_bind_eq_ok]
  constructor
  · rintro ⟨r, ⟨algorithm, _, ha, iv, _, hi, hr⟩, rfl⟩
    obtain ⟨_, rfl, rfl⟩ := run_readAlgorithm_eq_ok.1 ha
    obtain ⟨hiv, after, rfl, rfl⟩ := run_iv_eq_ok.1 hi
    obtain ⟨rfl, rfl⟩ := run_pure_eq_ok.1 hr
    refine ⟨⟨algorithm, iv, hiv⟩, after, ?_, rfl, ?_⟩
    · simp only [FurtherData.toByteArray, ByteArray.append_assoc]
    · simp only [FurtherData.toByteArray, offset_between, ByteArray.empty_append]
  · rintro ⟨f, after, rfl, rfl, rfl⟩
    refine ⟨_, ⟨_, _, run_readAlgorithm_eq_ok.2 ⟨_, ?_, rfl⟩,
      _, _, run_iv_eq_ok.2 ⟨f.size_iv, after, rfl, rfl⟩, run_pure_eq_ok.2 ⟨rfl, rfl⟩⟩, ?_⟩
    · simp only [FurtherData.toByteArray, ByteArray.append_assoc]
    · simp only [FurtherData.toByteArray, offset_between, ByteArray.empty_append]

/-- The fields of a head are told by any bytes that begin with them. -/
theorem headData_inj {h h' : HeadData} {after after' : ByteArray}
    (he : h.toByteArray ++ after = h'.toByteArray ++ after') : h = h' ∧ after = after' := by
  -- The same payload decodes to both.
  have hd := decodeHead_eq_ok.2 ⟨h, after, rfl, rfl, rfl⟩
  rw [he, decodeHead_eq_ok.2 ⟨h', after', rfl, rfl, rfl⟩] at hd
  obtain ⟨hdata, hsize⟩ := Prod.mk.inj (Except.ok.inj hd)
  refine ⟨?_, (append_inj he hsize.symm).2⟩
  obtain ⟨⟩ := h
  obtain ⟨⟩ := h'
  cases hdata
  rfl

/-- The fields of a further block are told by any bytes that begin with them. -/
theorem furtherData_inj {f f' : FurtherData} {after after' : ByteArray}
    (he : f.toByteArray ++ after = f'.toByteArray ++ after') : f = f' ∧ after = after' := by
  have hd := decodeFurther_eq_ok.2 ⟨f, after, rfl, rfl, rfl⟩
  rw [he, decodeFurther_eq_ok.2 ⟨f', after', rfl, rfl, rfl⟩] at hd
  obtain ⟨hdata, hsize⟩ := Prod.mk.inj (Except.ok.inj hd)
  refine ⟨?_, (append_inj he hsize.symm).2⟩
  obtain ⟨⟩ := f
  obtain ⟨⟩ := f'
  cases hdata
  rfl

/-! ### What is valid -/

/-- The fields that are there are in range; salt and iteration count come together. -/
@[mk_iff]
structure Valid (a : AssociatedData) : Prop where
  size_iv : a.iv.size = a.algorithm.ivBytes
  stretching : a.salt.isSome = a.iterations.isSome
  iterations_mem : ∀ n ∈ a.iterations, IterationsInRange n
  loop_valid : ∀ l ∈ a.loop, l.Valid
  size_hint : ∀ h ∈ a.hint, h.size ≤ Limits.sealedHintMax

theorem validateStretching_eq_ok {salt : Option (Bytes 16)} {iterations : Option Nat} {u : Unit} :
    validateStretching salt iterations = .ok u ↔
      salt.isSome = iterations.isSome ∧ ∀ n ∈ iterations, IterationsInRange n := by
  cases salt <;> cases iterations <;> simp [validateStretching, checkIterations_eq_ok]

/-- **Validation** accepts what is valid. -/
theorem validate_eq_ok {a : AssociatedData} {u : Unit} : a.validate = .ok u ↔ a.Valid := by
  have hpure : (pure ⟨⟩ : Except Fault Unit) = .ok u ↔ True := iff_true_intro rfl
  obtain ⟨algorithm, iv, salt, iterations, loop, hint⟩ := a
  unfold validate
  rw [unless_eq_ok, bind_eq_ok, valid_iff]
  cases loop <;> cases hint <;>
    simp [validateStretching_eq_ok, bind_eq_ok, discard_eq_ok, LoopIndex.check_eq_ok, throwIf_eq_ok,
      hpure, and_assoc]

/-- All fields are there, as in a head. -/
def IsHeadData (a : AssociatedData) : Prop :=
  a.salt.isSome ∧ a.iterations.isSome ∧ a.loop.isSome ∧ a.hint.isSome

/-- Only algorithm and nonce are there, as in a further block. -/
def IsFurtherData (a : AssociatedData) : Prop :=
  a.salt = none ∧ a.iterations = none ∧ a.loop = none ∧ a.hint = none

theorem valid_headData (h : HeadData) : h.data.Valid where
  size_iv := h.size_iv
  stretching := rfl
  iterations_mem _ hn := Option.some.inj hn ▸ h.iterations_mem
  loop_valid _ hl := Option.some.inj hl ▸ h.loop_valid
  size_hint _ hh := Option.some.inj hh ▸ h.size_sealedHint

theorem valid_furtherData (f : FurtherData) : f.data.Valid where
  size_iv := f.size_iv
  stretching := rfl
  iterations_mem _ hn := nomatch hn
  loop_valid _ hl := nomatch hl
  size_hint _ hh := nomatch hh

/-- What is valid, and has all fields, is the associated data of a head. -/
theorem valid_and_isHeadData_iff (a : AssociatedData) :
    a.Valid ∧ a.IsHeadData ↔ ∃ h : HeadData, a = h.data := by
  constructor
  · rintro ⟨hv, hsalt, hiterations, hloop, hhint⟩
    obtain ⟨algorithm, iv, salt, iterations, loop, hint⟩ := a
    obtain ⟨salt, rfl⟩ := Option.isSome_iff_exists.1 hsalt
    obtain ⟨iterations, rfl⟩ := Option.isSome_iff_exists.1 hiterations
    obtain ⟨loop, rfl⟩ := Option.isSome_iff_exists.1 hloop
    obtain ⟨hint, rfl⟩ := Option.isSome_iff_exists.1 hhint
    exact ⟨⟨algorithm, iv, salt, iterations, loop, hint, hv.size_iv, hv.iterations_mem _ rfl,
      hv.loop_valid _ rfl, hv.size_hint _ rfl⟩, rfl⟩
  · rintro ⟨h, rfl⟩
    exact ⟨valid_headData h, rfl, rfl, rfl, rfl⟩

theorem valid_and_isFurtherData_iff (a : AssociatedData) :
    a.Valid ∧ a.IsFurtherData ↔ ∃ f : FurtherData, a = f.data := by
  constructor
  · rintro ⟨hv, hsalt, hiterations, hloop, hhint⟩
    obtain ⟨algorithm, iv, salt, iterations, loop, hint⟩ := a
    obtain ⟨rfl, rfl, rfl, rfl⟩ : salt = none ∧ iterations = none ∧ loop = none ∧ hint = none :=
      ⟨hsalt, hiterations, hloop, hhint⟩
    exact ⟨⟨algorithm, iv, hv.size_iv⟩, rfl⟩
  · rintro ⟨f, rfl⟩
    exact ⟨valid_furtherData f, rfl, rfl, rfl, rfl⟩

/-! ### Encoding -/

/-- Salt and iteration count on the wire. -/
def stretchingBytes : (salt : Option (Bytes 16)) → (iterations : Option Nat) → ByteArray
  | some salt, some n => salt.data ++ writeLE Limits.iterationsBytes n
  | _, _ => .empty

/-- A loop index on the wire, if there is one. -/
def loopBytes (loop : Option LoopIndex) : ByteArray :=
  loop.elim .empty fun l => ofList [l.toByte]

/-- A sealed hint on the wire, if there is one. -/
def hintBytes (hint : Option ByteArray) : ByteArray :=
  hint.elim .empty fun h => writeLE Limits.hintLengthBytes h.size ++ h

/-- The bytes of the fields that are there, in the order of the wire. -/
def toByteArray (a : AssociatedData) : ByteArray :=
  writeLE Limits.algorithmBytes a.algorithm.id ++ (a.iv ++ (stretchingBytes a.salt a.iterations
    ++ (loopBytes a.loop ++ hintBytes a.hint)))

theorem toByteArray_headData (h : HeadData) : h.data.toByteArray = h.toByteArray := by
  simp only [HeadData.toByteArray, ByteArray.append_assoc]
  simp only [toByteArray, HeadData.data, stretchingBytes, loopBytes, hintBytes, Option.elim,
    ByteArray.append_assoc]

theorem toByteArray_furtherData (f : FurtherData) : f.data.toByteArray = f.toByteArray := by
  simp only [toByteArray, FurtherData.toByteArray, FurtherData.data, stretchingBytes, loopBytes,
    hintBytes, Option.elim, ByteArray.append_empty]

/-- The length that is foretold of valid associated data is that of its bytes. -/
theorem Valid.size_toByteArray {a : AssociatedData} (h : a.Valid) :
    a.encodedSize = a.toByteArray.size := by
  have hs := h.stretching
  obtain ⟨algorithm, iv, salt, iterations, loop, hint⟩ := a
  have hloop : (loopBytes loop).size = loop.elim 0 fun _ => Limits.loopBytes := by
    cases loop <;> rfl
  have hhint : (hintBytes hint).size = hint.elim 0 fun h => Limits.hintLengthBytes + h.size := by
    cases hint <;> simp [hintBytes]
  have hstretching : (stretchingBytes salt iterations).size
      = (salt.elim 0 fun _ => Limits.saltBytes)
        + iterations.elim 0 fun _ => Limits.iterationsBytes := by
    cases salt <;> cases iterations <;> simp_all [stretchingBytes, Bytes.size_data]
    rfl
  simp only [toByteArray, ByteArray.size_append, size_writeLE, hloop, hhint, hstretching,
    encodedSize, Nat.add_assoc]

/-- Writes salt and iteration count. -/
def writeStretching : (salt : Option (Bytes 16)) → (iterations : Option Nat) → Writing Unit
  | some salt, some n => do
    FieldWriter.salt salt.data
    FieldWriter.iterations n
  | _, _ => pure ⟨⟩

/-- Writes a loop index, if there is one. -/
def writeLoop (loop : Option LoopIndex) : Writing Unit :=
  loop.elim (pure ⟨⟩) FieldWriter.loopIndex

/-- Writes a sealed hint, if there is one. -/
def writeHint (hint : Option ByteArray) : Writing Unit :=
  hint.elim (pure ⟨⟩) FieldWriter.hint

theorem write_eq (a : AssociatedData) : a.write = (do
    FieldWriter.algorithm a.algorithm
    FieldWriter.iv a.algorithm a.iv
    writeStretching a.salt a.iterations
    writeLoop a.loop
    writeHint a.hint) := by
  obtain ⟨algorithm, iv, salt, iterations, loop, hint⟩ := a
  cases salt <;> cases iterations <;> cases loop <;> cases hint <;>
    simp only [write, writeStretching, writeLoop, writeHint, Option.elim, pure_bind, bind_assoc]

theorem writes_stretching {salt : Option (Bytes 16)} {iterations : Option Nat}
    (h : ∀ n ∈ iterations, IterationsInRange n) :
    Writes (writeStretching salt iterations) (stretchingBytes salt iterations) := by
  cases salt <;> cases iterations
  case some.some s n =>
    exact ((writesWhen_salt s.data).writes s.size_data).bind
      ((writesWhen_iterations n).writes (h n rfl))
  all_goals exact Writes.nothing

/-- **What valid associated data writes** are its bytes, field by field. -/
theorem Valid.writes {a : AssociatedData} (h : a.Valid) : Writes a.write a.toByteArray := by
  have hloop : Writes (writeLoop a.loop) (loopBytes a.loop) := by
    have hl := h.loop_valid
    cases hloop : a.loop with
    | none => exact Writes.nothing
    | some l => exact (writesWhen_loopIndex l).writes (hl l hloop)
  have hhint : Writes (writeHint a.hint) (hintBytes a.hint) := by
    have hs := h.size_hint
    cases hhint : a.hint with
    | none => exact Writes.nothing
    | some b => exact (writesWhen_hint b).writes (hs b hhint)
  rw [write_eq]
  exact ((writesWhen_algorithm a.algorithm).writes trivial).bind
    (((writesWhen_iv a.algorithm a.iv).writes h.size_iv).bind
      ((writes_stretching h.iterations_mem).bind (hloop.bind hhint)))

/-- Valid associated data has an encoding, its bytes. -/
theorem Valid.encode_eq {a : AssociatedData} (h : a.Valid) : a.encode = .ok a.toByteArray := by
  have hrun := h.writes.run_ofSize h.size_toByteArray
  unfold encode
  rw [(validate_eq_ok (u := ⟨⟩)).2 h]
  show (do
    let _ ← (a.write.run (ofSize a.encodedSize)).1
    return (a.write.run (ofSize a.encodedSize)).2.written : Except Fault ByteArray) = _
  rw [hrun, written_between]
  rfl

/-- **Encoding a head** gives its bytes. -/
theorem encode_headData (h : HeadData) : h.data.encode = .ok h.toByteArray := by
  rw [(valid_headData h).encode_eq, toByteArray_headData]

/-- **Encoding a further block** gives its bytes. -/
theorem encode_furtherData (f : FurtherData) : f.data.encode = .ok f.toByteArray := by
  rw [(valid_furtherData f).encode_eq, toByteArray_furtherData]

/-- Encoding fails only because validation does, as it does. -/
theorem encode_eq_error_iff {a : AssociatedData} {fault : Fault} :
    a.encode = .error fault ↔ a.validate = .error fault := by
  constructor
  · intro h
    rcases bind_eq_error.1 h with hv | ⟨u, hu, -⟩
    · exact hv
    · rw [(validate_eq_ok.1 hu).encode_eq] at h
      cases h
  · exact fun h => bind_eq_error.2 (.inl h)

/-- What comes of encoding, and how long it is, is known from validation. -/
theorem map_size_encode (a : AssociatedData) :
    a.encode.map ByteArray.size = a.validate.map fun _ => a.encodedSize := by
  cases hv : a.validate with
  | error fault => rw [encode_eq_error_iff.2 hv, Except.map, Except.map]
  | ok u =>
    have h := validate_eq_ok.1 hv
    rw [h.encode_eq, Except.map, Except.map, h.size_toByteArray]

/-! ### Encoding and decoding -/

/-- `decode` undoes the encoding of associated data of one shape, whatever follows it, and accepts
nothing else. -/
structure IsDecoderOf (decode : ByteArray → Except Fault (AssociatedData × Nat))
    (shape : AssociatedData → Prop) : Prop where
  decode_encode : ∀ a, shape a → a.validate = .ok ⟨⟩ →
    ∃ b, a.encode = .ok b ∧ ∀ rest, decode (b ++ rest) = .ok (a, b.size)
  encode_decode : ∀ payload a n, decode payload = .ok (a, n) →
    shape a ∧ n ≤ payload.size ∧ a.encode = .ok (payload.extract 0 n)

/-- The values of one shape are those with the fields in some range, and `decode` finds exactly
their bytes. -/
theorem isDecoderOf_of_iff {ι : Type} {fields : ι → AssociatedData}
    {decode : ByteArray → Except Fault (AssociatedData × Nat)} {shape : AssociatedData → Prop}
    (hshape : ∀ a, a.Valid ∧ shape a ↔ ∃ i, a = fields i)
    (hdecode : ∀ payload a n, decode payload = .ok (a, n) ↔ ∃ i after,
      payload = (fields i).toByteArray ++ after ∧ a = fields i ∧
        n = (fields i).toByteArray.size) : IsDecoderOf decode shape where
  decode_encode a hs hv := by
    have hvalid := validate_eq_ok.1 hv
    obtain ⟨i, rfl⟩ := (hshape a).1 ⟨hvalid, hs⟩
    exact ⟨_, hvalid.encode_eq, fun rest => (hdecode _ _ _).2 ⟨i, rest, rfl, rfl, rfl⟩⟩
  encode_decode payload a n hd := by
    obtain ⟨i, rest, rfl, rfl, rfl⟩ := (hdecode payload a n).1 hd
    obtain ⟨hvalid, hs⟩ := (hshape _).2 ⟨i, rfl⟩
    refine ⟨hs, by rw [ByteArray.size_append]; omega, ?_⟩
    rw [hvalid.encode_eq, extract_append_left rfl]

theorem isDecoderOf_head : IsDecoderOf decodeHead IsHeadData :=
  isDecoderOf_of_iff valid_and_isHeadData_iff fun payload a n => by
    simp only [toByteArray_headData]
    exact decodeHead_eq_ok

theorem isDecoderOf_further : IsDecoderOf decodeFurther IsFurtherData :=
  isDecoderOf_of_iff valid_and_isFurtherData_iff fun payload a n => by
    simp only [toByteArray_furtherData]
    exact decodeFurther_eq_ok

/-- **The encoding of associated data** is canonical, and tells where it ends.  With any of its
fields, associated data is encoded in as many bytes as foretold exactly if it is valid, and is else
refused as validation refuses it.  What follows the encoding of a head, or of a further block, is
neither read nor needed to find its end; and a payload that either decoder accepts begins with the
encoding of what it finds there. -/
theorem encoding_is_canonical :
    (∀ a : AssociatedData, a.encode.map ByteArray.size = a.validate.map fun _ => a.encodedSize)
      ∧ IsDecoderOf decodeHead IsHeadData ∧ IsDecoderOf decodeFurther IsFurtherData :=
  ⟨map_size_encode, isDecoderOf_head, isDecoderOf_further⟩

end AssociatedData

end SealedStream
