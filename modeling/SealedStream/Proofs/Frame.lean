import SealedStream.Frame
import SealedStream.Proofs.AssociatedData
import SealedStream.Proofs.Fault

/-!
# Framed blocks on the wire

A block of the two framed generations as it stands on the wire (`WireBlock`), and what reading and
verifying one accepts, all of it as equivalences:

* `parse_eq_ok`: a header is read if it is that of a block in range.
* `ofBytes_eq_ok`: a frame is cut off if the bytes ahead begin with a whole one.
* `verifyHead_eq_ok`, `verifyFurther_eq_ok`: a payload is believed if it is associated data and a
  text that is not empty, and the tag covers them.
-/

namespace SealedStream

attribute [local instance (2000)] instPowNat

open FieldReader

/-! ### Blocks on the wire -/

/-- A block on the wire. -/
structure WireBlock where
  tag : Bytes 32
  /-- Whether it says that it is the last of its pass. -/
  terminal : Bool
  associated : ByteArray
  text : ByteArray
  deriving DecidableEq

namespace WireBlock

variable (format : WireFormat) (b : WireBlock)

/-- The payload of a block. -/
def payload : ByteArray :=
  b.associated ++ b.text

/-- The flags of a block. -/
def flags : Nat :=
  if b.terminal then Limits.flagTerminal else 0

/-- The part of the header that is signed: version, payload size and flags. -/
def signed : ByteArray :=
  writeLE Limits.versionBytes format.version ++ writeLE Limits.sizeBytes b.payload.size
    ++ writeLE Limits.flagsBytes b.flags

/-- The header of a block. -/
def header : ByteArray :=
  b.tag.data ++ b.signed format

/-- The bytes of a block. -/
def toByteArray : ByteArray :=
  b.header format ++ b.payload

/-- What the tag of a block covers. -/
def covered (previous : ByteArray) : ByteArray :=
  b.signed format ++ b.associated ++ b.text ++ previous

/-- Whether the tag is that of the block, after a block whose tag is `previous`: the keyed BLAKE2b
hash of the signed part of the header, the associated data, the text and the previous tag. -/
def Signed (key : Key) (previous : ByteArray) : Prop :=
  b.tag = Blake2b.keyedHash key (b.covered format previous)

/-- What a tag covers depends on all of the block but the tag. -/
theorem covered_congr {b c : WireBlock} (ha : b.associated = c.associated) (hx : b.text = c.text)
    (ht : b.terminal = c.terminal) (previous : ByteArray) :
    b.covered format previous = c.covered format previous := by
  simp only [covered, signed, payload, flags, ha, hx, ht]

/-- The same block with the tag that signs it. -/
def sign (key : Key) (previous : ByteArray) : WireBlock :=
  { b with tag := Blake2b.keyedHash key (b.covered format previous) }

@[simp] theorem associated_sign (key : Key) (previous : ByteArray) :
    (b.sign format key previous).associated = b.associated := by
  rw [sign]

@[simp] theorem text_sign (key : Key) (previous : ByteArray) :
    (b.sign format key previous).text = b.text := by
  rw [sign]

@[simp] theorem terminal_sign (key : Key) (previous : ByteArray) :
    (b.sign format key previous).terminal = b.terminal := by
  rw [sign]

theorem signed_sign (key : Key) (previous : ByteArray) :
    (b.sign format key previous).Signed format key previous := by
  rw [Signed, covered_congr format (b.associated_sign format key previous)
    (b.text_sign format key previous) (b.terminal_sign format key previous), sign]

/-- Whether the fields of the header are in range.  Only the chained format has a flag. -/
structure InRange : Prop where
  size_mem : Limits.payloadMin ≤ b.payload.size ∧ b.payload.size ≤ Limits.payloadMax
  chained_of_terminal : b.terminal = true → format = .chained

@[simp] theorem size_signed : (b.signed format).size = 6 := by
  simp [signed, ByteArray.size_append, Limits.versionBytes, Limits.sizeBytes, Limits.flagsBytes]

@[simp] theorem size_header : (b.header format).size = Limits.headerBytes := by
  rw [header, ByteArray.size_append, size_signed, b.tag.size_data]
  rfl

theorem size_toByteArray :
    (b.toByteArray format).size = Limits.headerBytes + b.payload.size := by
  rw [toByteArray, ByteArray.size_append, size_header]

theorem flags_eq_terminal_iff : b.flags = Limits.flagTerminal ↔ b.terminal = true := by
  unfold flags
  cases b.terminal <;> decide

theorem terminal_eq_of_flags_eq {b c : WireBlock} (h : b.flags = c.flags) :
    b.terminal = c.terminal := by
  have hb := b.flags_eq_terminal_iff
  rw [h, c.flags_eq_terminal_iff] at hb
  exact (Bool.eq_iff_iff.2 hb).symm

end WireBlock

/-! ### Headers -/

namespace FrameHeader

/-- Reads what a header has after the size. -/
def readFlags (format : WireFormat) (tag : Bytes 32) (size : Nat) : Reading FrameHeader :=
  match format with
  | .chained => do
    let flags ← FieldReader.flags
    return ⟨tag, size, flags⟩
  | _ => do
    let rest ← FieldReader.rest "size"
    if rest ≠ zeros 1 then throw (.malformedField "size" "V4 payload size above 3 bytes")
    return ⟨tag, size, 0⟩

/-- The part of a header that the formats have in common, and what reads the rest. -/
theorem run_read_eq_ok {format : WireFormat} {header : ByteArray} {frame : FrameHeader}
    {r : FieldReader} :
    (read format).run (between .empty header none) = (.ok frame, r) ↔
      ∃ (tag : Bytes 32) (size : Nat) (tail : ByteArray),
        header = tag.data ++ (writeLE Limits.versionBytes format.version
          ++ (writeLE Limits.sizeBytes size ++ tail)) ∧
        (Limits.payloadMin ≤ size ∧ size ≤ Limits.payloadMax) ∧
        (readFlags format tag size).run (between (tag.data
          ++ writeLE Limits.versionBytes format.version ++ writeLE Limits.sizeBytes size) tail none)
            = (.ok frame, r) := by
  have hread : read format = (do
      let tag ← FieldReader.mac
      let version ← FieldReader.version
      if version ≠ format.version then throw (.protocolVersion version)
      let size ← FieldReader.size
      readFlags format tag size) := rfl
  have hv : format.version ∈ [Limits.version1, Limits.version4, Limits.version5] := by
    cases format <;> decide
  rw [hread]
  simp only [run_bind_eq_ok, run_ite_eq_ok, run_throw_ne_ok, false_and, and_false, exists_false,
    false_or, Decidable.not_not]
  constructor
  · rintro ⟨tag, _, ht, version, _, hv, hversion, size, _, hs, h⟩
    obtain ⟨_, rfl, rfl⟩ := run_mac_eq_ok.1 ht
    obtain ⟨-, _, rfl, rfl⟩ := run_version_eq_ok.1 hv
    obtain ⟨hsize, tail, rfl, rfl⟩ := run_size_eq_ok.1 hs
    rw [hversion, ByteArray.empty_append] at h
    exact ⟨tag, size, tail, by rw [hversion], hsize, h⟩
  · rintro ⟨tag, size, tail, rfl, hsize, h⟩
    refine ⟨tag, _, run_mac_eq_ok.2 ⟨_, rfl, rfl⟩, format.version, _,
      run_version_eq_ok.2 ⟨hv, _, rfl, rfl⟩, rfl, size, _,
      run_size_eq_ok.2 ⟨hsize, tail, rfl, rfl⟩, ?_⟩
    rw [ByteArray.empty_append]
    exact h

theorem run_readFlags_eq_ok {format : WireFormat} (hf : format ≠ .message) {tag : Bytes 32}
    {size : Nat} {passed tail : ByteArray} (hs : tail.size = 1) {frame : FrameHeader} :
    (∃ r, (readFlags format tag size).run (between passed tail none) = (.ok frame, r)) ↔
      frame.tag = tag ∧ frame.size = size ∧ tail = writeLE Limits.flagsBytes frame.flags ∧
        (frame.flags = 0 ∨ frame.flags = Limits.flagTerminal ∧ format = .chained) := by
  have hzeros : zeros 1 = writeLE Limits.flagsBytes 0 := rfl
  cases format with
  | message => exact absurd rfl hf
  | framed =>
    -- The byte is the last of the size, which has to be zero.
    have hrun : ∀ r, (readFlags .framed tag size).run (between passed tail none) = (.ok frame, r) ↔
        (tail ≠ .empty ∧ tail = zeros 1) ∧ frame = ⟨tag, size, 0⟩ ∧
          r = between (passed ++ tail) .empty none := by
      intro r
      simp only [readFlags, run_bind_eq_ok, run_ite_eq_ok, run_throw_ne_ok, run_rest_eq_ok,
        run_pure_eq_ok, false_and, and_false, exists_false, false_or, Decidable.not_not]
      constructor
      · rintro ⟨_, _, ⟨hne, rfl, rfl⟩, hz, rfl, rfl⟩
        exact ⟨⟨hne, hz⟩, rfl, rfl⟩
      · rintro ⟨⟨hne, hz⟩, rfl, rfl⟩
        exact ⟨_, _, ⟨hne, rfl, rfl⟩, hz, rfl, rfl⟩
    simp only [hrun]
    constructor
    · rintro ⟨_, ⟨-, hz⟩, rfl, -⟩
      exact ⟨rfl, rfl, hz, .inl rfl⟩
    · rintro ⟨rfl, rfl, htail, h | ⟨-, h⟩⟩
      · refine ⟨_, ⟨fun he => ?_, ?_⟩, ?_, rfl⟩
        · rw [he] at hs
          cases hs
        · rw [htail, h, hzeros]
        · rw [← h]
      · cases h
  | chained =>
    have hrun : ∀ r, (readFlags .chained tag size).run (between passed tail none) = (.ok frame, r) ↔
        ∃ flags ≤ Limits.flagTerminal, (∃ after, tail = writeLE Limits.flagsBytes flags ++ after ∧
          r = between (passed ++ writeLE Limits.flagsBytes flags) after none) ∧
          frame = ⟨tag, size, flags⟩ := by
      intro r
      simp only [readFlags, run_bind_eq_ok, run_flags_eq_ok, run_pure_eq_ok]
      constructor
      · rintro ⟨flags, _, ⟨hle, after, rfl, rfl⟩, rfl, rfl⟩
        exact ⟨flags, hle, ⟨after, rfl, rfl⟩, rfl⟩
      · rintro ⟨flags, hle, ⟨after, rfl, rfl⟩, rfl⟩
        exact ⟨flags, _, ⟨hle, after, rfl, rfl⟩, rfl, rfl⟩
    simp only [hrun]
    have h1 : Limits.flagTerminal = 1 := rfl
    constructor
    · rintro ⟨_, flags, hle, ⟨after, rfl, -⟩, rfl⟩
      have ha : after.size = 0 := by
        rw [ByteArray.size_append, size_writeLE] at hs
        have hb : Limits.flagsBytes = 1 := rfl
        omega
      rw [ByteArray.size_eq_zero_iff.1 ha, ByteArray.append_empty]
      have hflags : flags = 0 ∨ flags = Limits.flagTerminal := by omega
      exact ⟨rfl, rfl, rfl, hflags.imp_right fun h => ⟨h, trivial⟩⟩
    · rintro ⟨rfl, rfl, htail, h⟩
      refine ⟨_, frame.flags, by omega, ⟨.empty, ?_, rfl⟩, rfl⟩
      rw [ByteArray.append_empty]
      exact htail

/-- **Headers.**  A header is read if it is that of a block with size and flags in range. -/
theorem parse_eq_ok {format : WireFormat} (hf : format ≠ .message) {header : ByteArray}
    (hs : header.size = Limits.headerBytes) {frame : FrameHeader} :
    parse format header = .ok frame ↔
      header = frame.tag.data ++ (writeLE Limits.versionBytes format.version
          ++ (writeLE Limits.sizeBytes frame.size ++ writeLE Limits.flagsBytes frame.flags)) ∧
        (Limits.payloadMin ≤ frame.size ∧ frame.size ≤ Limits.payloadMax) ∧
        (frame.flags = 0 ∨ frame.flags = Limits.flagTerminal ∧ format = .chained) := by
  have htail : ∀ {tag : Bytes 32} {version size tail : ByteArray}, version.size = 2 →
      size.size = 3 → header = tag.data ++ (version ++ (size ++ tail)) → tail.size = 1 := by
    intro tag version size tail hv hsize h
    rw [h] at hs
    simp only [ByteArray.size_append, tag.size_data, hv, hsize] at hs
    have h38 : Limits.headerBytes = 38 := rfl
    omega
  rw [parse, start_eq_between, fst_run_eq_ok]
  simp only [run_read_eq_ok]
  constructor
  · rintro ⟨r, tag, size, tail, hh, hsize, hr⟩
    have ht := htail (size_writeLE _ _) (size_writeLE _ _) hh
    obtain ⟨rfl, rfl, rfl, hflags⟩ := (run_readFlags_eq_ok hf ht).1 ⟨r, hr⟩
    exact ⟨hh, hsize, hflags⟩
  · rintro ⟨hh, hsize, hflags⟩
    have ht := htail (size_writeLE _ _) (size_writeLE _ _) hh
    obtain ⟨r, hr⟩ := (run_readFlags_eq_ok hf ht).2 ⟨rfl, rfl, rfl, hflags⟩
    exact ⟨r, _, _, _, hh, hsize, hr⟩

end FrameHeader

/-! ### Payloads -/

/-- A payload is cut after its associated data if a text follows. -/
theorem splitPayload_eq_ok {associated after : ByteArray} {a t : ByteArray} :
    splitPayload (associated ++ after) associated.size = .ok (a, t) ↔
      after ≠ .empty ∧ a = associated ∧ t = after := by
  have hne : after ≠ .empty ↔ ¬ (associated ++ after).size ≤ associated.size := by
    rw [ByteArray.size_append, ne_eq, ← ByteArray.size_eq_zero_iff]
    omega
  rw [splitPayload, hne, extract_append_left rfl, extract_append_right rfl rfl]
  by_cases h : (associated ++ after).size ≤ associated.size
  · rw [if_pos h]
    simp only [h, not_true, false_and, iff_false]
    exact fun h => nomatch h
  · rw [if_neg h]
    simp only [h, not_false_eq_true, true_and, Except.ok.injEq, Prod.mk.injEq, eq_comm]

theorem verifyTag_eq_ok {expected computed : Bytes 32} {u : Unit} :
    verifyTag expected computed = .ok u ↔ expected = computed := by
  unfold verifyTag
  split <;> simp_all

namespace HeadData

/-- The metadata that a head gives, with its hint opened. -/
def info (h : HeadData) (format : WireFormat) (hint : Option String) : PassInfo :=
  ⟨format.version, h.algorithm, h.iterations, h.loop, h.iv, h.salt, hint⟩

/-- The hint of a head, in the clear. -/
def openHint (h : HeadData) (credential : Credential) : Except Fault (Option String) :=
  SealedStream.openHint h.algorithm (credential.hintKey h.salt) h.iv h.sealedHint

end HeadData

namespace FrameHeader

variable {frame : FrameHeader} {header payload : ByteArray}

/-- **Heads.**  The payload of a head is believed if it is that of one, its tag covers it, and its
hint opens. -/
theorem verifyHead_eq_ok {format : WireFormat} {credential : Credential} {head : VerifiedHead} :
    frame.verifyHead format header payload credential = .ok head ↔
      ∃ (h : HeadData) (text : ByteArray) (hint : Option String),
        payload = h.toByteArray ++ text ∧ text ≠ .empty ∧
        frame.tag = blockTag (credential.signingKey h.salt)
          (header.extract Limits.macBytes header.size) h.toByteArray text .empty ∧
        h.openHint credential = .ok hint ∧
        head = ⟨h.info format hint, credential.signingKey h.salt, frame.tag, frame.flags,
          h.toByteArray, text⟩ := by
  unfold verifyHead
  constructor
  · intro hv
    obtain ⟨⟨data, n⟩, hd, h1⟩ := bind_eq_ok.1 hv
    obtain ⟨h, after, rfl, rfl, rfl⟩ := AssociatedData.decodeHead_eq_ok.1 hd
    obtain ⟨⟨associated, text⟩, hs, h2⟩ := bind_eq_ok.1 h1
    obtain ⟨hne, rfl, rfl⟩ := splitPayload_eq_ok.1 hs
    obtain ⟨_, ht, h3⟩ := bind_eq_ok.1 h2
    obtain ⟨hint, hh, h4⟩ := bind_eq_ok.1 h3
    have htag := verifyTag_eq_ok.1 ht
    cases h4
    exact ⟨h, text, hint, rfl, hne, htag, hh, by rw [htag]; rfl⟩
  · rintro ⟨h, text, hint, rfl, hne, htag, hh, rfl⟩
    refine bind_eq_ok.2 ⟨_, AssociatedData.decodeHead_eq_ok.2 ⟨h, text, rfl, rfl, rfl⟩, ?_⟩
    refine bind_eq_ok.2 ⟨_, splitPayload_eq_ok.2 ⟨hne, rfl, rfl⟩, ?_⟩
    refine bind_eq_ok.2 ⟨⟨⟩, verifyTag_eq_ok.2 htag, ?_⟩
    refine bind_eq_ok.2 ⟨hint, hh, ?_⟩
    rw [htag]
    rfl

/-- **Further blocks.**  The payload of a further block is believed if it is that of one and its
tag covers it. -/
theorem verifyFurther_eq_ok {key : Key} {previous : ByteArray} {block : VerifiedBlock} :
    frame.verifyFurther header payload key previous = .ok block ↔
      ∃ (f : FurtherData) (text : ByteArray),
        payload = f.toByteArray ++ text ∧ text ≠ .empty ∧
        frame.tag = blockTag key (header.extract Limits.macBytes header.size) f.toByteArray text
          previous ∧
        block = ⟨f.algorithm, f.iv, frame.tag, frame.flags, f.toByteArray, text⟩ := by
  unfold verifyFurther
  constructor
  · intro hv
    obtain ⟨⟨data, n⟩, hd, h1⟩ := bind_eq_ok.1 hv
    obtain ⟨f, after, rfl, rfl, rfl⟩ := AssociatedData.decodeFurther_eq_ok.1 hd
    obtain ⟨⟨associated, text⟩, hs, h2⟩ := bind_eq_ok.1 h1
    obtain ⟨hne, rfl, rfl⟩ := splitPayload_eq_ok.1 hs
    obtain ⟨_, ht, h3⟩ := bind_eq_ok.1 h2
    have htag := verifyTag_eq_ok.1 ht
    cases h3
    exact ⟨f, text, rfl, hne, htag, by rw [htag]; rfl⟩
  · rintro ⟨f, text, rfl, hne, htag, rfl⟩
    refine bind_eq_ok.2 ⟨_, AssociatedData.decodeFurther_eq_ok.2 ⟨f, text, rfl, rfl, rfl⟩, ?_⟩
    refine bind_eq_ok.2 ⟨_, splitPayload_eq_ok.2 ⟨hne, rfl, rfl⟩, ?_⟩
    refine bind_eq_ok.2 ⟨⟨⟩, verifyTag_eq_ok.2 htag, ?_⟩
    rw [htag]
    rfl

end FrameHeader

/-! ### Frames -/

/-- A header and its payload, cut off the bytes ahead. -/
structure Frame where
  header : ByteArray
  fields : FrameHeader
  payload : ByteArray
  after : ByteArray
  deriving DecidableEq

/-- The frame of a block, with what follows it. -/
def WireBlock.frame (format : WireFormat) (b : WireBlock) (after : ByteArray) : Frame :=
  ⟨b.header format, ⟨b.tag, b.payload.size, b.flags⟩, b.payload, after⟩

namespace Frame

/-- The frame that some bytes begin with. -/
def ofBytes (format : WireFormat) (ahead : ByteArray) : Except Fault Frame := do
  if ahead.size < Limits.headerBytes then
    throw (.sizeMismatch "cipher data header" Limits.headerBytes ahead.size)
  let header := ahead.extract 0 Limits.headerBytes
  let rest := ahead.extract Limits.headerBytes ahead.size
  let fields ← FrameHeader.parse format header
  if rest.size < fields.size then
    throw (.sizeMismatch "cipher data payload" fields.size rest.size)
  return ⟨header, fields, rest.extract 0 fields.size, rest.extract fields.size rest.size⟩

variable {format : WireFormat}

/-- The frame of a header and the bytes after it. -/
theorem ofBytes_append {header : ByteArray} (hh : header.size = Limits.headerBytes)
    (rest : ByteArray) :
    ofBytes format (header ++ rest) = (do
      let fields ← FrameHeader.parse format header
      if rest.size < fields.size then
        throw (.sizeMismatch "cipher data payload" fields.size rest.size)
      return ⟨header, fields, rest.extract 0 fields.size, rest.extract fields.size rest.size⟩) := by
  have hs : ¬ (header ++ rest).size < Limits.headerBytes := by
    rw [ByteArray.size_append]
    omega
  rw [ofBytes, if_neg hs, extract_append_left hh, extract_append_right hh rfl]

/-- What goes on with such a frame goes on behind the checks of its header and of its size. -/
theorem bind_ofBytes_append {β : Type} {header : ByteArray} (hh : header.size = Limits.headerBytes)
    (rest : ByteArray) (next : Frame → Except Fault β) :
    (ofBytes format (header ++ rest) >>= next) = (do
      let fields ← FrameHeader.parse format header
      if rest.size < fields.size then
        throw (.sizeMismatch "cipher data payload" fields.size rest.size)
      next ⟨header, fields, rest.extract 0 fields.size, rest.extract fields.size rest.size⟩) := by
  rw [ofBytes_append hh]
  cases FrameHeader.parse format header with
  | error fault => rfl
  | ok fields =>
    show (if rest.size < fields.size then _ else _ : Except Fault Frame) >>= _
      = if rest.size < fields.size then _ else _
    by_cases hs : rest.size < fields.size
    · rw [if_pos hs, if_pos hs]
      rfl
    · rw [if_neg hs, if_neg hs]
      rfl

theorem ofBytes_eq_ok {ahead : ByteArray} {f : Frame} :
    ofBytes format ahead = .ok f ↔
      f.header.size = Limits.headerBytes ∧ FrameHeader.parse format f.header = .ok f.fields ∧
        f.payload.size = f.fields.size ∧ ahead = f.header ++ (f.payload ++ f.after) := by
  constructor
  · intro h
    obtain ⟨hs, -⟩ := unless_eq_ok.1 h
    obtain ⟨header, rest, rfl, hh⟩ := exists_eq_append_of_le (Nat.le_of_not_lt hs)
    rw [ofBytes_append hh] at h
    obtain ⟨fields, hp, h1⟩ := bind_eq_ok.1 h
    obtain ⟨hr, h2⟩ := unless_eq_ok.1 h1
    obtain ⟨payload, after, rfl, hpay⟩ := exists_eq_append_of_le (Nat.le_of_not_lt hr)
    rw [extract_append_left hpay, extract_append_right hpay rfl] at h2
    cases h2
    exact ⟨hh, hp, hpay, rfl⟩
  · rintro ⟨hh, hp, hpay, rfl⟩
    obtain ⟨header, fields, payload, after⟩ := f
    simp only at hh hp hpay ⊢
    rw [ofBytes_append hh]
    refine bind_eq_ok.2 ⟨fields, hp, unless_eq_ok.2 ⟨?_, ?_⟩⟩
    · rw [ByteArray.size_append]
      omega
    · rw [extract_append_left hpay, extract_append_right hpay rfl]
      rfl

variable (hf : format ≠ .message)
include hf

theorem ofBytes_toByteArray {b : WireBlock} (hb : b.InRange format) (after : ByteArray) :
    ofBytes format (b.toByteArray format ++ after) = .ok (b.frame format after) := by
  refine ofBytes_eq_ok.2 ⟨b.size_header format, ?_, rfl, ?_⟩
  · refine (FrameHeader.parse_eq_ok hf (b.size_header format)).2 ⟨?_, hb.size_mem, ?_⟩
    · simp only [WireBlock.frame, WireBlock.header, WireBlock.signed, ByteArray.append_assoc]
    · show b.flags = 0 ∨ b.flags = Limits.flagTerminal ∧ format = .chained
      unfold WireBlock.flags
      split
      next h => exact .inr ⟨rfl, hb.chained_of_terminal h⟩
      next => exact .inl rfl
  · rw [WireBlock.toByteArray, ByteArray.append_assoc]
    rfl

/-- **Blocks are told apart from what follows them**, but for where their payload is cut. -/
theorem toByteArray_inj {b c : WireBlock} {after after' : ByteArray} (hb : b.InRange format)
    (hc : c.InRange format) (h : b.toByteArray format ++ after = c.toByteArray format ++ after') :
    b.tag = c.tag ∧ b.flags = c.flags ∧ b.payload = c.payload ∧ after = after' := by
  have hframe := ofBytes_toByteArray hf hb after
  rw [h, ofBytes_toByteArray hf hc after'] at hframe
  obtain ⟨-, hfields, hpayload, hafter⟩ := Frame.mk.inj (Except.ok.inj hframe)
  obtain ⟨htag, -, hflags⟩ := FrameHeader.mk.inj hfields
  exact ⟨htag.symm, hflags.symm, hpayload.symm, hafter.symm⟩

/-- **A block that is cut off** has too few bytes, in its header or behind it. -/
theorem ofBytes_of_cut {b : WireBlock} (hb : b.InRange format) {bytes rest : ByteArray}
    (h : b.toByteArray format = bytes ++ rest) (hrest : rest ≠ .empty) :
    ∃ what expected actual, ofBytes format bytes = .error (.sizeMismatch what expected actual) := by
  rw [ne_eq, ← ByteArray.size_eq_zero_iff] at hrest
  by_cases hshort : bytes.size < Limits.headerBytes
  · refine ⟨"cipher data header", Limits.headerBytes, bytes.size, ?_⟩
    rw [ofBytes, if_pos hshort]
    rfl
  · -- The header is whole, and tells that more bytes should follow.
    obtain ⟨payload, hbytes, hpayload⟩ := exists_append_of_append_eq
      (a := b.header format) (b := b.payload) (c := bytes) (d := rest) h
      (by rw [b.size_header]; exact Nat.le_of_not_lt hshort)
    have hsize : payload.size < b.payload.size := by
      rw [hpayload, ByteArray.size_append]
      omega
    have hparse : FrameHeader.parse format (b.header format)
        = .ok ⟨b.tag, b.payload.size, b.flags⟩ :=
      (ofBytes_eq_ok.1 (ofBytes_toByteArray hf hb .empty)).2.1
    refine ⟨"cipher data payload", b.payload.size, payload.size, ?_⟩
    rw [hbytes, ofBytes_append (b.size_header format)]
    exact bind_eq_error.2 (.inr ⟨_, hparse, unless_eq_error.2 (.inl ⟨hsize, rfl⟩)⟩)

/-- A frame is that of a block, wherever its payload is cut. -/
theorem exists_block_of_ofBytes {ahead : ByteArray} {f : Frame} (h : ofBytes format ahead = .ok f)
    {associated text : ByteArray} (hp : f.payload = associated ++ text) :
    ∃ b : WireBlock, b.associated = associated ∧ b.text = text ∧ b.InRange format ∧
      f = b.frame format f.after ∧ ahead = b.toByteArray format ++ f.after := by
  obtain ⟨hh, hparse, hs, hahead⟩ := ofBytes_eq_ok.1 h
  obtain ⟨hheader, hsize, hflags⟩ := (FrameHeader.parse_eq_ok hf hh).1 hparse
  obtain ⟨header, ⟨tag, size, flags⟩, payload, after⟩ := f
  simp only at hp hs hheader hsize hflags hahead ⊢
  subst hp
  -- Only the cut is not in the frame: any cut makes a block with this header.
  have h1 : Limits.flagTerminal = 1 := rfl
  let b : WireBlock := ⟨tag, flags = Limits.flagTerminal, associated, text⟩
  have hb : b.flags = flags := by
    show (if decide (flags = Limits.flagTerminal) = true then Limits.flagTerminal else 0) = flags
    rcases hflags with rfl | ⟨rfl, -⟩
    · rfl
    · rfl
  have hhead : b.header format = header := by
    rw [hheader, ← hb, ← hs]
    simp only [WireBlock.header, WireBlock.signed, ByteArray.append_assoc]
    rfl
  refine ⟨b, rfl, rfl, ⟨?_, fun ht => ?_⟩, ?_, ?_⟩
  · exact hs ▸ hsize
  · rcases hflags with rfl | ⟨-, hc⟩
    · cases ht
    · exact hc
  · rw [WireBlock.frame, hhead, hb, ← hs]
    rfl
  · rw [hahead, WireBlock.toByteArray, hhead, WireBlock.payload]
    simp only [ByteArray.append_assoc]
    rfl

end Frame

/-! ### Formats -/

/-- The first header tells a framed format by the two bytes after its tag. -/
theorem WireFormat.ofHeader_eq_ok {format : WireFormat} (hf : format ≠ .message) {bytes : ByteArray}
    (hv : readLE (bytes.extract 32 34) = format.version) {f : WireFormat} :
    WireFormat.ofHeader (bytes.extract 0 Limits.headerBytes) = .ok f ↔
      Limits.headerBytes ≤ bytes.size ∧ f = format := by
  have h38 : Limits.headerBytes = 38 := rfl
  have hs : (bytes.extract 0 Limits.headerBytes).size = min Limits.headerBytes bytes.size := by
    rw [ByteArray.size_extract, Nat.sub_zero]
  unfold WireFormat.ofHeader
  by_cases hlt : (bytes.extract 0 Limits.headerBytes).size < Limits.headerBytes
  · rw [if_pos hlt]
    simp only [reduceCtorEq, false_iff, not_and]
    omega
  · have hle : Limits.headerBytes ≤ bytes.size := by omega
    have hmarker : (bytes.extract 0 Limits.headerBytes).extract Limits.macBytes
        (Limits.macBytes + Limits.versionBytes) = bytes.extract 32 34 := by
      rw [ByteArray.extract_extract]
      rfl
    rw [if_neg hlt, hmarker, hv]
    simp only [hle, true_and]
    cases format with
    | message => exact absurd rfl hf
    | framed => exact ⟨fun h => by cases h; rfl, by rintro rfl; rfl⟩
    | chained => exact ⟨fun h => by cases h; rfl, by rintro rfl; rfl⟩

/-- The two bytes after the tag of a block tell its format. -/
theorem WireBlock.readLE_version (format : WireFormat) (b : WireBlock) (after : ByteArray) :
    readLE ((b.toByteArray format ++ after).extract 32 34) = format.version := by
  have hb : b.toByteArray format ++ after = b.tag.data
      ++ (writeLE Limits.versionBytes format.version ++ (writeLE Limits.sizeBytes b.payload.size
        ++ writeLE Limits.flagsBytes b.flags ++ b.payload ++ after)) := by
    simp only [toByteArray, header, signed, ByteArray.append_assoc]
  have hversion : (b.toByteArray format ++ after).extract b.tag.data.size
      (b.tag.data.size + Limits.versionBytes) = writeLE Limits.versionBytes format.version := by
    rw [hb]
    exact FieldReader.extract_passed (size_writeLE _ _)
  rw [b.tag.size_data] at hversion
  exact (congrArg readLE hversion).trans (readLE_writeLE (by cases format <;> decide))

/-- The size and the flags in a header. -/
theorem WireBlock.readLE_header {b : WireBlock} (hb : b.InRange .chained) :
    readLE ((b.header .chained).extract 34 37) = b.payload.size ∧
      readLE ((b.header .chained).extract 37 38) = b.flags := by
  have hmax : Limits.payloadMax < 256 ^ Limits.sizeBytes := by decide
  have hbefore : (b.tag.data ++ writeLE Limits.versionBytes WireFormat.chained.version).size
      = 34 := by
    rw [ByteArray.size_append, b.tag.size_data, size_writeLE]
    rfl
  have hheader : b.header .chained
      = b.tag.data ++ writeLE Limits.versionBytes WireFormat.chained.version
        ++ (writeLE Limits.sizeBytes b.payload.size ++ writeLE Limits.flagsBytes b.flags) := by
    simp only [header, signed, ByteArray.append_assoc]
  generalize b.tag.data ++ writeLE Limits.versionBytes WireFormat.chained.version = before at *
  constructor
  · have hsize : (b.header .chained).extract before.size (before.size + Limits.sizeBytes)
        = writeLE Limits.sizeBytes b.payload.size := by
      rw [hheader]
      exact FieldReader.extract_passed (size_writeLE _ _)
    rw [hbefore] at hsize
    exact (congrArg readLE hsize).trans (readLE_writeLE (by have := hb.size_mem.2; omega))
  · have hsum : (before ++ writeLE Limits.sizeBytes b.payload.size).size = 37 := by
      rw [ByteArray.size_append, hbefore, size_writeLE]
      rfl
    have hflags : (b.header .chained).extract 37 38 = writeLE Limits.flagsBytes b.flags := by
      rw [hheader, ← ByteArray.append_assoc]
      refine extract_append_right hsum ?_
      rw [ByteArray.size_append, hsum, size_writeLE]
      rfl
    rw [hflags]
    refine readLE_writeLE ?_
    unfold flags
    split <;> decide

/-- The size of a block stands at a fixed place of its bytes. -/
theorem WireBlock.InRange.readLE_size {b : WireBlock} (hb : b.InRange .chained)
    (after : ByteArray) :
    readLE ((b.toByteArray .chained ++ after).extract 34 37) = b.payload.size := by
  have hheader : (b.toByteArray .chained ++ after).extract 34 37
      = (b.header .chained).extract 34 37 := by
    rw [toByteArray, ByteArray.append_assoc]
    refine extract_append_of_le ?_
    rw [size_header]
    decide
  rw [hheader]
  exact (readLE_header hb).1

theorem WireBlock.ofHeader_toByteArray {format : WireFormat} (hf : format ≠ .message)
    (b : WireBlock) (after : ByteArray) :
    WireFormat.ofHeader ((b.toByteArray format ++ after).extract 0 Limits.headerBytes)
      = .ok format := by
  refine (WireFormat.ofHeader_eq_ok hf (b.readLE_version format after)).2 ⟨?_, rfl⟩
  rw [ByteArray.size_append, size_toByteArray]
  omega

end SealedStream
