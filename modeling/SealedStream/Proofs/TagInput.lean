import SealedStream.Proofs.Signature

/-!
# The bytes under a block tag

A block tag is computed from four strings put one behind another, with nothing in between
(`TagInput`): the header after the tag, the associated data, the text, and the tag of the block
before, if there is one.  Sessions put them together when they seal a block and when they verify one
(`TagInput.Arises`), whether or not its tag turns out to be right.

In each of these ways the strings are those of a block in range, so that the version and the size of
the payload can be read off the front (`WireBlock.covered_inj`).  What is left behind the payload is
a tag or nothing, which in the chained format tells the kind of block, and so where its associated
data ends.

* `TagInput.unambiguous`: the bytes under a tag tell what the tag is of.
* `TagInput.further_of_head`: in the framed format they do not tell the kind of block.
-/

namespace SealedStream

attribute [local instance (2000)] instPowNat

/-- The kinds of blocks of a pass. -/
inductive BlockKind
  | head
  | further
  deriving DecidableEq

/-- The associated data of a block of some kind. -/
def BlockKind.IsAssociated : BlockKind → ByteArray → Prop
  | .head, a => ∃ h : HeadData, a = h.toByteArray
  | .further, a => ∃ f : FurtherData, a = f.toByteArray

/-- The associated data of a block of a known kind ends where that kind says. -/
theorem BlockKind.IsAssociated.append_inj {kind : BlockKind} {a a' t t' : ByteArray}
    (ha : kind.IsAssociated a) (ha' : kind.IsAssociated a') (h : a ++ t = a' ++ t') :
    a = a' ∧ t = t' := by
  cases kind with
  | head =>
    obtain ⟨⟨_, rfl⟩, ⟨_, rfl⟩⟩ := And.intro ha ha'
    obtain ⟨rfl, ht⟩ := AssociatedData.headData_inj h
    exact ⟨rfl, ht⟩
  | further =>
    obtain ⟨⟨_, rfl⟩, ⟨_, rfl⟩⟩ := And.intro ha ha'
    obtain ⟨rfl, ht⟩ := AssociatedData.furtherData_inj h
    exact ⟨rfl, ht⟩

/-- What a block tag is computed from. -/
structure TagInput where
  /-- The header after the tag. -/
  signed : ByteArray
  associated : ByteArray
  text : ByteArray
  /-- The tag of the block before, or nothing. -/
  previous : ByteArray

namespace TagInput

/-- The bytes under the tag. -/
def toByteArray (i : TagInput) : ByteArray :=
  i.signed ++ i.associated ++ i.text ++ i.previous

/-- What the tag of a block with this header is computed from. -/
def ofHeader (header associated text previous : ByteArray) : TagInput :=
  ⟨header.extract Limits.macBytes header.size, associated, text, previous⟩

/-- How sessions come to compute the tag of a block, of some format and kind. -/
inductive Arises : WireFormat → BlockKind → TagInput → Prop
  /-- A head is sealed, which follows no block. -/
  | sealHead {keys : PassKeys} {algorithm : Algorithm} {iv : ByteArray} {salt : Bytes 16}
      {iterations : Nat} {loop : LoopIndex} {hint clear : ByteArray} {terminal : Bool}
      {parts : SealedParts}
      (sealed : sealBlock keys .empty ⟨algorithm, iv, salt, iterations, loop, hint⟩ clear terminal
        = .ok parts) :
      Arises .chained .head (ofHeader parts.header parts.associated parts.text .empty)
  /-- A further block is sealed, after one with the tag `previous`. -/
  | sealFurther {keys : PassKeys} {previous : Bytes 32} {algorithm : Algorithm} {iv : ByteArray}
      {clear : ByteArray} {terminal : Bool} {parts : SealedParts}
      (sealed : sealBlock keys previous.data { algorithm, iv } clear terminal = .ok parts) :
      Arises .chained .further (ofHeader parts.header parts.associated parts.text previous.data)
  /-- A head is received, and could be taken apart. -/
  | verifyHead {format : WireFormat} {header payload : ByteArray} {frame : FrameHeader}
      {data : AssociatedData} {n : Nat} {associated text : ByteArray}
      (framed : format ≠ .message) (size_header : header.size = Limits.headerBytes)
      (parse : FrameHeader.parse format header = .ok frame)
      (size_payload : payload.size = frame.size)
      (decode : AssociatedData.decodeHead payload = .ok (data, n))
      (split : splitPayload payload n = .ok (associated, text)) :
      Arises format .head (ofHeader header associated text .empty)
  /-- A further block is received, after one with the tag `previous`, and could be taken apart. -/
  | verifyFurther {format : WireFormat} {header payload : ByteArray} {frame : FrameHeader}
      {data : AssociatedData} {n : Nat} {associated text : ByteArray} (previous : Bytes 32)
      (framed : format ≠ .message) (size_header : header.size = Limits.headerBytes)
      (parse : FrameHeader.parse format header = .ok frame)
      (size_payload : payload.size = frame.size)
      (decode : AssociatedData.decodeFurther payload = .ok (data, n))
      (split : splitPayload payload n = .ok (associated, text)) :
      Arises format .further (ofHeader header associated text (format.previous previous))

/-! ### The tags -/

section tags

variable {format : WireFormat} {previous clear header payload : ByteArray}

/-- The tag of a sealed block. -/
theorem tag_of_sealBlock {keys : PassKeys} {data : AssociatedData} {terminal : Bool}
    {parts : SealedParts} (h : sealBlock keys previous data clear terminal = .ok parts) :
    parts.tag = Blake2b.keyedHash keys.signing
      (ofHeader parts.header parts.associated parts.text previous).toByteArray := by
  obtain ⟨b, rfl, -, hsigned, -⟩ := exists_block_of_sealBlock h
  have hinput : (ofHeader (b.header .chained) b.associated b.text previous).toByteArray
      = b.covered .chained previous := by
    rw [toByteArray, ofHeader, b.extract_header, WireBlock.covered]
  exact hsigned.trans (congrArg (Blake2b.keyedHash keys.signing) hinput.symm)

/-- The tag of a head that is accepted. -/
theorem tag_of_verifyHead {frame : FrameHeader} {credential : Credential} {head : VerifiedHead}
    (h : frame.verifyHead format header payload credential = .ok head) :
    frame.tag = Blake2b.keyedHash head.signingKey
      (ofHeader header head.associated head.text .empty).toByteArray := by
  obtain ⟨_, _, _, -, -, htag, -, rfl⟩ := FrameHeader.verifyHead_eq_ok.1 h
  exact htag

/-- The tag of a further block that is accepted. -/
theorem tag_of_verifyFurther {frame : FrameHeader} {key : Key} {block : VerifiedBlock}
    (h : frame.verifyFurther header payload key previous = .ok block) :
    frame.tag = Blake2b.keyedHash key
      (ofHeader header block.associated block.text previous).toByteArray := by
  obtain ⟨_, _, -, -, htag, rfl⟩ := FrameHeader.verifyFurther_eq_ok.1 h
  exact htag

end tags

/-! ### The block that a tag is of -/

/-- The four strings are those of a block of some format and kind. -/
structure IsOf (format : WireFormat) (kind : BlockKind) (i : TagInput) (b : WireBlock) : Prop where
  inRange : b.InRange format
  signed : i.signed = b.signed format
  associated : i.associated = b.associated
  text : i.text = b.text
  isAssociated : kind.IsAssociated b.associated
  size_previous :
    i.previous.size = if format = .chained ∧ kind = .further then Limits.macBytes else 0

variable {format format' : WireFormat} {kind kind' : BlockKind} {i i' : TagInput}

theorem IsOf.toByteArray_eq {b : WireBlock} (h : IsOf format kind i b) :
    i.toByteArray = b.covered format i.previous := by
  rw [toByteArray, h.signed, h.associated, h.text, WireBlock.covered]

/-- A block with its header. -/
theorem isOf_ofHeader {b : WireBlock} {previous : ByteArray} (hrange : b.InRange format)
    (hassociated : kind.IsAssociated b.associated)
    (hprevious : previous.size
      = if format = .chained ∧ kind = .further then Limits.macBytes else 0) :
    IsOf format kind (ofHeader (b.header format) b.associated b.text previous) b where
  inRange := hrange
  signed := b.extract_header format
  associated := rfl
  text := rfl
  isAssociated := hassociated
  size_previous := hprevious

/-- A received header and payload are those of a block, wherever the payload is cut. -/
theorem exists_block_of_parse (framed : format ≠ .message) {header associated text : ByteArray}
    {frame : FrameHeader} (size_header : header.size = Limits.headerBytes)
    (parse : FrameHeader.parse format header = .ok frame)
    (size_payload : (associated ++ text).size = frame.size) :
    ∃ b : WireBlock, b.InRange format ∧ b.header format = header ∧ b.associated = associated ∧
      b.text = text := by
  have hframe : Frame.ofBytes format (header ++ (associated ++ text ++ .empty))
      = .ok ⟨header, frame, associated ++ text, .empty⟩ :=
    Frame.ofBytes_eq_ok.2 ⟨size_header, parse, size_payload, rfl⟩
  obtain ⟨b, hassociated, htext, hrange, hb, -⟩ :=
    Frame.exists_block_of_ofBytes framed hframe rfl
  exact ⟨b, hrange, (congrArg Frame.header hb).symm, hassociated, htext⟩

/-- **What a tag is computed from** are the strings of a block, in each of the ways to come to
it. -/
theorem Arises.exists_block (h : Arises format kind i) : ∃ b, IsOf format kind i b := by
  cases h with
  | sealHead sealed =>
    obtain ⟨b, rfl, hrange, -, hvalid, hassociated⟩ := exists_block_of_sealBlock sealed
    obtain ⟨h, hh⟩ :=
      (AssociatedData.valid_and_isHeadData_iff _).1 ⟨hvalid, rfl, rfl, rfl, rfl⟩
    rw [hh, AssociatedData.toByteArray_headData] at hassociated
    exact ⟨b, isOf_ofHeader hrange ⟨h, hassociated⟩ rfl⟩
  | @sealFurther _ previous _ _ _ _ _ sealed =>
    obtain ⟨b, rfl, hrange, -, hvalid, hassociated⟩ := exists_block_of_sealBlock sealed
    obtain ⟨f, hf⟩ :=
      (AssociatedData.valid_and_isFurtherData_iff _).1 ⟨hvalid, rfl, rfl, rfl, rfl⟩
    rw [hf, AssociatedData.toByteArray_furtherData] at hassociated
    exact ⟨b, isOf_ofHeader hrange ⟨f, hassociated⟩ previous.size_data⟩
  | verifyHead framed size_header parse size_payload decode split =>
    obtain ⟨h, after, rfl, rfl, rfl⟩ := AssociatedData.decodeHead_eq_ok.1 decode
    obtain ⟨-, rfl, rfl⟩ := splitPayload_eq_ok.1 split
    obtain ⟨b, hrange, rfl, hassociated, rfl⟩ :=
      exists_block_of_parse framed size_header parse size_payload
    rw [← hassociated]
    exact ⟨b, isOf_ofHeader hrange ⟨h, hassociated⟩ (if_neg nofun).symm⟩
  | verifyFurther previous framed size_header parse size_payload decode split =>
    obtain ⟨f, after, rfl, rfl, rfl⟩ := AssociatedData.decodeFurther_eq_ok.1 decode
    obtain ⟨-, rfl, rfl⟩ := splitPayload_eq_ok.1 split
    obtain ⟨b, hrange, rfl, hassociated, rfl⟩ :=
      exists_block_of_parse framed size_header parse size_payload
    rw [← hassociated]
    refine ⟨b, isOf_ofHeader hrange ⟨f, hassociated⟩ ?_⟩
    -- Only a chained block covers the tag before it.
    cases format with
    | message => exact absurd rfl framed
    | framed => rfl
    | chained => exact previous.size_data

/-! ### Unambiguous bytes -/

/-- **The bytes under a tag are unambiguous.**  If two tags are computed from the same bytes, the
headers are the same but for the tags, and so are the payloads, the tags of the blocks before, and
the format.  In the chained format also the kind of block is the same, and the place where its
associated data ends. -/
theorem unambiguous (h : Arises format kind i) (h' : Arises format' kind' i')
    (heq : i.toByteArray = i'.toByteArray) :
    i.signed = i'.signed ∧ i.associated ++ i.text = i'.associated ++ i'.text ∧
      i.previous = i'.previous ∧ format = format' ∧
      (format = .chained →
        kind = kind' ∧ i.associated = i'.associated ∧ i.text = i'.text) := by
  obtain ⟨b, hb⟩ := h.exists_block
  obtain ⟨c, hc⟩ := h'.exists_block
  rw [hb.toByteArray_eq, hc.toByteArray_eq] at heq
  obtain ⟨rfl, hpayload, hterminal, hprevious⟩ :=
    WireBlock.covered_inj hb.inRange hc.inRange heq
  have hsigned : b.signed format = c.signed format := by
    simp only [WireBlock.signed, WireBlock.flags, hpayload, hterminal]
  have hcut : i.associated ++ i.text = i'.associated ++ i'.text := by
    rw [hb.associated, hb.text, hc.associated, hc.text]
    exact hpayload
  refine ⟨by rw [hb.signed, hc.signed, hsigned], hcut, hprevious, rfl, ?_⟩
  rintro rfl
  -- What follows the payload is a tag for one kind, and nothing for the other.
  obtain rfl : kind = kind' := by
    have hsize := hb.size_previous
    rw [hprevious, hc.size_previous] at hsize
    cases kind <;> cases kind' <;> first | rfl | cases hsize
  rw [hb.associated, hb.text, hc.associated, hc.text] at hcut ⊢
  exact ⟨rfl, hb.isAssociated.append_inj hc.isAssociated hcut⟩

/-- A head and a further block of the framed format with the same bytes under their tags: the
payload has 37 bytes, and is cut before its last one, or behind the nonce. -/
theorem unambiguous_framed :
    let header := zeros 32 ++ ofList [4, 0, 37, 0, 0, 0]
    let payload := ofList [1, 0] ++ zeros 28 ++ ofList [0xA0, 0x68, 6, 0, 0, 0, 0]
    let head := ofHeader header (payload.extract 0 36) (payload.extract 36 37) .empty
    let further := ofHeader header (payload.extract 0 14) (payload.extract 14 37) .empty
    Arises .framed .head head ∧ Arises .framed .further further ∧
      head.toByteArray = further.toByteArray ∧ head.signed = further.signed ∧
      head.associated ++ head.text = further.associated ++ further.text ∧
      head.previous = further.previous := by
  intro header payload head further
  have hparse : FrameHeader.parse .framed header = .ok ⟨.zeros 32, 37, 0⟩ := by decide +kernel
  have hdecode : AssociatedData.decodeHead payload
      = .ok (⟨.aesGcm, zeros 12, some (.zeros 16), some 420000, some ⟨1, 1⟩, some .empty⟩, 36) := by
    decide +kernel
  have hdecode' : AssociatedData.decodeFurther payload
      = .ok ({ algorithm := .aesGcm, iv := zeros 12 }, 14) := by
    decide +kernel
  have hhead : Arises .framed .head head :=
    .verifyHead nofun (by decide) hparse (by decide) hdecode (by decide +kernel)
  have hfurther : Arises .framed .further further :=
    .verifyFurther (.zeros 32) nofun (by decide) hparse (by decide) hdecode' (by decide +kernel)
  have heq : head.toByteArray = further.toByteArray := by decide +kernel
  obtain ⟨hsigned, hpayload, hprevious, -⟩ := unambiguous hhead hfurther heq
  exact ⟨hhead, hfurther, heq, hsigned, hpayload, hprevious⟩

/-- **In the framed format** the bytes under the tag of a head are also those of a further block,
whose associated data is the front of that of the head. -/
theorem further_of_head (h : Arises .framed .head i) :
    ∃ i', Arises .framed .further i' ∧ i'.toByteArray = i.toByteArray ∧
      i'.associated.size < i.associated.size := by
  cases h with
  | @verifyHead _ _ _ _ _ _ _ text framed size_header parse size_payload decode split =>
    obtain ⟨h, after, rfl, rfl, rfl⟩ := AssociatedData.decodeHead_eq_ok.1 decode
    obtain ⟨hne, rfl, rfl⟩ := splitPayload_eq_ok.1 split
    -- As a further block the payload is cut behind the nonce.
    let f : FurtherData := ⟨h.algorithm, h.iv, h.size_iv⟩
    obtain ⟨tail, htail⟩ : ∃ tail, h.toByteArray = f.toByteArray ++ tail := by
      refine ⟨h.salt.data ++ (writeLE Limits.iterationsBytes h.iterations ++ (ofList [h.loop.toByte]
        ++ (writeLE Limits.hintLengthBytes h.sealedHint.size ++ h.sealedHint))), ?_⟩
      simp only [HeadData.toByteArray, FurtherData.toByteArray, ByteArray.append_assoc, f]
    have hpayload : h.toByteArray ++ text = f.toByteArray ++ (tail ++ text) := by
      rw [htail, ByteArray.append_assoc]
    have hne' : tail ++ text ≠ .empty := by
      rw [ne_eq, ← ByteArray.size_eq_zero_iff] at hne ⊢
      rw [ByteArray.size_append]
      omega
    rw [hpayload] at size_payload
    refine ⟨_, .verifyFurther (.zeros 32) framed size_header parse size_payload
      (AssociatedData.decodeFurther_eq_ok.2 ⟨f, tail ++ text, rfl, rfl, rfl⟩)
      (splitPayload_eq_ok.2 ⟨hne', rfl, rfl⟩), ?_, ?_⟩
    · simp only [toByteArray, ofHeader, htail, ByteArray.append_assoc]
      rfl
    · show f.toByteArray.size < h.toByteArray.size
      rw [h.size_toByteArray, f.size_toByteArray]
      have halgorithm : f.algorithm = h.algorithm := rfl
      rw [halgorithm]
      omega

end TagInput

end SealedStream
