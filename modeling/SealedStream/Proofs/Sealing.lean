import SealedStream.Encryptor
import SealedStream.Proofs.Opening
import SealedStream.Proofs.Text.Utf8

/-!
# What sealing makes

Sealing never fails on a chunk of the sizes that encryptors read, and what it makes is a block of
the chained format that opens again: its header is in range, its tag is that of the block, and its
text opens to the chunk under the cipher key (`exists_sealBlock`).  With a chunk of any other size,
sealing makes such a block or fails (`exists_block_of_sealBlock`).  Of a hint that is too long, what
is kept still fits (`exists_sealHint`).
-/

namespace SealedStream

/-! ### The header -/

section header

open FieldWriter

theorem writesWhen_signedHeader (n : Nat) (terminal : Bool) :
    WritesWhen (Limits.payloadMin ≤ n ∧ n ≤ Limits.payloadMax) (writeSignedHeader n terminal)
      (writeLE Limits.versionBytes Limits.version5 ++ (writeLE Limits.sizeBytes n
        ++ writeLE Limits.flagsBytes (if terminal then Limits.flagTerminal else 0))) := by
  refine ((writesWhen_version Limits.version5).bind ((writesWhen_size n).bind
    (writesWhen_flags (if terminal then Limits.flagTerminal else 0)))).congr ?_
  have hversion : Limits.version5 ∈ [Limits.version1, Limits.version4, Limits.version5] := by
    decide
  have hflags : (if terminal then Limits.flagTerminal else 0) ≤ Limits.flagTerminal := by
    cases terminal <;> decide
  rw [and_iff_right hversion, and_iff_left hflags]

theorem writes_signedHeader {n : Nat} (h : Limits.payloadMin ≤ n ∧ n ≤ Limits.payloadMax)
    (terminal : Bool) :
    Writes (writeSignedHeader n terminal)
      (writeLE Limits.versionBytes Limits.version5 ++ (writeLE Limits.sizeBytes n
        ++ writeLE Limits.flagsBytes (if terminal then Limits.flagTerminal else 0))) :=
  (writesWhen_signedHeader n terminal).writes h

/-- A tag is written over the zeros that were left for it. -/
theorem run_seek_mac (tag : Bytes 32) (rest : ByteArray) (n : Nat) :
    (do seek 0; mac tag.data : Writing Unit).run ⟨zeros 32 ++ rest, n⟩
      = (.ok ⟨⟩, between tag.data rest) := by
  have hseek : (seek 0).run ⟨zeros 32 ++ rest, n⟩
      = (.ok ⟨⟩, between .empty (zeros 32 ++ rest)) := by
    rw [between, ByteArray.empty_append]
    rfl
  have hmac := (writesWhen_mac tag.data).writes tag.size_data .empty (zeros 32) rest
    (by rw [size_zeros, tag.size_data])
  rw [ByteArray.empty_append] at hmac
  rw [run_bind_of_ok hseek, hmac]

end header

/-! ### Blocks -/

/-- A block as a session hands it out. -/
def WireBlock.block (b : WireBlock) (stage : Stage) : Block :=
  ⟨b.header .chained, b.associated, b.text, stage⟩

/-- The parts of a block. -/
def WireBlock.parts (b : WireBlock) : SealedParts :=
  ⟨b.header .chained, b.associated, b.text, b.tag⟩

theorem WireBlock.toByteArray_block (b : WireBlock) (stage : Stage) :
    (b.block stage).toByteArray = b.toByteArray .chained :=
  ByteArray.append_assoc

/-- **Sealing a chunk** makes a block that opens to it. -/
theorem exists_sealBlock (keys : PassKeys) (previous : ByteArray) (terminal : Bool)
    {data : AssociatedData} {associated clear : ByteArray} (hdata : data.encode = .ok associated)
    (hiv : data.iv.size = data.algorithm.ivBytes)
    (hsize : Limits.payloadMin ≤ associated.size + (clear.size + data.algorithm.tagBytes) ∧
      associated.size + (clear.size + data.algorithm.tagBytes) ≤ Limits.payloadMax) :
    ∃ b : WireBlock,
      sealBlock keys previous data clear terminal
        = .ok ⟨b.header .chained, b.associated, b.text, b.tag⟩ ∧
      b.associated = associated ∧ b.terminal = terminal ∧ b.InRange .chained ∧ b.text ≠ .empty ∧
      b.Signed .chained keys.signing previous ∧
      data.algorithm.decrypt keys.cipher data.iv b.text b.associated = .ok clear := by
  obtain ⟨text, hencrypt, htext, hdecrypt⟩ :=
    Algorithm.exists_encrypt keys.cipher associated hiv clear
  rw [← htext] at hsize
  -- The signed part is written behind zeros, and the tag over them when it has been computed.
  let signed := writeLE Limits.versionBytes Limits.version5
    ++ (writeLE Limits.sizeBytes (associated.size + text.size)
      ++ writeLE Limits.flagsBytes (if terminal then Limits.flagTerminal else 0))
  let tag := blockTag keys.signing signed associated text previous
  have hsigned : signed.size = 6 := by
    simp only [signed, ByteArray.size_append, size_writeLE]
    rfl
  have hwrite := writes_signedHeader hsize terminal (zeros 32) (zeros 6) .empty
    (by rw [size_zeros]; exact hsigned.symm)
  rw [ByteArray.append_empty, ← FieldWriter.ofSize_add_eq_between] at hwrite
  have hwrite' : (writeSignedHeader (associated.size + text.size) terminal).run
      (.ofSize Limits.headerBytes Limits.macBytes)
      = (.ok ⟨⟩, ⟨zeros 32 ++ signed, (zeros 32 ++ signed).size⟩) := by
    rw [FieldWriter.between, ByteArray.append_empty] at hwrite
    exact hwrite
  have hextract : (zeros 32 ++ signed).extract Limits.macBytes (zeros 32 ++ signed).size = signed :=
    extract_append_right (size_zeros 32) rfl
  let b : WireBlock := ⟨tag, terminal, associated, text⟩
  have hb : b.signed .chained = signed := by
    show _ ++ writeLE _ (associated ++ text).size ++ _ = signed
    rw [ByteArray.size_append, ByteArray.append_assoc]
    rfl
  have hpayload : b.payload.size = associated.size + text.size := ByteArray.size_append
  refine ⟨b, ?_, rfl, rfl, ⟨hpayload ▸ hsize, fun _ => rfl⟩, ?_, ?_, hdecrypt⟩
  · refine bind_eq_ok.2 ⟨associated, hdata, bind_eq_ok.2 ⟨text, hencrypt, ?_⟩⟩
    simp only [hwrite', hextract, run_seek_mac]
    rw [WireBlock.header, hb]
    rfl
  · exact Algorithm.ne_empty_of_decrypt hdecrypt
  · show tag = blockTag keys.signing (b.signed .chained) associated text previous
    rw [hb]

/-- What sealing a block writes and encrypts. -/
theorem encrypt_of_sealBlock {keys : PassKeys} {previous : ByteArray} {data : AssociatedData}
    {clear : ByteArray} {terminal : Bool} {parts : SealedParts}
    (h : sealBlock keys previous data clear terminal = .ok parts) :
    data.encode = .ok parts.associated ∧
      data.algorithm.encrypt keys.cipher data.iv clear parts.associated = .ok parts.text := by
  unfold sealBlock at h
  obtain ⟨associated, hdata, h⟩ := bind_eq_ok.1 h
  obtain ⟨text, hencrypt, h⟩ := bind_eq_ok.1 h
  -- How the header is written does not matter.
  split at h
  obtain ⟨-, -, h⟩ := bind_eq_ok.1 h
  dsimp only at h
  split at h
  obtain ⟨-, -, h⟩ := bind_eq_ok.1 h
  cases h
  exact ⟨hdata, hencrypt⟩

/-- Sealing succeeds only if the size of the payload can be written. -/
theorem size_mem_of_sealBlock {keys : PassKeys} {previous : ByteArray} {data : AssociatedData}
    {clear : ByteArray} {terminal : Bool} {parts : SealedParts}
    (h : sealBlock keys previous data clear terminal = .ok parts) :
    Limits.payloadMin ≤ parts.associated.size + parts.text.size ∧
      parts.associated.size + parts.text.size ≤ Limits.payloadMax := by
  unfold sealBlock at h
  obtain ⟨associated, -, h⟩ := bind_eq_ok.1 h
  obtain ⟨text, -, h⟩ := bind_eq_ok.1 h
  split at h
  next written w hrun =>
  obtain ⟨u, hwritten, h⟩ := bind_eq_ok.1 h
  rw [hwritten, show Limits.headerBytes = 32 + 6 from rfl, show Limits.macBytes = 32 from rfl,
    FieldWriter.ofSize_add_eq_between] at hrun
  have hsize := ((writesWhen_signedHeader _ terminal ..).1 hrun).1
  -- What is done with the header afterwards does not matter.
  dsimp only at h
  split at h
  obtain ⟨-, -, h⟩ := bind_eq_ok.1 h
  cases h
  exact hsize

/-- **What sealing has made** is a block in range, signed, with valid associated data. -/
theorem exists_block_of_sealBlock {keys : PassKeys} {previous : ByteArray} {data : AssociatedData}
    {clear : ByteArray} {terminal : Bool} {parts : SealedParts}
    (h : sealBlock keys previous data clear terminal = .ok parts) :
    ∃ b : WireBlock, parts = b.parts ∧ b.InRange .chained ∧
      b.Signed .chained keys.signing previous ∧ data.Valid ∧ b.associated = data.toByteArray := by
  obtain ⟨hencode, hencrypt⟩ := encrypt_of_sealBlock h
  obtain ⟨u, hvalidate, -⟩ := bind_eq_ok.1 hencode
  have hvalid := AssociatedData.validate_eq_ok.1 hvalidate
  obtain ⟨text, hencrypt', htext, -⟩ :=
    Algorithm.exists_encrypt keys.cipher parts.associated hvalid.size_iv clear
  obtain rfl : text = parts.text := Except.ok.inj (hencrypt'.symm.trans hencrypt)
  have hsize := size_mem_of_sealBlock h
  rw [htext] at hsize
  obtain ⟨b, hseal, hassociated, -, hrange, -, hsigned, -⟩ :=
    exists_sealBlock keys previous terminal hencode hvalid.size_iv hsize
  have hbytes := Except.ok.inj (hencode.symm.trans hvalid.encode_eq)
  exact ⟨b, Except.ok.inj (h.symm.trans hseal), hrange, hsigned, hvalid, hassociated.trans hbytes⟩

/-! ### Sizes of payloads -/

/-- A chunk of a session has room in a block. -/
theorem size_payload_le {associated chunk : ByteArray} {algorithm : Algorithm}
    (ha : associated.size ≤ Limits.associatedDataMax) (hchunk : chunk.size ≤ Limits.readMax) :
    associated.size + (chunk.size + algorithm.tagBytes) ≤ Limits.payloadMax := by
  have htag : algorithm.tagBytes ≤ Limits.tagMax := by cases algorithm <;> decide
  have hmax : Limits.associatedDataMax + (Limits.readMax + Limits.tagMax) ≤ Limits.payloadMax := by
    decide
  omega

theorem HeadData.size_toByteArray_le (h : HeadData) :
    h.toByteArray.size ≤ Limits.associatedDataMax := by
  have hiv : h.algorithm.ivBytes ≤ Limits.ivMax := by cases h.algorithm <;> decide
  have hmax : 24 + (Limits.ivMax + Limits.sealedHintMax) = Limits.associatedDataMax := rfl
  have hhint := h.size_sealedHint
  rw [h.size_toByteArray]
  omega

theorem Algorithm.le_ivBytes_add_tagBytes (a : Algorithm) : 28 ≤ a.ivBytes + a.tagBytes := by
  cases a <;> decide

theorem HeadData.payloadMin_le (h : HeadData) (n : Nat) :
    Limits.payloadMin ≤ h.toByteArray.size + (n + h.algorithm.tagBytes) := by
  have hmin : Limits.payloadMin = 31 := rfl
  have htag := h.algorithm.le_ivBytes_add_tagBytes
  rw [h.size_toByteArray]
  omega

theorem FurtherData.size_toByteArray_le (f : FurtherData) :
    f.toByteArray.size ≤ Limits.associatedDataMax := by
  have hiv : 2 + f.algorithm.ivBytes ≤ Limits.associatedDataMax := by
    cases f.algorithm <;> decide
  rw [f.size_toByteArray]
  exact hiv

theorem FurtherData.payloadMin_le (f : FurtherData) {clear : ByteArray} (h : clear ≠ .empty) :
    Limits.payloadMin ≤ f.toByteArray.size + (clear.size + f.algorithm.tagBytes) := by
  have hmin : Limits.payloadMin = 31 := rfl
  have htag := f.algorithm.le_ivBytes_add_tagBytes
  rw [ne_eq, ← ByteArray.size_eq_zero_iff] at h
  rw [f.size_toByteArray]
  omega

/-! ### Blocks of either framed format -/

/-- A head of a single pass, without a hint. -/
theorem HeadData.exists_single (credential : Credential) : ∃ h : HeadData, h.loop = ⟨1, 1⟩ ∧
    h.sealedHint = .empty ∧ h.openHint credential = .ok none :=
  ⟨⟨.aesGcm, zeros 12, .zeros 16, Limits.iterationsDefault, ⟨1, 1⟩, .empty, by decide, by decide,
    by decide, by decide⟩, rfl, rfl, rfl⟩

/-- **A head can be made** for every chunk, in either framed format: its tag is
computed when all else is there. -/
theorem exists_isHead {format : WireFormat} (hf : format ≠ .message) (credential : Credential)
    (h : HeadData) (key : Key) {chunk : ByteArray} (hchunk : chunk.size ≤ Limits.readMax) :
    ∃ b : WireBlock, IsHead format credential h b ∧ b.terminal = format.requiresTerminal ∧
      h.algorithm.decrypt key h.iv b.text b.associated = .ok chunk := by
  obtain ⟨text, -, htext, hdecrypt⟩ :=
    Algorithm.exists_encrypt key h.toByteArray h.size_iv chunk
  let b : WireBlock := ⟨.zeros 32, format.requiresTerminal, h.toByteArray, text⟩
  refine ⟨b.sign format (credential.signingKey h.salt) .empty, ⟨⟨?_, fun hterminal => ?_⟩, rfl,
    Algorithm.ne_empty_of_decrypt hdecrypt, b.signed_sign ..⟩, rfl, hdecrypt⟩
  · show Limits.payloadMin ≤ (h.toByteArray ++ text).size ∧ (h.toByteArray ++ text).size ≤ _
    rw [ByteArray.size_append, htext]
    exact ⟨h.payloadMin_le _, size_payload_le h.size_toByteArray_le hchunk⟩
  · cases format with
    | message => exact absurd rfl hf
    | framed => cases hterminal
    | chained => rfl

/-! ### Hints -/

/-- What is kept of a hint: as much as fits, and nothing of an empty one. -/
def keptHint (hint : String) : Option String :=
  if hint.isEmpty then none
  else some (String.ofList (Text.takeUtf8 Limits.hintMaxBytes hint.toList))

/-- **Sealing a hint** makes one that fits its field and opens to what is kept of it. -/
theorem exists_sealHint {algorithm : Algorithm} (key : Key) {iv : ByteArray}
    (hiv : iv.size = algorithm.ivBytes) (hint : String) :
    ∃ sealedHint, Encryptor.sealHint algorithm key iv hint = .ok sealedHint ∧
      sealedHint.size ≤ Limits.sealedHintMax ∧
      openHint algorithm key iv sealedHint = .ok (keptHint hint) := by
  unfold Encryptor.sealHint keptHint
  by_cases hempty : hint.isEmpty = true
  · rw [if_pos hempty, if_pos hempty]
    exact ⟨.empty, rfl, Nat.zero_le _, rfl⟩
  · rw [if_neg hempty, if_neg hempty]
    let kept := String.ofList (Text.takeUtf8 Limits.hintMaxBytes hint.toList)
    obtain ⟨text, hencrypt, hsize, hdecrypt⟩ :=
      Algorithm.exists_encrypt key .empty hiv kept.toUTF8
    have hkept : kept.toUTF8.size ≤ Limits.hintMaxBytes := by
      rw [String.toUTF8_eq_toByteArray, String.toByteArray_ofList]
      exact size_utf8Encode_takeUtf8 _ _
    have htag : 0 < algorithm.tagBytes ∧ algorithm.tagBytes ≤ Limits.tagMax := by
      cases algorithm <;> decide
    have hmax : Limits.hintMaxBytes + Limits.tagMax = Limits.sealedHintMax := rfl
    -- A sealed hint has at least its tag, so it does not read as none.
    have hne : ¬ text.isEmpty = true := by
      rw [isEmpty_iff, ← ByteArray.size_eq_zero_iff]
      omega
    refine ⟨text, hencrypt, by omega, ?_⟩
    unfold openHint
    rw [if_neg hne, hdecrypt]
    exact congrArg (Except.ok ∘ some) (decodeLossy_toUTF8 kept)

/-! ### The nonce of a head -/

theorem size_splitRandom (algorithm : Algorithm) (random : Bytes Limits.headRandomBytes) :
    (Encryptor.splitRandom algorithm random).2.size = algorithm.ivBytes := by
  show (random.data.extract _ _).size = _
  rw [ByteArray.size_extract, random.size_data]
  cases algorithm <;> rfl

end SealedStream
