import SealedStream.Message
import SealedStream.Proofs.Frame

/-!
# Messages on the wire

The one block of a stream of the first generation, and what reading and verifying it accepts.  Its
fields are those of a head, but for the loop index, in whose place a message has its version.

* `readFields_eq_ok`: the fields are read if the bytes are those of a message.
* `verify_eq_ok`: a message is believed if its tag covers it, and its hint opens.
-/

namespace SealedStream

attribute [local instance (2000)] instPowNat

open FieldReader

/-- The bytes of the fields of a message, in the order of the wire. -/
def HeadData.messageBytes (h : HeadData) : ByteArray :=
  writeLE Limits.algorithmBytes h.algorithm.id ++ h.iv ++ h.salt.data
    ++ writeLE Limits.iterationsBytes h.iterations
    ++ writeLE Limits.versionBytes Limits.version1
    ++ (writeLE Limits.hintLengthBytes h.sealedHint.size ++ h.sealedHint)

theorem HeadData.size_messageBytes (h : HeadData) :
    h.messageBytes.size = 25 + h.algorithm.ivBytes + h.sealedHint.size := by
  simp only [messageBytes, ByteArray.size_append, size_writeLE, h.salt.size_data, h.size_iv,
    Limits.algorithmBytes, Limits.iterationsBytes, Limits.versionBytes, Limits.hintLengthBytes]
  omega

/-- The bytes of a message. -/
def WireBlock.messageBytes (b : WireBlock) : ByteArray :=
  b.tag.data ++ b.payload

theorem WireBlock.size_messageBytes (b : WireBlock) :
    b.messageBytes.size = Limits.macBytes + b.payload.size := by
  rw [messageBytes, ByteArray.size_append, b.tag.size_data]
  rfl

/-- A block is a message with the fields `h`.  It knows of no other pass, and of no last block, and
its tag is the HMAC-SHA256 of all that is behind the tag. -/
structure IsMessage (credential : Credential) (h : HeadData) (b : WireBlock) : Prop where
  only : h.loop = ⟨1, 1⟩
  terminal : b.terminal = false
  associated : b.associated = h.messageBytes
  text_ne : b.text ≠ .empty
  signed : b.tag = hmacSha256 (credential.signingKey h.salt).data (b.associated ++ b.text)

namespace Message

variable {message : ByteArray} {credential : Credential}

/-- **Fields.**  A message is read to its end if it has the fields of one, and a text. -/
theorem readFields_eq_ok {fields : Fields} :
    (readFields.run { bytes := message }).1 = .ok fields ↔
      ∃ (tag : Bytes 32) (h : HeadData) (text : ByteArray), h.loop = ⟨1, 1⟩ ∧
        message = tag.data ++ (h.messageBytes ++ text) ∧ text ≠ .empty ∧
        fields = ⟨tag, h.algorithm, h.iv, h.salt, h.iterations, h.sealedHint,
          tag.data.size + h.messageBytes.size⟩ := by
  rw [start_eq_between, fst_run_eq_ok]
  simp only [readFields, run_bind_eq_ok, run_ite_eq_ok, run_throw_ne_ok, run_get_eq_ok,
    run_discard_eq_ok, false_and, and_false, exists_false, false_or, Decidable.not_not]
  constructor
  · rintro ⟨r, tag, _, ht, algorithm, _, ha, iv, _, hi, salt, _, hs, iterations, _, hn, version, _,
      hv, hversion, hint, _, hh, _, _, ⟨rfl, rfl⟩, _, _, ⟨text, hx⟩, hr⟩
    obtain ⟨_, rfl, rfl⟩ := run_mac_eq_ok.1 ht
    obtain ⟨_, rfl, rfl⟩ := run_readAlgorithm_eq_ok.1 ha
    obtain ⟨hiv, _, rfl, rfl⟩ := run_iv_eq_ok.1 hi
    obtain ⟨_, rfl, rfl⟩ := run_salt_eq_ok.1 hs
    obtain ⟨hiterations, _, rfl, rfl⟩ := run_iterations_eq_ok.1 hn
    obtain ⟨-, _, rfl, rfl⟩ := run_version_eq_ok.1 hv
    obtain ⟨hhint, after, rfl, rfl⟩ := run_hint_eq_ok.1 hh
    obtain ⟨hne, -, rfl⟩ := run_rest_eq_ok.1 hx
    obtain ⟨rfl, -⟩ := run_pure_eq_ok.1 hr
    subst hversion
    refine ⟨tag,
      ⟨algorithm, iv, salt, iterations, ⟨1, 1⟩, hint, hiv, hiterations, by decide, hhint⟩,
      after, rfl, ?_, hne, ?_⟩
    · simp only [HeadData.messageBytes, ByteArray.append_assoc]
    · simp only [HeadData.messageBytes, offset_between, ByteArray.empty_append,
        ByteArray.size_append, Nat.add_assoc]
  · rintro ⟨tag, h, text, -, rfl, hne, rfl⟩
    refine ⟨_, tag, _, run_mac_eq_ok.2 ⟨_, rfl, rfl⟩,
      h.algorithm, _, run_readAlgorithm_eq_ok.2 ⟨_, ?_, rfl⟩,
      h.iv, _, run_iv_eq_ok.2 ⟨h.size_iv, _, rfl, rfl⟩,
      h.salt, _, run_salt_eq_ok.2 ⟨_, rfl, rfl⟩,
      h.iterations, _, run_iterations_eq_ok.2 ⟨h.iterations_mem, _, rfl, rfl⟩,
      Limits.version1, _, run_version_eq_ok.2 ⟨List.mem_cons_self, _, rfl, rfl⟩, rfl,
      h.sealedHint, _, run_hint_eq_ok.2 ⟨h.size_sealedHint, text, rfl, rfl⟩,
      _, _, ⟨rfl, rfl⟩, ⟨⟩, _, ⟨text, run_rest_eq_ok.2 ⟨hne, rfl, rfl⟩⟩,
      run_pure_eq_ok.2 ⟨?_, rfl⟩⟩
    · simp only [HeadData.messageBytes, ByteArray.append_assoc]
    · simp only [HeadData.messageBytes, offset_between, ByteArray.empty_append,
        ByteArray.size_append, Nat.add_assoc]

/-- The fields of a message, and its text, are found again in its bytes. -/
theorem extract_parts (tag : Bytes 32) (fields text : ByteArray) :
    (tag.data ++ (fields ++ text)).extract Limits.macBytes (tag.data.size + fields.size) = fields ∧
      (tag.data ++ (fields ++ text)).extract (tag.data.size + fields.size)
        (tag.data ++ (fields ++ text)).size = text := by
  have hmac : Limits.macBytes = tag.data.size := tag.size_data.symm
  rw [hmac]
  constructor
  · exact extract_passed rfl
  · rw [← ByteArray.append_assoc]
    exact extract_append_right ByteArray.size_append rfl

/-- **Messages.**  A message is believed if the bytes are one, its tag covers it, and its hint
opens. -/
theorem verify_eq_ok {head : VerifiedHead} :
    verify message credential = .ok head ↔
      ∃ (b : WireBlock) (h : HeadData) (hint : Option String),
        message = b.messageBytes ∧ IsMessage credential h b ∧ h.openHint credential = .ok hint ∧
        head = ⟨h.info .message hint, credential.signingKey h.salt, b.tag, 0, b.associated,
          b.text⟩ := by
  unfold verify
  constructor
  · intro hok
    obtain ⟨-, h1⟩ := unless_eq_ok.1 hok
    obtain ⟨fields, hfields, h2⟩ := bind_eq_ok.1 h1
    obtain ⟨tag, h, text, honly, rfl, hne, rfl⟩ := readFields_eq_ok.1 hfields
    obtain ⟨ha, hx⟩ := extract_parts tag h.messageBytes text
    simp only [ha, hx] at h2
    obtain ⟨_, htag, h3⟩ := bind_eq_ok.1 h2
    obtain ⟨hint, hhint, h4⟩ := bind_eq_ok.1 h3
    cases h4
    refine ⟨⟨tag, false, h.messageBytes, text⟩, h, hint, rfl,
      ⟨honly, rfl, rfl, hne, verifyTag_eq_ok.1 htag⟩, hhint, ?_⟩
    rw [HeadData.info, honly]
    rfl
  · rintro ⟨⟨tag, terminal, associated, text⟩, h, hint, rfl,
      ⟨honly, -, rfl, hne, hsigned⟩, hhint, rfl⟩
    obtain ⟨ha, hx⟩ := extract_parts tag h.messageBytes text
    refine unless_eq_ok.2 ⟨?_, bind_eq_ok.2 ⟨_, readFields_eq_ok.2
      ⟨tag, h, text, honly, rfl, hne, rfl⟩, ?_⟩⟩
    · have hmin : Limits.payloadMin = 31 := rfl
      have hmac : Limits.macBytes = 32 := rfl
      rw [WireBlock.size_messageBytes]
      omega
    · simp only [WireBlock.messageBytes, WireBlock.payload, ha, hx]
      refine bind_eq_ok.2 ⟨⟨⟩, verifyTag_eq_ok.2 hsigned, bind_eq_ok.2 ⟨hint, hhint, ?_⟩⟩
      rw [HeadData.info, honly]
      rfl

end Message

/-- A message is told by its bytes. -/
theorem IsMessage.eq {credential : Credential} {b c : WireBlock} {h h' : HeadData}
    (hb : IsMessage credential h b) (hc : IsMessage credential h' c)
    (hbytes : b.messageBytes = c.messageBytes) : h = h' ∧ b = c := by
  obtain ⟨tag, _, _, text⟩ := b
  obtain ⟨tag', _, _, text'⟩ := c
  obtain ⟨honly, rfl, rfl, hne, -⟩ := hb
  obtain ⟨honly', rfl, rfl, hne', -⟩ := hc
  -- The same bytes are read as both.
  have hread := Message.readFields_eq_ok.2 ⟨tag, h, text, honly, rfl, hne, rfl⟩
  have hread' := Message.readFields_eq_ok.2 ⟨tag', h', text', honly', rfl, hne', rfl⟩
  have hbytes' : tag.data ++ (h.messageBytes ++ text) = tag'.data ++ (h'.messageBytes ++ text') :=
    hbytes
  rw [hbytes'] at hread
  obtain ⟨rfl, ha, hi, hs, hn, hx, -⟩ :=
    Message.Fields.mk.inj (Except.ok.inj (hread.symm.trans hread'))
  have hfields : h = h' := by
    obtain ⟨⟩ := h
    obtain ⟨⟩ := h'
    dsimp only at ha hi hs hn hx honly honly'
    subst ha hi hs hn hx honly honly'
    rfl
  subst hfields
  obtain rfl := (append_inj (append_inj hbytes' rfl).2 rfl).2
  exact ⟨rfl, rfl⟩

end SealedStream
