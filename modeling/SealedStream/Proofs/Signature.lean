import SealedStream.Proofs.Decryptor
import SealedStream.Proofs.Encryptor

/-!
# What tags are computed from

The key and the bytes of each tag (`Signature`): those that a session computes while it encrypts
(`passSignatures`), and the next that a session looks at while it decrypts
(`Decryptor.nextSignature`).  The bytes that a block tag covers are unambiguous
(`WireBlock.covered_inj`): they determine the block but for its tag, and the tag of the block
before.
-/

namespace SealedStream

attribute [local instance (2000)] instPowNat

/-- What a tag is computed from: a key, and the bytes that the tag covers. -/
inductive Signature
  /-- The tag of a block. -/
  | block (key : Key) (covered : ByteArray)
  /-- The tag of a message. -/
  | message (key : Key) (covered : ByteArray)

/-- The tag itself. -/
def Signature.tag : Signature → Bytes 32
  | block key covered => Blake2b.keyedHash key covered
  | message key covered => hmacSha256 key.data covered

/-! ### Encryption -/

namespace Block

/-- The tag of a block. -/
def tag (b : Block) : ByteArray :=
  b.header.extract 0 Limits.macBytes

/-- What the tag of a block covers, after a block whose tag is `previous`. -/
def covered (b : Block) (previous : ByteArray) : ByteArray :=
  b.header.extract Limits.macBytes b.header.size ++ b.associated ++ b.text ++ previous

end Block

/-- What the tags of blocks in a row are computed from, each of which covers the one before. -/
def chainSignatures (key : Key) : (previous : ByteArray) → List Block → List Signature
  | _, [] => []
  | previous, b :: bs => .block key (b.covered previous) :: chainSignatures key b.tag bs

/-- What the tags of the blocks of a pass are computed from.  The key depends on the salt in the
head, which follows no block. -/
def passSignatures (credential : Credential) : List Block → List Signature
  | [] => []
  | b :: bs =>
    match AssociatedData.decodeHead b.associated with
    | .ok ({ salt := some salt, .. }, _) =>
      chainSignatures (credential.signingKey salt) .empty (b :: bs)
    | _ => []

/-! ### Decryption -/

namespace Frame

/-- The tag of a frame with `n` bytes of associated data, and what it should be computed from. -/
def signature (frame : Frame) (n : Nat) (key : Key) (previous : ByteArray) :
    Except Fault (Bytes 32 × Signature) := do
  let (associated, text) ← splitPayload frame.payload n
  return (frame.fields.tag, .block key
    (frame.header.extract Limits.macBytes frame.header.size ++ associated ++ text ++ previous))

/-- The tag of a frame, as the head of a pass. -/
def headSignature (frame : Frame) (credential : Credential) :
    Except Fault (Bytes 32 × Signature) := do
  let (data, n) ← AssociatedData.decodeHead frame.payload
  match data.salt with
  | some salt => frame.signature n (credential.signingKey salt) .empty
  | none => throw (.malformedField "additional data" "block0 fields missing")

/-- The tag of a frame, as a further block. -/
def furtherSignature (frame : Frame) (key : Key) (previous : ByteArray) :
    Except Fault (Bytes 32 × Signature) := do
  let (_, n) ← AssociatedData.decodeFurther frame.payload
  frame.signature n key previous

end Frame

/-- The tag of a message that is neither too short nor too long.  Of another, none is looked at. -/
def Message.signature (message : ByteArray) (credential : Credential) :
    Except Fault (Bytes 32 × Signature) := do
  if message.size < Limits.payloadMin then
    throw (.malformedField "size" s!"{message.size} bytes is below {Limits.payloadMin}")
  let size := message.size - Limits.headerBytes
  if Limits.payloadMax < size then throw (.sizeMismatch "message" Limits.payloadMax size)
  let fields ← (readFields.run { bytes := message }).1
  return (fields.tag, .message (credential.signingKey fields.salt)
    (message.extract Limits.macBytes fields.textStart
      ++ message.extract fields.textStart message.size))

namespace Decryptor

/-- The bytes that a session has not taken yet.  At its start it holds the first header. -/
def ahead (d : Decryptor) (w : World) : ByteArray :=
  (if d.stage = .initialized then d.header.getD .empty else .empty) ++ (d.reader.buffer ++ w.bytes)

/-- The tag of the next block, and what it should be computed from, if a block can be made out. -/
def nextSignature (d : Decryptor) (w : World) : Except Fault (Bytes 32 × Signature) :=
  match d.stage, d.format with
  | .initialized, .message => Message.signature (d.ahead w) d.credential
  | .initialized, format => do (← Frame.ofBytes format (d.ahead w)).headSignature d.credential
  | .headDone, .message => throw (.stageViolation d.stage "decrypt blockN of a message")
  | .headDone, format => do
    let frame ← Frame.ofBytes format (d.ahead w)
    match d.keys with
    | some keys =>
      let previous := if format.isChained then d.lastTag.elim .empty Bytes.data else .empty
      frame.furtherSignature keys.signing previous
    | none => throw (.stageViolation d.stage "decrypt blockN without keys")
  | stage, _ => throw (.stageViolation stage "decrypt blockN")

/-- The tag of the next block is the one it should be: that of `signature`. -/
def Verifies (d : Decryptor) (w : World) (signature : Signature) : Prop :=
  d.nextSignature w = .ok (signature.tag, signature)

end Decryptor

/-! ### Tags that verify -/

section verifies

variable {d : Decryptor} {w : World} {after : ByteArray} {b : WireBlock}

/-- The tag of a block, if its payload is cut where it should be. -/
theorem WireBlock.signature_frame {format : WireFormat} {a : ByteArray} {key : Key}
    {previous : ByteArray} (ha : b.associated = a) (ht : b.text ≠ .empty)
    (hs : b.Signed format key previous) :
    (b.frame format after).signature a.size key previous
      = .ok ((Signature.block key (b.covered format previous)).tag,
        .block key (b.covered format previous)) := by
  subst ha
  refine bind_eq_ok.2 ⟨(b.associated, b.text), splitPayload_eq_ok.2 ⟨ht, rfl, rfl⟩, ?_⟩
  show Except.ok (b.tag, Signature.block key ((b.header format).extract _ (b.header format).size
    ++ b.associated ++ b.text ++ previous)) = _
  rw [hs, b.extract_header]
  rfl

namespace Decryptor

theorem verifies_of_isHead (hstage : d.stage = .initialized) (hf : d.format ≠ .message)
    {h : HeadData} (hahead : d.ahead w = b.toByteArray d.format ++ after)
    (hb : IsHead d.format d.credential h b) :
    d.Verifies w (.block (d.credential.signingKey h.salt) (b.covered d.format .empty)) := by
  have hnext : d.nextSignature w
      = (do (← Frame.ofBytes d.format (d.ahead w)).headSignature d.credential) := by
    rw [nextSignature, hstage]
    cases hformat : d.format with
    | message => exact absurd hformat hf
    | framed => rfl
    | chained => rfl
  have hdecode : AssociatedData.decodeHead b.payload = .ok (h.data, h.toByteArray.size) :=
    AssociatedData.decodeHead_eq_ok.2
      ⟨h, b.text, by rw [WireBlock.payload, hb.associated], rfl, rfl⟩
  rw [Verifies, hnext, hahead]
  exact bind_eq_ok.2 ⟨_, Frame.ofBytes_toByteArray hf hb.inRange after,
    bind_eq_ok.2 ⟨_, hdecode, WireBlock.signature_frame hb.associated hb.text_ne hb.signed⟩⟩

theorem verifies_of_isFurther (hstage : d.stage = .headDone) (hf : d.format ≠ .message)
    {keys : PassKeys} {tag : Bytes 32} (hkeys : d.keys = some keys) (htag : d.lastTag = some tag)
    {f : FurtherData} (hahead : d.ahead w = b.toByteArray d.format ++ after)
    (hb : IsFurther d.format keys.signing (d.format.previous tag) f b) :
    d.Verifies w (.block keys.signing (b.covered d.format (d.format.previous tag))) := by
  have hnext : d.nextSignature w = (do
      (← Frame.ofBytes d.format (d.ahead w)).furtherSignature keys.signing
        (d.format.previous tag)) := by
    rw [nextSignature, hstage, hkeys, htag]
    cases hformat : d.format with
    | message => exact absurd hformat hf
    | framed => rfl
    | chained => rfl
  have hdecode : AssociatedData.decodeFurther b.payload = .ok (f.data, f.toByteArray.size) :=
    AssociatedData.decodeFurther_eq_ok.2
      ⟨f, b.text, by rw [WireBlock.payload, hb.associated], rfl, rfl⟩
  rw [Verifies, hnext, hahead]
  exact bind_eq_ok.2 ⟨_, Frame.ofBytes_toByteArray hf hb.inRange after,
    bind_eq_ok.2 ⟨_, hdecode, WireBlock.signature_frame hb.associated hb.text_ne hb.signed⟩⟩

theorem exists_verifies_message (hstage : d.stage = .initialized) (hf : d.format = .message)
    {head : VerifiedHead} (h : headOf .message d.credential (d.ahead w) = .ok (head, after)) :
    ∃ key covered, d.Verifies w (.message key covered) := by
  obtain ⟨_, hverify, h1⟩ := bind_eq_ok.1 h
  obtain ⟨hmax, -⟩ := unless_eq_ok.1 h1
  obtain ⟨hmin, h2⟩ := unless_eq_ok.1 hverify
  obtain ⟨fields, hfields, h3⟩ := bind_eq_ok.1 h2
  obtain ⟨_, htag, -⟩ := bind_eq_ok.1 h3
  refine ⟨d.credential.signingKey fields.salt,
    (d.ahead w).extract Limits.macBytes fields.textStart
      ++ (d.ahead w).extract fields.textStart (d.ahead w).size, ?_⟩
  rw [Verifies, nextSignature, hstage, hf]
  refine unless_eq_ok.2 ⟨hmin, unless_eq_ok.2 ⟨hmax, bind_eq_ok.2 ⟨fields, hfields, ?_⟩⟩⟩
  rw [verifyTag_eq_ok.1 htag]
  rfl

end Decryptor

end verifies

/-! ### Unambiguous bytes -/

namespace WireBlock

/-- **The bytes that a tag covers are unambiguous.**  The version and the sizes tell where each part
ends. -/
theorem covered_inj {format format' : WireFormat} {b c : WireBlock} {p q : ByteArray}
    (hb : b.InRange format) (hc : c.InRange format')
    (h : b.covered format p = c.covered format' q) :
    format = format' ∧ b.payload = c.payload ∧ b.terminal = c.terminal ∧ p = q := by
  have hassoc : ∀ (f : WireFormat) (b : WireBlock) (p : ByteArray),
      b.covered f p = b.signed f ++ (b.payload ++ p) := by
    intro f b p
    rw [covered, payload]
    simp only [ByteArray.append_assoc]
  rw [hassoc, hassoc] at h
  obtain ⟨hsigned, hrest⟩ := append_inj h (by rw [size_signed, size_signed])
  obtain ⟨h1, hflags⟩ := append_inj hsigned (by simp only [ByteArray.size_append, size_writeLE])
  obtain ⟨hversion, hsize⟩ := append_inj h1 (by simp only [size_writeLE])
  -- The sizes are in range, so that their three bytes tell them.
  have hsize' : b.payload.size = c.payload.size := by
    have hr := congrArg readLE hsize
    have hmax : Limits.payloadMax < 256 ^ Limits.sizeBytes := by decide
    rwa [readLE_writeLE (Nat.lt_of_le_of_lt hb.size_mem.2 hmax),
      readLE_writeLE (Nat.lt_of_le_of_lt hc.size_mem.2 hmax)] at hr
  obtain ⟨hpayload, hprevious⟩ := append_inj hrest hsize'
  refine ⟨?_, hpayload, ?_, hprevious⟩
  · have hr := congrArg readLE hversion
    rw [readLE_writeLE (by cases format <;> decide), readLE_writeLE (by cases format' <;> decide)]
      at hr
    revert hr
    cases format <;> cases format' <;> decide
  · have hr := congrArg readLE hflags
    have hlt : ∀ b : WireBlock, b.flags < 256 ^ Limits.flagsBytes := by
      intro b
      unfold flags
      cases b.terminal <;> decide
    rw [readLE_writeLE (hlt b), readLE_writeLE (hlt c)] at hr
    revert hr
    unfold flags
    cases b.terminal <;> cases c.terminal <;> decide

end WireBlock

end SealedStream
