import SealedStream.Decryptor
import SealedStream.Proofs.Aead
import SealedStream.Proofs.Message

/-!
# What the bytes of a pass open to

Decryption without sessions: what the head of a pass and its further blocks open to is a function of
the bytes ahead, the keys, and the tag and flags of the block before (`headOf`,
`VerifiedHead.decrypt`, `nextOf`).  A session computes these functions step by step, however its
input is delivered; here they are compared with the grammar of the wire.

* `headOf_eq_ok`, `headOf_message_eq_ok`, `nextOf_eq_some`: a block opens if it is one (`IsHead`,
  `IsMessage`, `IsFurther`) and its text opens under the keys.
* `nextOf_eq_none`: a pass ends where its bytes do, if it may.
* `Unfolds`, `Gives`: what the blocks of a pass open to, all together, and how that ends.
-/

namespace SealedStream

/-! ### Opening without sessions -/

/-- The verified head at the front of the bytes of a pass, and what follows it.  Nothing follows a
message. -/
def headOf (format : WireFormat) (credential : Credential) (ahead : ByteArray) :
    Except Fault (VerifiedHead × ByteArray) :=
  match format with
  | .message => do
    let head ← Message.verify ahead credential
    let size := ahead.size - Limits.headerBytes
    if Limits.payloadMax < size then throw (.sizeMismatch "message" Limits.payloadMax size)
    return (head, .empty)
  | _ => do
    let frame ← Frame.ofBytes format ahead
    let head ← frame.fields.verifyHead format frame.header frame.payload credential
    return (head, frame.after)

/-- The keys of a pass and the clear text of its head, with the answer to the question for its
password. -/
def VerifiedHead.decrypt (head : VerifiedHead) (credential : Credential) (answer : Answer) :
    Except Fault (PassKeys × ByteArray) := do
  let info := head.info
  let derivation ←
    Derivation.ofPassword info.iterations answer.password credential info.salt.data
  let clear ← info.algorithm.decrypt derivation.key info.iv head.text head.associated
  return (⟨derivation.key, head.signingKey⟩, clear)

/-- A further block that has been opened, and what follows it. -/
structure OpenedBlock where
  tag : Bytes 32
  flags : Nat
  clear : ByteArray
  after : ByteArray
  deriving DecidableEq

/-- What the tag of a block covers besides the block, if the one before has the tag `tag`. -/
def WireFormat.previous (format : WireFormat) (tag : Bytes 32) : ByteArray :=
  if format.isChained then tag.data else .empty

/-- The block at the front of the bytes ahead, after one with the tag and flags given; none at the
end of a pass. -/
def nextOf (format : WireFormat) (keys : PassKeys) (tag : Bytes 32) (flags : Nat)
    (ahead : ByteArray) : Except Fault (Option OpenedBlock) :=
  if ahead.isEmpty then
    if format.requiresTerminal ∧ flags ≠ Limits.flagTerminal then .error .missingTerminal
    else .ok none
  else do
    let frame ← Frame.ofBytes format ahead
    let block ← frame.fields.verifyFurther frame.header frame.payload keys.signing
      (format.previous tag)
    if format.requiresTerminal ∧ flags = Limits.flagTerminal then throw .extraTerminal
    let clear ← block.algorithm.decrypt keys.cipher block.iv block.text block.associated
    return some ⟨block.tag, block.flags, clear, frame.after⟩

/-! ### Blocks of a pass -/

/-- A block is the head of a pass with the fields `h`. -/
structure IsHead (format : WireFormat) (credential : Credential) (h : HeadData) (b : WireBlock) :
    Prop where
  inRange : b.InRange format
  associated : b.associated = h.toByteArray
  text_ne : b.text ≠ .empty
  signed : b.Signed format (credential.signingKey h.salt) .empty

/-- A block is a further block of a pass with the fields `f`, after one that its tag covers as
`previous`. -/
structure IsFurther (format : WireFormat) (key : Key) (previous : ByteArray) (f : FurtherData)
    (b : WireBlock) : Prop where
  inRange : b.InRange format
  associated : b.associated = f.toByteArray
  text_ne : b.text ≠ .empty
  signed : b.Signed format key previous

theorem WireBlock.Signed.eq {format : WireFormat} {key : Key} {previous : ByteArray}
    {b c : WireBlock} (hb : b.Signed format key previous) (hc : c.Signed format key previous)
    (ha : b.associated = c.associated) (hx : b.text = c.text) (ht : b.terminal = c.terminal) :
    b = c := by
  have htag : b.tag = c.tag := by
    rw [hb, hc, WireBlock.covered_congr format ha hx ht]
  obtain ⟨⟩ := b
  obtain ⟨⟩ := c
  cases htag
  cases ht
  cases ha
  cases hx
  rfl

/-- A head is told by its payload and its flags. -/
theorem IsHead.eq {format : WireFormat} {credential : Credential} {b c : WireBlock}
    {h h' : HeadData} (hb : IsHead format credential h b) (hc : IsHead format credential h' c)
    (hp : b.payload = c.payload) (ht : b.terminal = c.terminal) : h = h' ∧ b = c := by
  rw [WireBlock.payload, WireBlock.payload, hb.associated, hc.associated] at hp
  obtain ⟨rfl, htext⟩ := AssociatedData.headData_inj hp
  exact ⟨rfl, hb.signed.eq hc.signed (hb.associated.trans hc.associated.symm) htext ht⟩

/-- A further block is told by its payload and its flags. -/
theorem IsFurther.eq {format : WireFormat} {key : Key} {previous : ByteArray} {b c : WireBlock}
    {f f' : FurtherData} (hb : IsFurther format key previous f b)
    (hc : IsFurther format key previous f' c) (hp : b.payload = c.payload)
    (ht : b.terminal = c.terminal) : f = f' ∧ b = c := by
  rw [WireBlock.payload, WireBlock.payload, hb.associated, hc.associated] at hp
  obtain ⟨rfl, htext⟩ := AssociatedData.furtherData_inj hp
  exact ⟨rfl, hb.signed.eq hc.signed (hb.associated.trans hc.associated.symm) htext ht⟩

/-- What verification makes of a head. -/
def WireBlock.verifiedHead (format : WireFormat) (credential : Credential) (h : HeadData)
    (hint : Option String) (b : WireBlock) : VerifiedHead :=
  ⟨h.info format hint, credential.signingKey h.salt, b.tag, b.flags, b.associated, b.text⟩

variable {format : WireFormat} {credential : Credential} {ahead after : ByteArray}

/-- The part of the header of a block after its tag. -/
theorem WireBlock.extract_header (format : WireFormat) (b : WireBlock) :
    (b.header format).extract Limits.macBytes (b.header format).size = b.signed format :=
  extract_append_right b.tag.size_data rfl

/-- A tag that is computed from the header of a frame signs the block of the frame. -/
theorem WireBlock.signed_iff {key : Key} {b : WireBlock} {associated text previous : ByteArray}
    (ha : b.associated = associated) (ht : b.text = text) :
    b.tag = blockTag key ((b.header format).extract Limits.macBytes (b.header format).size)
      associated text previous ↔ b.Signed format key previous := by
  subst ha ht
  rw [b.extract_header]
  rfl

/-- In the framed formats, the head is in the first frame. -/
theorem headOf_eq (hf : format ≠ .message) :
    headOf format credential ahead = (do
      let frame ← Frame.ofBytes format ahead
      let head ← frame.fields.verifyHead format frame.header frame.payload credential
      return (head, frame.after)) := by
  cases format with
  | message => exact absurd rfl hf
  | framed => rfl
  | chained => rfl

theorem headOf_append (hf : format ≠ .message) {header : ByteArray}
    (hh : header.size = Limits.headerBytes) (rest : ByteArray) :
    headOf format credential (header ++ rest) = (do
      let fields ← FrameHeader.parse format header
      if rest.size < fields.size then
        throw (.sizeMismatch "cipher data payload" fields.size rest.size)
      let head ← fields.verifyHead format header (rest.extract 0 fields.size) credential
      return (head, rest.extract fields.size rest.size)) := by
  rw [headOf_eq hf, Frame.bind_ofBytes_append hh]

theorem nextOf_append {keys : PassKeys} {tag : Bytes 32} {flags : Nat} {header : ByteArray}
    (hh : header.size = Limits.headerBytes) (rest : ByteArray) :
    nextOf format keys tag flags (header ++ rest) = (do
      let fields ← FrameHeader.parse format header
      if rest.size < fields.size then
        throw (.sizeMismatch "cipher data payload" fields.size rest.size)
      let block ← fields.verifyFurther header (rest.extract 0 fields.size) keys.signing
        (format.previous tag)
      if format.requiresTerminal ∧ flags = Limits.flagTerminal then throw .extraTerminal
      let clear ← block.algorithm.decrypt keys.cipher block.iv block.text block.associated
      return some ⟨block.tag, block.flags, clear, rest.extract fields.size rest.size⟩) := by
  have hne : ¬ (header ++ rest).isEmpty = true := by
    rw [isEmpty_iff, ← ByteArray.size_eq_zero_iff, ByteArray.size_append, hh]
    show ¬ 38 + rest.size = 0
    omega
  rw [nextOf, if_neg hne, Frame.bind_ofBytes_append hh]

/-- What is left in front of a cut in a block has too few bytes. -/
theorem exists_nextOf_of_cut (hf : format ≠ .message) {b : WireBlock} (hb : b.InRange format)
    {front back : ByteArray} (h : b.toByteArray format = front ++ back) (hfront : front ≠ .empty)
    (hback : back ≠ .empty) :
    ∃ what expected actual, ∀ keys tag flags,
      nextOf format keys tag flags front = .error (.sizeMismatch what expected actual) := by
  obtain ⟨what, expected, actual, hframe⟩ := Frame.ofBytes_of_cut hf hb h hback
  refine ⟨what, expected, actual, fun keys tag flags => ?_⟩
  rw [nextOf, if_neg fun h => hfront (isEmpty_iff.1 h), hframe]
  rfl

/-- **Heads.**  The bytes of a pass begin with a verified head exactly if they begin with a block
that is one, of which the hint opens. -/
theorem headOf_eq_ok (hf : format ≠ .message) {head : VerifiedHead} :
    headOf format credential ahead = .ok (head, after) ↔
      ∃ (b : WireBlock) (h : HeadData) (hint : Option String),
        ahead = b.toByteArray format ++ after ∧ IsHead format credential h b ∧
        h.openHint credential = .ok hint ∧ head = b.verifiedHead format credential h hint := by
  rw [headOf_eq hf]
  constructor
  · intro hok
    obtain ⟨frame, hframe, h1⟩ := bind_eq_ok.1 hok
    obtain ⟨head', hhead, h2⟩ := bind_eq_ok.1 h1
    cases h2
    obtain ⟨h, text, hint, hpayload, hne, htag, hhint, rfl⟩ :=
      FrameHeader.verifyHead_eq_ok.1 hhead
    obtain ⟨b, ha, ht, hrange, hb, hahead⟩ := Frame.exists_block_of_ofBytes hf hframe hpayload
    rw [hb] at htag ⊢
    refine ⟨b, h, hint, hahead, ⟨hrange, ha, ht ▸ hne, ?_⟩, hhint, ?_⟩
    · exact (WireBlock.signed_iff ha ht).1 htag
    rw [WireBlock.verifiedHead, ha, ht]
    rfl
  · rintro ⟨b, h, hint, rfl, hb, hhint, rfl⟩
    refine bind_eq_ok.2 ⟨_, Frame.ofBytes_toByteArray hf hb.inRange after, ?_⟩
    refine bind_eq_ok.2 ⟨b.verifiedHead format credential h hint, ?_, rfl⟩
    refine FrameHeader.verifyHead_eq_ok.2 ⟨h, b.text, hint, ?_, hb.text_ne, ?_, hhint, ?_⟩
    · show b.associated ++ b.text = _
      rw [hb.associated]
    · exact (WireBlock.signed_iff hb.associated rfl).2 hb.signed
    · rw [WireBlock.verifiedHead, hb.associated]
      rfl

/-- **Messages.**  The bytes of a pass are a verified message exactly if they are those of a block
that is one, not too long, of which the hint opens. -/
theorem headOf_message_eq_ok {head : VerifiedHead} :
    headOf .message credential ahead = .ok (head, after) ↔
      ∃ (b : WireBlock) (h : HeadData) (hint : Option String),
        ahead = b.messageBytes ∧ after = .empty ∧
        ahead.size ≤ Limits.headerBytes + Limits.payloadMax ∧ IsMessage credential h b ∧
        h.openHint credential = .ok hint ∧ head = b.verifiedHead .message credential h hint := by
  have hverified : ∀ (b : WireBlock) (h : HeadData) (hint : Option String),
      IsMessage credential h b → b.verifiedHead .message credential h hint
        = ⟨h.info .message hint, credential.signingKey h.salt, b.tag, 0, b.associated, b.text⟩ := by
    intro b h hint hb
    rw [WireBlock.verifiedHead, WireBlock.flags, hb.terminal]
    rfl
  constructor
  · intro hok
    obtain ⟨head', hverify, h1⟩ := bind_eq_ok.1 hok
    obtain ⟨hsize, h2⟩ := unless_eq_ok.1 h1
    cases h2
    obtain ⟨b, h, hint, hahead, hb, hhint, rfl⟩ := Message.verify_eq_ok.1 hverify
    exact ⟨b, h, hint, hahead, rfl, by omega, hb, hhint, (hverified b h hint hb).symm⟩
  · rintro ⟨b, h, hint, hahead, rfl, hsize, hb, hhint, rfl⟩
    refine bind_eq_ok.2 ⟨_, ?_, unless_eq_ok.2 ⟨by omega, rfl⟩⟩
    exact Message.verify_eq_ok.2 ⟨b, h, hint, hahead, hb, hhint, hverified b h hint hb⟩

/-- Nothing follows a message. -/
theorem eq_empty_of_headOf_message {head : VerifiedHead}
    (h : headOf .message credential ahead = .ok (head, after)) : after = .empty := by
  obtain ⟨-, -, -, -, hafter, -⟩ := headOf_message_eq_ok.1 h
  exact hafter

/-- A verified head comes from a block, whose fields it has, and takes more bytes than its text. -/
theorem exists_block_of_headOf {head : VerifiedHead}
    (h : headOf format credential ahead = .ok (head, after)) :
    ∃ (b : WireBlock) (f : HeadData) (hint : Option String),
      head = b.verifiedHead format credential f hint ∧
      b.text.size + after.size + 2 ≤ ahead.size := by
  have hmac : Limits.macBytes = 32 := rfl
  have hheader : Limits.headerBytes = 38 := rfl
  by_cases hf : format = .message
  · subst hf
    obtain ⟨b, f, hint, rfl, rfl, -, -, -, rfl⟩ := headOf_message_eq_ok.1 h
    refine ⟨b, f, hint, rfl, ?_⟩
    rw [b.size_messageBytes, WireBlock.payload, ByteArray.size_append, ByteArray.size_empty]
    omega
  · obtain ⟨b, f, hint, rfl, -, -, rfl⟩ := (headOf_eq_ok hf).1 h
    refine ⟨b, f, hint, rfl, ?_⟩
    rw [ByteArray.size_append, WireBlock.size_toByteArray, WireBlock.payload, ByteArray.size_append]
    omega

theorem size_lt_of_headOf {head : VerifiedHead}
    (h : headOf format credential ahead = .ok (head, after)) : after.size + 2 ≤ ahead.size := by
  obtain ⟨b, f, hint, -, hsize⟩ := exists_block_of_headOf h
  omega

/-- **The end.**  A pass ends where its bytes do, in the chained format only after a block that says
that it is the last. -/
theorem nextOf_eq_none {keys : PassKeys} {tag : Bytes 32} {flags : Nat} :
    nextOf format keys tag flags ahead = .ok none ↔
      ahead = .empty ∧ (format.requiresTerminal = true → flags = Limits.flagTerminal) := by
  unfold nextOf
  by_cases he : ahead.isEmpty = true
  · rw [if_pos he]
    rw [isEmpty_iff] at he
    by_cases ht : format.requiresTerminal = true ∧ flags ≠ Limits.flagTerminal
    · rw [if_pos ht]
      simp only [reduceCtorEq, false_iff, not_and]
      exact fun _ h => ht.2 (h ht.1)
    · rw [if_neg ht]
      simp only [true_iff]
      exact ⟨he, fun h => Decidable.byContradiction fun hn => ht ⟨h, hn⟩⟩
  · -- Where bytes are ahead, there is a block or a fault.
    rw [if_neg he]
    have hne : ahead ≠ .empty := fun h => he (isEmpty_iff.2 h)
    simp only [hne, false_and, iff_false]
    intro hok
    obtain ⟨frame, -, h1⟩ := bind_eq_ok.1 hok
    obtain ⟨block, -, h2⟩ := bind_eq_ok.1 h1
    obtain ⟨-, h3⟩ := unless_eq_ok.1 h2
    obtain ⟨clear, -, h4⟩ := bind_eq_ok.1 h3
    cases h4

/-- **Further blocks.**  The bytes ahead begin with a block that opens exactly if they begin with a
block that is one, none has said before that it is the last, and its text opens. -/
theorem nextOf_eq_some (hf : format ≠ .message) {keys : PassKeys} {tag : Bytes 32} {flags : Nat}
    {opened : OpenedBlock} :
    nextOf format keys tag flags ahead = .ok (some opened) ↔
      ∃ (b : WireBlock) (f : FurtherData), ahead = b.toByteArray format ++ opened.after ∧
        IsFurther format keys.signing (format.previous tag) f b ∧
        (format.requiresTerminal = true → flags ≠ Limits.flagTerminal) ∧
        f.algorithm.decrypt keys.cipher f.iv b.text b.associated = .ok opened.clear ∧
        opened.tag = b.tag ∧ opened.flags = b.flags := by
  unfold nextOf
  constructor
  · intro hok
    split at hok
    · split at hok <;> cases hok
    obtain ⟨frame, hframe, h1⟩ := bind_eq_ok.1 hok
    obtain ⟨block, hblock, h2⟩ := bind_eq_ok.1 h1
    obtain ⟨hlast, h3⟩ := unless_eq_ok.1 h2
    obtain ⟨clear, hclear, h4⟩ := bind_eq_ok.1 h3
    cases h4
    obtain ⟨f, text, hpayload, hne, htag, rfl⟩ := FrameHeader.verifyFurther_eq_ok.1 hblock
    obtain ⟨b, ha, ht, hrange, hb, hahead⟩ := Frame.exists_block_of_ofBytes hf hframe hpayload
    refine ⟨b, f, hahead, ⟨hrange, ha, ht ▸ hne, ?_⟩, fun h1 h2 => hlast ⟨h1, h2⟩, ?_, ?_, ?_⟩
    · rw [hb] at htag
      exact (WireBlock.signed_iff ha ht).1 htag
    · rw [ha, ht]
      exact hclear
    · show frame.fields.tag = b.tag
      rw [hb]
      rfl
    · show frame.fields.flags = b.flags
      rw [hb]
      rfl
  · rintro ⟨b, f, rfl, hb, hlast, hclear, htag, hflags⟩
    have hne : ¬ (b.toByteArray format ++ opened.after).isEmpty = true := by
      rw [isEmpty_iff, ← ByteArray.size_eq_zero_iff, ByteArray.size_append,
        WireBlock.size_toByteArray]
      show ¬ 38 + b.payload.size + opened.after.size = 0
      omega
    rw [if_neg hne]
    refine bind_eq_ok.2 ⟨_, Frame.ofBytes_toByteArray hf hb.inRange _, ?_⟩
    refine bind_eq_ok.2 ⟨⟨f.algorithm, f.iv, b.tag, b.flags, b.associated, b.text⟩, ?_, ?_⟩
    · refine FrameHeader.verifyFurther_eq_ok.2 ⟨f, b.text, ?_, hb.text_ne, ?_, ?_⟩
      · show b.associated ++ b.text = _
        rw [hb.associated]
      · exact (WireBlock.signed_iff hb.associated rfl).2 hb.signed
      · rw [hb.associated]
        rfl
    · refine unless_eq_ok.2 ⟨fun h => hlast h.1 h.2, bind_eq_ok.2 ⟨_, hclear, ?_⟩⟩
      rw [← htag, ← hflags]
      rfl

/-! ### Passwords -/

/-- How the password of a pass with the fields `h` is stretched. -/
def HeadData.derivation (h : HeadData) (credential : Credential) (password : String) : Derivation :=
  ⟨password.toUTF8 ++ credential.secret.data, h.salt, h.iterations⟩

/-- The keys of a pass with the fields `h`. -/
def HeadData.keys (h : HeadData) (credential : Credential) (password : String) : PassKeys :=
  ⟨(h.derivation credential password).key, credential.signingKey h.salt⟩

theorem checkSalt_data (salt : Bytes 16) : checkSalt salt.data = .ok salt := by
  rw [checkSalt, Bytes.ofByteArray?, dif_pos salt.size_data]

/-- With an iteration count in range, only an empty password is refused. -/
theorem Derivation.ofPassword_eq {iterations : Nat} (hi : IterationsInRange iterations)
    (password : String) (salt : Bytes 16) :
    Derivation.ofPassword iterations password credential salt.data =
      if password.isEmpty then .error .emptyPassword
      else .ok ⟨password.toUTF8 ++ credential.secret.data, salt, iterations⟩ := by
  rw [Derivation.ofPassword, (checkIterations_eq_ok (u := ⟨⟩)).2 hi, checkSalt_data]
  by_cases hp : password.isEmpty = true
  · rw [if_pos hp]
    show (ite _ _ _ : Except Fault Derivation) = _
    rw [if_pos hp]
    rfl
  · rw [if_neg hp]
    show (ite _ _ _ : Except Fault Derivation) = _
    rw [if_neg hp]
    rfl

/-- A password that is not empty is stretched. -/
theorem Derivation.ofPassword_eq_ok {iterations : Nat} (hi : IterationsInRange iterations)
    {password : String} {salt : Bytes 16} {d : Derivation} :
    Derivation.ofPassword iterations password credential salt.data = .ok d ↔
      password ≠ "" ∧ d = ⟨password.toUTF8 ++ credential.secret.data, salt, iterations⟩ := by
  rw [ofPassword_eq hi]
  by_cases hp : password.isEmpty = true
  · have hne : password = "" := String.isEmpty_iff.1 hp
    rw [if_pos hp]
    constructor
    · intro hok
      cases hok
    · intro hd
      exact absurd hne hd.1
  · have hne : password ≠ "" := fun he => hp (String.isEmpty_iff.2 he)
    rw [if_neg hp]
    constructor
    · intro hok
      cases hok
      exact ⟨hne, rfl⟩
    · rintro ⟨-, rfl⟩
      rfl

/-- **A verified head opens** under a password that is not empty, if its text opens under the cipher
key. -/
theorem decrypt_verifiedHead_eq_ok {h : HeadData} {b : WireBlock} {hint : Option String}
    {answer : Answer} {keys : PassKeys} {clear : ByteArray} :
    (b.verifiedHead format credential h hint).decrypt credential answer = .ok (keys, clear) ↔
      answer.password ≠ "" ∧ keys = h.keys credential answer.password ∧
        h.algorithm.decrypt keys.cipher h.iv b.text b.associated = .ok clear := by
  rw [VerifiedHead.decrypt]
  constructor
  · intro hok
    obtain ⟨d, hd, h1⟩ := bind_eq_ok.1 hok
    obtain ⟨clear', hclear, h2⟩ := bind_eq_ok.1 h1
    obtain ⟨hne, rfl⟩ := (Derivation.ofPassword_eq_ok h.iterations_mem).1 hd
    obtain ⟨rfl, rfl⟩ := Prod.mk.inj (Except.ok.inj h2)
    exact ⟨hne, rfl, hclear⟩
  · rintro ⟨hne, rfl, hclear⟩
    exact bind_eq_ok.2 ⟨_, (Derivation.ofPassword_eq_ok h.iterations_mem).2 ⟨hne, rfl⟩,
      bind_eq_ok.2 ⟨_, hclear, rfl⟩⟩

/-! ### All blocks of a pass -/

/-- The clear texts of the blocks ahead, and the fault that opening them ends with, if any. -/
inductive Unfolds (format : WireFormat) (keys : PassKeys) :
    Bytes 32 → Nat → ByteArray → List ByteArray → Option Fault → Prop
  | finished {tag : Bytes 32} {flags : Nat} {ahead : ByteArray} :
    nextOf format keys tag flags ahead = .ok none → Unfolds format keys tag flags ahead [] none
  | failed {tag : Bytes 32} {flags : Nat} {ahead : ByteArray} {fault : Fault} :
    nextOf format keys tag flags ahead = .error fault →
      Unfolds format keys tag flags ahead [] (some fault)
  | block {tag : Bytes 32} {flags : Nat} {ahead : ByteArray} {opened : OpenedBlock}
      {clears : List ByteArray} {fault : Option Fault} :
    nextOf format keys tag flags ahead = .ok (some opened) →
      Unfolds format keys opened.tag opened.flags opened.after clears fault →
      Unfolds format keys tag flags ahead (opened.clear :: clears) fault

section sizes

variable {keys : PassKeys} {tag : Bytes 32} {flags : Nat} {opened : OpenedBlock}

/-- No block follows a message. -/
theorem ne_message_of_nextOf (hm : format = .message → ahead = .empty)
    (h : nextOf format keys tag flags ahead = .ok (some opened)) : format ≠ .message := by
  intro hf
  have hend : nextOf format keys tag flags ahead = .ok none := by
    refine nextOf_eq_none.2 ⟨hm hf, fun hterminal => ?_⟩
    rw [hf] at hterminal
    cases hterminal
  rw [hend] at h
  cases h

/-- A further block takes more bytes than it gives. -/
theorem size_lt_of_nextOf (hf : format ≠ .message)
    (h : nextOf format keys tag flags ahead = .ok (some opened)) :
    opened.clear.size + opened.after.size + 2 ≤ ahead.size := by
  obtain ⟨b, f, rfl, -, -, hclear, -, -⟩ := (nextOf_eq_some hf).1 h
  have htext := Algorithm.size_of_decrypt hclear
  rw [ByteArray.size_append, WireBlock.size_toByteArray, WireBlock.payload, ByteArray.size_append]
  have h38 : Limits.headerBytes = 38 := rfl
  omega

/-- Blocks take at least as many bytes as they give. -/
theorem Unfolds.size_le {clears : List ByteArray} {outcome : Option Fault}
    (hm : format = .message → ahead = .empty)
    (h : Unfolds format keys tag flags ahead clears outcome) :
    (concat clears).size ≤ ahead.size := by
  induction h with
  | finished => exact Nat.zero_le _
  | failed => exact Nat.zero_le _
  | block hnext _ ih =>
    have hf := ne_message_of_nextOf hm hnext
    have hsize := size_lt_of_nextOf hf hnext
    have hrest := ih fun h => absurd h hf
    rw [concat_cons, ByteArray.size_append]
    omega

/-- There is always something that blocks give. -/
theorem exists_unfolds (hm : format = .message → ahead = .empty) (keys : PassKeys) (tag : Bytes 32)
    (flags : Nat) : ∃ clears outcome, Unfolds format keys tag flags ahead clears outcome := by
  -- Each block leaves fewer bytes ahead.
  generalize hn : ahead.size = n
  induction n using Nat.strongRecOn generalizing tag flags ahead with
  | ind n ih =>
    subst hn
    cases hnext : nextOf format keys tag flags ahead with
    | error fault => exact ⟨[], some fault, .failed hnext⟩
    | ok next =>
      cases next with
      | none => exact ⟨[], none, .finished hnext⟩
      | some opened =>
        have hf := ne_message_of_nextOf hm hnext
        have hsize := size_lt_of_nextOf hf hnext
        obtain ⟨clears, outcome, h⟩ := ih opened.after.size (by omega) (fun h => absurd h hf)
          opened.tag opened.flags rfl
        exact ⟨opened.clear :: clears, outcome, .block hnext h⟩

end sizes

/-! ### Whole passes -/

/-- The format, the verified head and what follows it, at the front of the bytes of a pass. -/
def beginOf (credential : Credential) (all : ByteArray) :
    Except Fault (WireFormat × VerifiedHead × ByteArray) := do
  let format ← WireFormat.ofHeader (all.extract 0 Limits.headerBytes)
  let (head, ahead) ← headOf format credential all
  return (format, head, ahead)

/-- What a verified head and the bytes behind it give, if its password is answered with `reply`:
some clear text, and then the end or a fault. -/
inductive Gives (format : WireFormat) (credential : Credential) (head : VerifiedHead)
    (ahead : ByteArray) (reply : Except Fault Answer) : ByteArray → Option Fault → Prop
  | refused {fault : Fault} : (reply >>= head.decrypt credential) = .error fault →
    Gives format credential head ahead reply .empty (some fault)
  | opened {keys : PassKeys} {first : ByteArray} {rest : List ByteArray} {outcome : Option Fault} :
    (reply >>= head.decrypt credential) = .ok (keys, first) →
      Unfolds format keys head.tag head.flags ahead rest outcome →
      Gives format credential head ahead reply (concat (first :: rest)) outcome

section whole

variable {head : VerifiedHead} {all clear : ByteArray} {reply : Except Fault Answer}
  {outcome : Option Fault}

theorem beginOf_eq_ok :
    beginOf credential all = .ok (format, head, ahead) ↔
      WireFormat.ofHeader (all.extract 0 Limits.headerBytes) = .ok format ∧
        headOf format credential all = .ok (head, ahead) := by
  constructor
  · intro h
    obtain ⟨format', hformat, h1⟩ := bind_eq_ok.1 h
    obtain ⟨⟨head', ahead'⟩, hhead, h2⟩ := bind_eq_ok.1 h1
    cases h2
    exact ⟨hformat, hhead⟩
  · rintro ⟨hformat, hhead⟩
    exact bind_eq_ok.2 ⟨format, hformat, bind_eq_ok.2 ⟨(head, ahead), hhead, rfl⟩⟩

/-- Nothing is ahead behind a message. -/
theorem eq_empty_of_headOf (h : headOf format credential all = .ok (head, ahead)) :
    format = .message → ahead = .empty := by
  rintro rfl
  exact eq_empty_of_headOf_message h

/-- A pass takes more bytes than it gives. -/
theorem Gives.size_lt (hok : headOf format credential all = .ok (head, ahead))
    (h : Gives format credential head ahead reply clear outcome) : clear.size < all.size := by
  obtain ⟨b, f, hint, rfl, hsize⟩ := exists_block_of_headOf hok
  cases h with
  | refused =>
    rw [ByteArray.size_empty]
    omega
  | opened hdecrypt hunfolds =>
    -- What is around the text of the head makes the difference: no text is shorter than what it
    -- opens to.
    have hle := hunfolds.size_le (eq_empty_of_headOf hok)
    obtain ⟨answer, -, hopen⟩ := bind_eq_ok.1 hdecrypt
    obtain ⟨-, -, hclear⟩ := decrypt_verifiedHead_eq_ok.1 hopen
    have htext := Algorithm.size_of_decrypt hclear
    rw [concat_cons, ByteArray.size_append]
    omega

theorem exists_gives (hok : headOf format credential all = .ok (head, ahead))
    (reply : Except Fault Answer) :
    ∃ clear outcome, Gives format credential head ahead reply clear outcome := by
  cases h : reply >>= head.decrypt credential with
  | error fault => exact ⟨.empty, some fault, .refused h⟩
  | ok opened =>
    obtain ⟨keys, first⟩ := opened
    obtain ⟨clears, outcome, hu⟩ :=
      exists_unfolds (eq_empty_of_headOf hok) keys head.tag head.flags
    exact ⟨_, outcome, .opened h hu⟩

end whole

end SealedStream
