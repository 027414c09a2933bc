import SealedStream.Proofs.Release

/-!
# Which bytes are a message

Bytes whose first header has one of the numbers 1, 2 and 3 in the place of the version are of the
first generation: one message, the fields of which only its tag can vouch for.

* `decryptsMessage_iff`: a session comes to its end exactly if the bytes are a message that is
  neither too short nor too long, whose hint and text open; its only block is all of the clear text,
  and finding the end needs nothing from outside.
-/

namespace SealedStream

open Decryptor

variable {w : World} {credential : Credential} {clear : ByteArray}

/-- The input of a world is the message `b` with the fields `h` and the clear text `clear`: it has
the bytes of at least one header and of no more than one header and one payload, its tag covers it,
its hint opens, its password is answered and not empty, and its text opens under the cipher key. -/
structure World.HoldsMessage (w : World) (credential : Credential) (h : HeadData) (b : WireBlock)
    (hint : Option String) (answer : Answer) (clear : ByteArray) : Prop where
  bytes : w.bytes = b.messageBytes
  minSize : Limits.headerBytes ≤ w.bytes.size
  maxSize : w.bytes.size ≤ Limits.headerBytes + Limits.payloadMax
  message : IsMessage credential h b
  opensHint : h.openHint credential = .ok hint
  answered : w.provider (w.asked ++ [h.info .message hint]) = .ok answer
  password_ne : answer.password ≠ ""
  opens : h.algorithm.decrypt (h.derivation credential answer.password).key h.iv b.text b.associated
    = .ok clear

/-- The next step of a session is the first and gives all of the clear text, with the only question,
and the step behind it finds the end without a request: nothing more is read. -/
def Decryptor.OpensAlone (d : Decryptor) (v : World) (asked : List PassInfo) (info : PassInfo)
    (clear : ByteArray) : Prop :=
  ∃ d₁ v₁ d₂, v.run (decryptBlock d) = ((.ok clear, d₁), v₁) ∧ d₁.metadata = some info ∧
    v₁.asked = asked ++ [info] ∧ decryptBlock d₁ = .done (.ok .empty, d₂) ∧ d₂.stage = .finished

/-! ### The only block -/

/-- Behind its only block a message is over, whatever the input is. -/
theorem Decryptor.decryptBlock_of_message {d : Decryptor} (hstage : d.stage = .headDone)
    (hf : d.format = .message) :
    decryptBlock d = .done (.ok .empty, { d with stage := .finished }.dropKeys) := by
  obtain ⟨format, credential, reader, stage⟩ := d
  subst hstage hf
  rfl

/-- A header that is whole and has the number of an algorithm where later generations have their
version is that of a message. -/
theorem WireFormat.ofHeader_eq_message {all : ByteArray}
    (hv : 1 ≤ readLE (all.extract 32 34) ∧ readLE (all.extract 32 34) ≤ 3) :
    WireFormat.ofHeader (all.extract 0 Limits.headerBytes) = .ok .message ↔
      Limits.headerBytes ≤ all.size := by
  have h38 : Limits.headerBytes = 38 := rfl
  have hsize : (all.extract 0 Limits.headerBytes).size = min Limits.headerBytes all.size := by
    rw [ByteArray.size_extract, Nat.sub_zero]
  have hmarker : (all.extract 0 Limits.headerBytes).extract Limits.macBytes
      (Limits.macBytes + Limits.versionBytes) = all.extract 32 34 := by
    rw [ByteArray.extract_extract]
    rfl
  have h5 : ¬ readLE (all.extract 32 34) = Limits.version5 := by
    intro h
    rw [h] at hv
    exact absurd hv.2 (by decide)
  have h4 : ¬ readLE (all.extract 32 34) = Limits.version4 := by
    intro h
    rw [h] at hv
    exact absurd hv.2 (by decide)
  have h13 : 1 ≤ readLE (all.extract 32 34) ∧ readLE (all.extract 32 34) < Limits.version4 :=
    ⟨hv.1, Nat.lt_succ_of_le hv.2⟩
  unfold WireFormat.ofHeader
  by_cases hshort : (all.extract 0 Limits.headerBytes).size < Limits.headerBytes
  · rw [if_pos hshort]
    simp only [reduceCtorEq, false_iff]
    omega
  · rw [if_neg hshort, hmarker, if_neg h5, if_neg h4, if_pos h13]
    simp only [true_iff]
    omega

/-- What bytes of the first generation begin with is a message. -/
theorem BeginsWith.eq_message {all after : ByteArray} {format : WireFormat} {h : HeadData}
    {b : WireBlock} (hv : 1 ≤ readLE (all.extract 32 34) ∧ readLE (all.extract 32 34) ≤ 3)
    (hb : BeginsWith credential all format h b after) :
    format = .message ∧ after = .empty ∧ all = b.messageBytes ∧
      all.size ≤ Limits.headerBytes + Limits.payloadMax ∧ IsMessage credential h b := by
  cases hb with
  | message _ hall hsize hmessage => exact ⟨rfl, rfl, hall, hsize, hmessage⟩
  | framed hf hall _ =>
    -- A framed format has its own version in this place.
    have hversion := b.readLE_version format after
    rw [← hall] at hversion
    exfalso
    cases format with
    | message => exact hf rfl
    | framed => exact absurd (hversion ▸ hv.2) (by decide)
    | chained => exact absurd (hversion ▸ hv.2) (by decide)

namespace World.HoldsMessage

variable {h : HeadData} {b : WireBlock} {hint : Option String} {answer : Answer}

/-- Where a message is held, a pass begins with it, and it opens. -/
theorem beginOf (hv : 1 ≤ readLE (w.bytes.extract 32 34) ∧ readLE (w.bytes.extract 32 34) ≤ 3)
    (hm : w.HoldsMessage credential h b hint answer clear) :
    SealedStream.beginOf credential w.bytes
        = .ok (.message, b.verifiedHead .message credential h hint, .empty) ∧
      (w.provider (w.asked ++ [(b.verifiedHead .message credential h hint).info])
          >>= (b.verifiedHead .message credential h hint).decrypt credential)
        = .ok (h.keys credential answer.password, clear) := by
  have hformat := (WireFormat.ofHeader_eq_message hv).2 hm.minSize
  refine ⟨BeginsWith.beginOf_eq_ok_iff.2
    ⟨h, b, hint, .message hformat hm.bytes hm.maxSize hm.message, hm.opensHint, rfl⟩, ?_⟩
  exact bind_eq_ok.2
    ⟨answer, hm.answered, decrypt_verifiedHead_eq_ok.2 ⟨hm.password_ne, rfl, hm.opens⟩⟩

end World.HoldsMessage

/-- **A message decrypts** exactly if it is held. -/
theorem World.decryptsPass_iff_holdsMessage (hp : w.InPieces)
    (hv : 1 ≤ readLE (w.bytes.extract 32 34) ∧ readLE (w.bytes.extract 32 34) ≤ 3) :
    w.DecryptsPass credential clear ↔
      ∃ h b hint answer, w.HoldsMessage credential h b hint answer clear := by
  rw [decryptsPass_iff_gives hp]
  constructor
  · rintro ⟨format, head, ahead, hbegin, hgives⟩
    obtain ⟨h, b, hint, hb, hhint, rfl⟩ := BeginsWith.beginOf_eq_ok_iff.1 hbegin
    obtain ⟨rfl, rfl, hall, hsize, hmessage⟩ := hb.eq_message hv
    cases hgives with
    | opened hopen hunfolds =>
      obtain ⟨answer, hanswer, hdecrypt⟩ := bind_eq_ok.1 hopen
      obtain ⟨hne, rfl, hfirst⟩ := decrypt_verifiedHead_eq_ok.1 hdecrypt
      have hmin := (WireFormat.ofHeader_eq_message hv).1 hb.ofHeader_eq
      -- Nothing is ahead, so nothing but the head is opened.
      cases hunfolds with
      | finished =>
        refine ⟨h, b, hint, answer, hall, hmin, hsize, hmessage, hhint, hanswer, hne, ?_⟩
        rw [concat_singleton]
        exact hfirst
      | block hnext => exact absurd rfl (ne_message_of_nextOf (fun _ => rfl) hnext)
  · rintro ⟨h, b, hint, answer, hm⟩
    obtain ⟨hbegin, hopen⟩ := hm.beginOf hv
    refine ⟨.message, _, .empty, hbegin, ?_⟩
    have hnext : ∀ keys tag flags, nextOf .message keys tag flags .empty = .ok none :=
      fun _ _ _ => nextOf_eq_none.2 ⟨rfl, fun hterminal => by cases hterminal⟩
    have hgives := Gives.opened hopen (.finished (hnext _ _ _))
    rwa [concat_singleton] at hgives

/-! ### The steps of a session -/

section steps

variable {d d₁ : Decryptor} {v v₁ : World} {head : VerifiedHead} {ahead : ByteArray}
  {asked : List PassInfo} {provider : List PassInfo → Except Fault Answer}

/-- A session whose first step opens a message is over behind it. -/
theorem Decryptor.opensAlone_of_between {keys : PassKeys} {tag : Bytes 32} {flags : Nat}
    {info : PassInfo} (hrun : v.run (decryptBlock d) = ((.ok clear, d₁), v₁))
    (hf : d₁.format = .message) (hmetadata : d₁.metadata = some info)
    (hbetween : d₁.Between (unaskedSupply w.bytes (asked ++ [info]) provider) w.bytes keys tag flags
      ahead () v₁) : d.OpensAlone v asked info clear :=
  ⟨d₁, v₁, _, hrun, hmetadata, hbetween.reader.asked_eq.1,
    decryptBlock_of_message hbetween.stage hf, rfl⟩

/-- The metadata of a verified head can be had before it is decrypted. -/
theorem Decryptor.exists_run_info {all : ByteArray}
    (hfresh : d.Fresh (unaskedSupply all asked provider) all () v)
    (hok : headOf d.format d.credential all = .ok (head, ahead)) :
    ∃ d₁ v₁, v.run (info d) = ((.ok head.info, d₁), v₁) ∧ d₁.format = d.format ∧
      d₁.credential = d.credential ∧
      d₁.Decoded (unaskedSupply all asked provider) all head ahead () v₁ := by
  have hm := meets_info (supplies_unasked all asked provider) (total_unaskedSupply _ _ _) hfresh
  obtain ⟨_, d₁, v₁, hrun, head', ahead', hok', rfl, hformat, hcredential, hdecoded⟩ :=
    (hm.mono (fun _ _ _ _ h => h) (by
      rintro fault _ _ _ (h | ⟨⟨fault', herror, -⟩, -⟩)
      · exact h
      · cases hok.symm.trans herror)).exists_run_ok
  cases hok.symm.trans hok'
  exact ⟨d₁, v₁, hrun, hformat, hcredential, hdecoded⟩

/-- A head whose metadata has been had is decrypted as one that is verified only then. -/
theorem Decryptor.exists_run_decryptHead_of_decoded {all first : ByteArray} {keys : PassKeys}
    (hdecoded : d.Decoded (unaskedSupply all asked provider) all head ahead () v)
    (hcredential : d.credential = credential)
    (hopen : (provider (asked ++ [head.info]) >>= head.decrypt credential) = .ok (keys, first)) :
    ∃ d₁ v₁, v.run (decryptBlock d) = ((.ok first, d₁), v₁) ∧ d₁.format = d.format ∧
      d₁.metadata = some head.info ∧
      d₁.Between (unaskedSupply all (asked ++ [head.info]) provider) all keys head.tag head.flags
        ahead () v₁ := by
  subst hcredential
  have hm : Meets Source.host decryptBlock d () v _ _ :=
    (meets_decryptBlock_of_headDecoded hdecoded.stage).2
      (meets_decryptHead_of_decoded (asks_unasked all asked provider)
        (fun _ => stable_unaskedSupply _ _ _) hdecoded)
  obtain ⟨clear, d₁, v₁, hrun, hopened⟩ := (hm.mono (fun _ _ _ _ h => h) (by
    rintro fault _ _ _ ⟨_, rfl, hfault, -⟩
    cases hopen.symm.trans hfault)).exists_run_ok
  obtain ⟨answer, keys', hanswer, hdecrypt, hbetween⟩ := hopened.opened
  have hopen' := bind_eq_ok.2 ⟨answer, hanswer.symm, hdecrypt⟩
  cases hopen.symm.trans hopen'
  exact ⟨d₁, v₁, hrun, hopened.format, hopened.metadata, hbetween⟩

/-- **Where a message is held**, its metadata and its clear text can be had one after the other, or
the clear text at once. -/
theorem World.HoldsMessage.exists_steps {h : HeadData} {b : WireBlock} {hint : Option String}
    {answer : Answer} (hp : w.InPieces)
    (hv : 1 ≤ readLE (w.bytes.extract 32 34) ∧ readLE (w.bytes.extract 32 34) ≤ 3)
    (hm : w.HoldsMessage credential h b hint answer clear) :
    ∃ d v d₁ v₁, w.run (start credential) = (.ok d, v) ∧
      v.run (info d) = ((.ok (h.info .message hint), d₁), v₁) ∧
      d.OpensAlone v w.asked (h.info .message hint) clear ∧
      d₁.OpensAlone v₁ w.asked (h.info .message hint) clear := by
  obtain ⟨hbegin, hopen⟩ := hm.beginOf hv
  obtain ⟨d, v, hstart, hformat, rfl, hfresh⟩ := exists_run_start hp hbegin
  have hok : headOf d.format d.credential w.bytes
      = .ok (b.verifiedHead .message d.credential h hint, .empty) := by
    rw [hformat]
    exact (beginOf_eq_ok.1 hbegin).2
  obtain ⟨d₁, v₁, hinfo, hformat₁, hcredential, hdecoded⟩ := exists_run_info hfresh hok
  refine ⟨d, v, d₁, v₁, hstart, hinfo, ?_, ?_⟩
  · obtain ⟨d', v', hrun, hformat', hmetadata, hbetween⟩ := exists_run_decryptHead hfresh hok hopen
    exact opensAlone_of_between hrun (hformat'.trans hformat) hmetadata hbetween
  · obtain ⟨d', v', hrun, hformat', hmetadata, hbetween⟩ :=
      exists_run_decryptHead_of_decoded hdecoded hcredential hopen
    exact opensAlone_of_between hrun (hformat'.trans (hformat₁.trans hformat)) hmetadata hbetween

end steps

/-- **Messages.**  Bytes that claim to be of the first generation, in whatever pieces, decrypt to
the end with the clear text `clear` exactly if they are a message with this clear text.  The
metadata is then that of its fields, of version 1 and of the only pass of a stream.  The first step
gives all of the clear text, and the next one gives no bytes, reads nothing and finishes the
session. -/
theorem decryptsMessage_iff (hp : w.InPieces)
    (hv : 1 ≤ readLE (w.bytes.extract 32 34) ∧ readLE (w.bytes.extract 32 34) ≤ 3) :
    (w.DecryptsPass credential clear ↔
      ∃ h b hint answer, w.HoldsMessage credential h b hint answer clear) ∧
    ∀ h b hint answer, w.HoldsMessage credential h b hint answer clear →
      (h.info .message hint).version = 1 ∧ (h.info .message hint).loop = ⟨1, 1⟩ ∧
      ∃ d v d₁ v₁, w.run (start credential) = (.ok d, v) ∧
        v.run (info d) = ((.ok (h.info .message hint), d₁), v₁) ∧
        d.OpensAlone v w.asked (h.info .message hint) clear ∧
        d₁.OpensAlone v₁ w.asked (h.info .message hint) clear :=
  ⟨World.decryptsPass_iff_holdsMessage hp hv,
    fun _ _ _ _ hm => ⟨rfl, hm.message.only, hm.exists_steps hp hv⟩⟩

/-! ### A message -/

/-- **A message can be made** for every clear text: its tag is computed when all else is there. -/
theorem exists_isMessage (credential : Credential) {h : HeadData} (honly : h.loop = ⟨1, 1⟩)
    (key : Key) (clear : ByteArray) :
    ∃ b : WireBlock, IsMessage credential h b ∧ b.text.size = clear.size + h.algorithm.tagBytes ∧
      h.algorithm.decrypt key h.iv b.text b.associated = .ok clear := by
  obtain ⟨text, -, hsize, hdecrypt⟩ := Algorithm.exists_encrypt key h.messageBytes h.size_iv clear
  exact ⟨⟨hmacSha256 (credential.signingKey h.salt).data (h.messageBytes ++ text), false,
      h.messageBytes, text⟩,
    ⟨honly, rfl, rfl, Algorithm.ne_empty_of_decrypt hdecrypt, rfl⟩, hsize, hdecrypt⟩

/-- A message has the number of its algorithm where later generations have their version. -/
theorem IsMessage.readLE_algorithm {h : HeadData} {b : WireBlock} (hb : IsMessage credential h b) :
    readLE (b.messageBytes.extract 32 34) = h.algorithm.id := by
  have hparts : b.messageBytes = b.tag.data ++ (writeLE Limits.algorithmBytes h.algorithm.id
      ++ (h.iv ++ h.salt.data ++ writeLE Limits.iterationsBytes h.iterations
        ++ writeLE Limits.versionBytes Limits.version1
        ++ (writeLE Limits.hintLengthBytes h.sealedHint.size ++ h.sealedHint) ++ b.text)) := by
    simp only [WireBlock.messageBytes, WireBlock.payload, hb.associated, HeadData.messageBytes,
      ByteArray.append_assoc]
  have hid : b.messageBytes.extract b.tag.data.size (b.tag.data.size + Limits.algorithmBytes)
      = writeLE Limits.algorithmBytes h.algorithm.id := by
    rw [hparts]
    exact FieldReader.extract_passed (size_writeLE _ _)
  rw [b.tag.size_data] at hid
  exact (congrArg readLE hid).trans (readLE_writeLE (by cases h.algorithm <;> decide))

/-- A message of three bytes: it decrypts to them, and to nothing else, and its metadata and its
clear text can be had one after the other, or the clear text at once. -/
theorem decryptsMessage_iff_threeBytes :
    ∃ items, let w : World := { input := items, provider := fun _ => .ok ⟨"secret", none⟩ }
      (w.InPieces ∧ 1 ≤ readLE (w.bytes.extract 32 34) ∧ readLE (w.bytes.extract 32 34) ≤ 3) ∧
      (∀ clear, w.DecryptsPass ⟨.zeros 32⟩ clear ↔ clear = ofList [1, 2, 3]) ∧
      ∃ h d v d₁ v₁, h.version = 1 ∧ h.loop = ⟨1, 1⟩ ∧ w.run (start ⟨.zeros 32⟩) = (.ok d, v) ∧
        v.run (info d) = ((.ok h, d₁), v₁) ∧ d.OpensAlone v [] h (ofList [1, 2, 3]) ∧
        d₁.OpensAlone v₁ [] h (ofList [1, 2, 3]) := by
  obtain ⟨h, honly, hempty, hhint⟩ := HeadData.exists_single ⟨.zeros 32⟩
  obtain ⟨b, hmessage, htext, hopens⟩ := exists_isMessage ⟨.zeros 32⟩ honly
    (h.keys ⟨.zeros 32⟩ "secret").cipher (ofList [1, 2, 3])
  obtain ⟨items, hitems, hbytes⟩ := exists_pieces b.messageBytes
  refine ⟨items, ?_⟩
  intro w
  have hw : w.bytes = b.messageBytes := hbytes
  have hp : w.InPieces := hitems
  have hv : 1 ≤ readLE (w.bytes.extract 32 34) ∧ readLE (w.bytes.extract 32 34) ≤ 3 := by
    rw [hw, hmessage.readLE_algorithm]
    cases h.algorithm <;> decide
  have hsize : w.bytes.size = 60 + h.algorithm.ivBytes + h.algorithm.tagBytes := by
    have hmac : Limits.macBytes = 32 := rfl
    have hthree : (ofList [1, 2, 3]).size = 3 := rfl
    rw [hw, WireBlock.size_messageBytes, WireBlock.payload, ByteArray.size_append, htext,
      hmessage.associated, h.size_messageBytes, hempty, ByteArray.size_empty]
    omega
  have hfits : Limits.headerBytes ≤ w.bytes.size ∧
      w.bytes.size ≤ Limits.headerBytes + Limits.payloadMax := by
    rw [hsize]
    cases h.algorithm <;> decide
  have hm : w.HoldsMessage ⟨.zeros 32⟩ h b none ⟨"secret", none⟩ (ofList [1, 2, 3]) :=
    ⟨hw, hfits.1, hfits.2, hmessage, hhint, rfl, by decide, hopens⟩
  refine ⟨⟨hp, hv⟩, fun clear => (decryptsMessage_iff hp hv).1.trans ⟨?_, ?_⟩, ?_⟩
  · -- The bytes tell the message, and the message its clear text.
    rintro ⟨h', c, hint, answer, hc⟩
    obtain ⟨rfl, rfl⟩ := hmessage.eq hc.message (hw.symm.trans hc.bytes)
    obtain rfl : ⟨"secret", none⟩ = answer := Except.ok.inj hc.answered
    exact Except.ok.inj (hc.opens.symm.trans hopens)
  · rintro rfl
    exact ⟨h, b, none, _, hm⟩
  · obtain ⟨hversion, hloop, d, v, d₁, v₁, hsteps⟩ :=
      (decryptsMessage_iff hp hv).2 h b none _ hm
    exact ⟨_, d, v, d₁, v₁, hversion, hloop, hsteps⟩

end SealedStream
