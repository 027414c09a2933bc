import SealedStream.Proofs.EncryptionFaults
import SealedStream.Proofs.Metadata
import SealedStream.Proofs.Questions

/-!
# The way of a hint

A hint goes with the answer for a password, is sealed into the head of the pass, and is shown to
whoever is asked for that password again.  Its characters are limited, but so are the bytes of its
field, and a character may take four of them: of a hint that is accepted, the end may be lost.

* `hint_shown`: encryption refuses a hint of more than 95 characters.  Any other fits its field when
  it is sealed, and what is shown of it is its longest start of at most 223 bytes.
-/

namespace SealedStream

variable {plan : Plan} {credential : Credential} {w w' : World} {cipher : ByteArray}

/-! ### What is shown -/

/-- What is shown of a hint, where `max` bytes have room: nothing of an empty one, else its longest
start, which is not empty. -/
def IsShown (max : Nat) (hint : String) : Option String → Prop
  | none => hint = ""
  | some s => s ≠ "" ∧ IsLongestStart max hint s

theorem isShown_keptHint (hint : String) : IsShown Limits.hintMaxBytes hint (keptHint hint) := by
  unfold keptHint
  split
  next hempty => exact String.isEmpty_iff.1 hempty
  next hempty =>
    have hkept := isLongestStart_takeUtf8 Limits.hintMaxBytes hint
    exact ⟨hkept.ne_empty (by decide) fun hnone => hempty (String.isEmpty_iff.2 hnone), hkept⟩

/-- A head that was made shows what is kept of the hint that was given. -/
theorem SealedPass.infoOf_eq {settings : PassSettings} {answer : Answer} {p : FramedPass}
    {clear : ByteArray} (hp : SealedPass settings credential answer p clear)
    (hlast : p.last.terminal = true) :
    infoOf credential (p.toByteArray .chained)
      = .ok ((p.data.info .chained none).withHintOf (.ok answer)) := by
  obtain ⟨head, ahead, hbegin, hinfo, -⟩ := hp.exists_gives hlast
  rw [infoOf, hbegin, ← hinfo]
  rfl

/-! ### Hints that are too long -/

/-- Encryption that succeeds has asked a question, and could use the answer. -/
theorem World.exists_usable_of_encrypt (h : w.encrypt plan credential = (.ok cipher, w')) :
    ∃ info, Usable (w.provider (w.asked ++ [info])) := by
  obtain ⟨made, hmade, hquestions, -⟩ := exists_asksFirst_of_encrypt h
  obtain ⟨hanswers, -, hasked⟩ := answers_eventsOf (w.encryption plan credential) w
  have hrun : (w.run (w.encryption plan credential)).2 = w' := congrArg Prod.snd h
  rw [hrun, hmade] at hasked
  have husable := @usable_of_encrypt plan credential w w' cipher h
  generalize questions (w.eventsOf (w.encryption plan credential)) = put at hanswers hasked husable
  cases put with
  | nil =>
    -- A plan has a pass, and each pass asks.
    obtain rfl := List.append_cancel_left hasked
    have hlength := hquestions.length_eq
    rw [List.length_take, plan.length_passes, Nat.min_self] at hlength
    exact absurd hlength (Nat.ne_of_gt plan.length_mem.1)
  | cons question later =>
    obtain ⟨info, reply⟩ := question
    refine ⟨info, ?_⟩
    rw [hanswers.1]
    exact husable List.mem_cons_self

/-- **A hint that is too long** is refused, if nothing else fails before it is given. -/
theorem World.encrypt_of_longHint (plan : Plan) (credential : Credential)
    (hcalm : ∀ e, InputItem.failure e ∉ w.input)
    (hlong : ∀ asked, refusal (w.provider asked) = some .longHint) :
    ∃ w', w.encrypt plan credential = (.error .longHint, w') := by
  rcases hrun : w.encrypt plan credential with ⟨fault | cipher, w'⟩
  · rcases exists_of_findSome? _ (encrypt_eq_error_iff.1 ⟨w', hrun⟩) with
      ⟨e, he, -⟩ | ⟨info, reply, hasked, hrefused⟩
    · exact absurd he (hcalm e)
    · obtain ⟨before, rfl⟩ := exists_provider_of_mem_questions _ hasked
      rw [hlong] at hrefused
      cases hrefused
      exact ⟨w', rfl⟩
  · obtain ⟨info, husable⟩ := exists_usable_of_encrypt hrun
    rw [← refusal_eq_none_iff, hlong] at husable
    cases husable

/-! ### From the answer to the metadata -/

/-- **The metadata of a stream** shows what is kept of the hint that was given for its outermost
pass, whose head has been encoded with the sealed hint. -/
theorem exists_info_of_encrypt (h : w.encrypt plan credential = (.ok cipher, w')) :
    ∃ (p : FramedPass) (before : List PassInfo) (answer : Answer),
      cipher = p.toByteArray .chained ∧ p.data.data.encode = .ok p.head.associated ∧
      w.provider (before ++ [p.data.info .chained none]) = .ok answer ∧
      ∀ u : World, u.InPieces → u.bytes = cipher → (u.run (streamInfo credential)).1
        = .ok ((p.data.info .chained none).withHintOf (.ok answer)) := by
  have hthrough := World.encryptedThrough_of_encrypt h
  have hcount : plan.count = plan.count - 1 + 1 := (Nat.sub_add_cancel plan.length_mem.1).symm
  rw [hcount] at hthrough
  generalize w'.asked = asked at hthrough
  cases hthrough with
  | @pass n before mid p answer hn hinner hp hlast hanswer =>
    refine ⟨p, before, answer, rfl, ?_, hanswer, fun u hu hbytes => ?_⟩
    · rw [AssociatedData.encode_headData, (hp.wellFormed hlast).head.associated]
    · have hchained : WireFormat.ofHeader (u.bytes.extract 0 Limits.headerBytes)
          ≠ .ok .message := by
        rw [hbytes, FramedPass.toByteArray, p.head.ofHeader_toByteArray (by decide)]
        decide
      rw [streamInfo_eq_infoOf hu hchained, hbytes, hp.infoOf_eq hlast]

/-- **The way of a hint** that goes with every answer, wherever no read fails.  If it has more than
95 characters, encryption fails and says so.  Otherwise, with passwords that are not empty,
encryption succeeds: the sealed hint fits in its field, and the head is encoded with it.  The
metadata of the stream, which is the first that decrypting it asks about, then shows the longest
start of the hint that takes at most 223 bytes, and nothing of a hint that is empty or not given.
This is so whatever the hint is sealed with. -/
theorem hint_shown (plan : Plan) (credential : Credential) (hint : Option String)
    (password : List PassInfo → String) {w : World}
    (hcalm : ∀ e, InputItem.failure e ∉ w.input)
    (hanswers : ∀ asked, w.provider asked = .ok ⟨password asked, hint⟩) :
    (95 < (hint.getD "").length → ∃ w', w.encrypt plan credential
      = (.error (.invalidArgument "hint longer than 95 characters"), w')) ∧
    ((hint.getD "").length ≤ 95 → (∀ asked, password asked ≠ "") →
      ∃ (cipher : ByteArray) (w' : World) (p : FramedPass),
        w.encrypt plan credential = (.ok cipher, w') ∧ cipher = p.toByteArray .chained ∧
        p.data.sealedHint.size ≤ 255 ∧ p.data.data.encode = .ok p.head.associated ∧
        ∀ u : World, u.InPieces → u.bytes = cipher →
          ∃ info, (u.run (streamInfo credential)).1 = .ok info ∧
            (∃ later, (u.decrypt credential).2.asked = u.asked ++ info :: later) ∧
            IsShown 223 (hint.getD "") info.hint) ∧
    ∀ (algorithm : Algorithm) (key : Key) (iv : ByteArray), iv.size = algorithm.ivBytes →
      ∃ sealedHint shown, Encryptor.sealHint algorithm key iv (hint.getD "") = .ok sealedHint ∧
        sealedHint.size ≤ 255 ∧ openHint algorithm key iv sealedHint = .ok shown ∧
        IsShown 223 (hint.getD "") shown := by
  refine ⟨?_, ?_, ?_⟩
  · intro hlong
    refine World.encrypt_of_longHint plan credential hcalm fun asked => ?_
    rw [hanswers]
    exact if_pos hlong
  · intro hfits hpassword
    have husable : ∀ before info, Usable (w.provider (before ++ [info])) :=
      fun before info => ⟨_, hanswers _, hpassword _, hfits⟩
    obtain ⟨cipher, w', hrun, -⟩ := World.exists_encrypt_of_calm plan credential hcalm husable
    obtain ⟨p, before, answer, hcipher, hencode, hanswer, hinfo⟩ := exists_info_of_encrypt hrun
    rw [hanswers] at hanswer
    cases hanswer
    refine ⟨cipher, w', p, hrun, hcipher, p.data.size_sealedHint, hencode,
      fun u hu hbytes => ⟨_, hinfo u hu hbytes, ?_, isShown_keptHint _⟩⟩
    have hfirst := decrypt_of_streamInfo credential u
    have hresult := hinfo u hu hbytes
    generalize u.run (streamInfo credential) = x at hfirst hresult
    obtain ⟨result, v⟩ := x
    cases hresult
    exact hfirst.2
  · intro algorithm key iv hiv
    obtain ⟨sealedHint, hseal, hsize, hopen⟩ := exists_sealHint key hiv (hint.getD "")
    exact ⟨sealedHint, _, hseal, hsize, hopen, isShown_keptHint _⟩

/-- A hint of 95 characters with four bytes each loses 40 of them, and one of 96 letters is
refused. -/
theorem hint_shown_fourBytes :
    let rain : Nat → String := fun n => .ofList (.replicate n (Char.ofNat 0x1f327))
    let w : String → World := fun hint =>
      { input := [.data (ofList [1, 2, 3])], provider := fun _ => .ok ⟨"secret", some hint⟩ }
    (∀ hint e, InputItem.failure e ∉ (w hint).input) ∧
      (∀ hint asked, (w hint).provider asked = .ok ⟨"secret", some hint⟩) ∧
      (∃ w', (w (.ofList (.replicate 96 'h'))).encrypt (Plan.single .aesGcm) ⟨.zeros 32⟩
        = (.error (.invalidArgument "hint longer than 95 characters"), w')) ∧
      ∃ cipher w' items info,
        (w (rain 95)).encrypt (Plan.single .aegis256) ⟨.zeros 32⟩ = (.ok cipher, w') ∧
        itemsBytes items = cipher ∧
        (World.run (streamInfo ⟨.zeros 32⟩) { input := items }).1 = .ok info ∧
        info.hint = some (rain 55) := by
  intro rain w
  have hcalm : ∀ hint e, InputItem.failure e ∉ (w hint).input := by
    intro hint e he
    cases List.mem_singleton.1 he
  have hlength : ∀ (n : Nat) (c : Char), (String.ofList (List.replicate n c)).length = n := by
    intro n c
    rw [String.length_ofList, List.length_replicate]
  have hanswers : ∀ hint asked, (w hint).provider asked = .ok ⟨"secret", some hint⟩ :=
    fun _ _ => rfl
  have hlong := (hint_shown (Plan.single .aesGcm) ⟨.zeros 32⟩ _ (fun _ => "secret") (hcalm _)
    (hanswers (.ofList (.replicate 96 'h')))).1
  have hfits := (hint_shown (Plan.single .aegis256) ⟨.zeros 32⟩ _ (fun _ => "secret") (hcalm _)
    (hanswers (rain 95))).2.1
  refine ⟨hcalm, hanswers, hlong ?_, ?_⟩
  · exact Nat.lt_of_lt_of_eq (by decide) (hlength 96 'h').symm
  · obtain ⟨cipher, w', p, hrun, -, -, -, hshown⟩ :=
      hfits (Nat.le_of_eq (hlength 95 _)) fun _ => by decide
    obtain ⟨items, hitems, hbytes⟩ := exists_pieces cipher
    obtain ⟨info, hinfo, -, hhint⟩ := hshown { input := items } hitems hbytes
    refine ⟨cipher, w', items, info, hrun, hbytes, hinfo, ?_⟩
    have hkept : Text.takeUtf8 223 (rain 95).toList = .replicate 55 (Char.ofNat 0x1f327) := by
      rw [String.toList_ofList]
      decide
    have hlongest := isLongestStart_takeUtf8 223 (rain 95)
    rw [hkept] at hlongest
    cases hshows : info.hint with
    | none =>
      rw [hshows] at hhint
      have hempty : (rain 95).length = 0 := congrArg String.length hhint
      rw [hlength] at hempty
      cases hempty
    | some s =>
      rw [hshows] at hhint
      rw [hhint.2.unique hlongest]

end SealedStream
