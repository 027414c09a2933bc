import SealedStream.Proofs.Decryption
import SealedStream.Proofs.EncryptionFaults

/-!
# Round trips

Decryption inverts encryption, however many passes are nested, and however both inputs are
delivered.

Encryption puts the questions for its passwords from the innermost pass to the outermost, decryption
from the outermost to the innermost, and shows the hints.  What they are answered with has to agree
pass by pass (`SamePasswords`).

* `decrypt_encrypt`: what a plan encrypts decrypts to the input.
-/

namespace SealedStream

variable {plan : Plan} {credential : Credential}
  {provider provider' : List PassInfo → Except Fault Answer}
  {asked asked' before : List PassInfo} {clear cipher : ByteArray} {n : Nat}

/-- A question without its hint. -/
def PassInfo.withoutHint (info : PassInfo) : PassInfo :=
  { info with hint := none }

/-- The questions `made`, put when `asked` had been, and the questions `shown`, about the same
passes in the other order, put when `asked'` had been, are answered with the same passwords. -/
def SamePasswords (provider : List PassInfo → Except Fault Answer) (asked made : List PassInfo)
    (provider' : List PassInfo → Except Fault Answer) (asked' shown : List PassInfo) : Prop :=
  ∀ inside q outside before s after, made = inside ++ q :: outside → shown = before ++ s :: after →
    before.length = outside.length →
    ∃ a b, provider (asked ++ (inside ++ [q])) = .ok a ∧
      provider' (asked' ++ (before ++ [s])) = .ok b ∧
      b.password = a.password

/-- The passes inside another are answered with the same passwords, too. -/
theorem SamePasswords.inner {made shown : List PassInfo} {q s : PassInfo}
    (h : SamePasswords provider asked (made ++ [q]) provider' asked' (s :: shown)) :
    SamePasswords provider asked made provider' (asked' ++ [s]) shown := by
  rintro inside q' outside before s' after rfl rfl hlength
  obtain ⟨a, b, ha, hb, hsame⟩ := h inside q' (outside ++ [q]) (s :: before) s' after
    (by rw [List.append_assoc, List.cons_append]) rfl (by simp [hlength])
  refine ⟨a, b, ha, ?_, hsame⟩
  rw [List.append_assoc]
  exact hb

/-- Whatever is asked, the same password is given for it. -/
theorem samePasswords_const (a b : Answer) (h : b.password = a.password)
    (asked made asked' shown : List PassInfo) :
    SamePasswords (fun _ => .ok a) asked made (fun _ => .ok b) asked' shown := by
  intro inside q outside before s after _ _ _
  exact ⟨a, b, rfl, rfl, h⟩

/-- A question with the hint that is kept of the answer to it. -/
def PassInfo.withHintOf (info : PassInfo) (reply : Except Fault Answer) : PassInfo :=
  { info with
    hint := match reply with
      | .ok answer => keptHint (answer.hint.getD "")
      | .error _ => none }

/-- What decryption asks about passes that have asked `made` when they were encrypted, after
`asked`: the outermost first, each with the hint that was given for it. -/
def shownInfos (provider : List PassInfo → Except Fault Answer) :
    (asked made : List PassInfo) → List PassInfo
  | _, [] => []
  | asked, info :: later =>
    shownInfos provider (asked ++ [info]) later
      ++ [info.withHintOf (provider (asked ++ [info]))]

/-- The last pass that was encrypted is the first that decryption asks about. -/
theorem shownInfos_snoc (asked made : List PassInfo) (info : PassInfo) :
    shownInfos provider asked (made ++ [info])
      = info.withHintOf (provider (asked ++ made ++ [info])) :: shownInfos provider asked made := by
  induction made generalizing asked with
  | nil => simp [shownInfos]
  | cons q made ih => simp [shownInfos, ih]

/-- **A well-formed pass begins** with its head, and shows its hint. -/
theorem FramedPass.WellFormed.beginOf_eq {p : FramedPass} (hwf : p.WellFormed .chained credential)
    {hint : Option String} (hhint : p.data.openHint credential = .ok hint) :
    beginOf credential (p.toByteArray .chained)
      = .ok (.chained, p.head.verifiedHead .chained credential p.data hint,
        furtherBytes .chained p.further) := by
  have hf : WireFormat.chained ≠ .message := by decide
  exact beginOf_eq_ok.2 ⟨p.head.ofHeader_toByteArray hf _,
    (headOf_eq_ok hf).2 ⟨p.head, p.data, _, rfl, hwf.head, hhint, rfl⟩⟩

/-- Its further blocks open, if their texts do. -/
theorem FramedPass.WellFormed.unfolds {p : FramedPass} (hwf : p.WellFormed .chained credential)
    {password : String} {rest : List ByteArray}
    (hopens : List.Forall₂ (OpensTo (p.data.keys credential password).cipher) p.further rest) :
    Unfolds .chained (p.data.keys credential password) p.head.tag p.head.flags
      (furtherBytes .chained p.further) rest none :=
  (unfolds_none_iff (by decide) hwf.head.inRange).2
    ⟨p.further, rfl, hwf.linked, hopens, hwf.terminal⟩

/-- **A pass that was made opens** to what was encrypted, with the password it was made with, and
shows the hint that was given for it. -/
theorem SealedPass.exists_gives {settings : PassSettings} {answer : Answer} {p : FramedPass}
    (hp : SealedPass settings credential answer p clear) (hlast : p.last.terminal = true) :
    ∃ head ahead, beginOf credential (p.toByteArray .chained) = .ok (.chained, head, ahead) ∧
      head.info = (p.data.info .chained none).withHintOf (.ok answer) ∧
      ∀ answer' : Answer, answer'.password = answer.password →
        Gives .chained credential head ahead (.ok answer') clear none := by
  have hwf := hp.wellFormed hlast
  refine ⟨_, _, hwf.beginOf_eq hp.hint, rfl, fun answer' hpassword => ?_⟩
  obtain ⟨first, rest, rfl, hhead, hrest, -⟩ := hp.clears
  have hne := hhead.password_ne
  have hopens := hhead.opens
  rw [← hpassword] at hne hopens hrest
  exact .opened (decrypt_verifiedHead_eq_ok.2 ⟨hne, rfl, hopens⟩) (hwf.unfolds hrest)

theorem EncryptedThrough.eq_of_zero
    (h : EncryptedThrough plan credential provider asked clear 0 before cipher) :
    cipher = clear ∧ before = asked := by
  cases h
  exact ⟨rfl, rfl⟩

theorem EncryptedThrough.readLE_version
    (h : EncryptedThrough plan credential provider asked clear (n + 1) before cipher) :
    readLE (cipher.extract 32 34) = WireFormat.chained.version := by
  cases h with
  | @pass _ _ _ p => exact p.head.readLE_version .chained _

/-- **Passes around passes unwrap** to the input, the outermost first, and ask what was asked for
them with the hints that were given.  The induction is on the passes. -/
theorem EncryptedThrough.exists_unwraps
    (h : EncryptedThrough plan credential provider asked clear n before cipher) :
    ∃ made, before = asked ++ made ∧
      (shownInfos provider asked made).map PassInfo.withoutHint = made.reverse ∧
      ∀ provider' asked', n ≠ 0 →
        SamePasswords provider asked made provider' asked' (shownInfos provider asked made) →
        Unwraps credential provider' asked' cipher (shownInfos provider asked made) clear := by
  induction h with
  | input => exact ⟨[], (List.append_nil asked).symm, rfl, fun _ _ h => absurd rfl h⟩
  | @pass n before mid p answer hn hinner hp hlast hanswer ih =>
    obtain ⟨made, rfl, hshown, hunwraps⟩ := ih
    obtain ⟨head, ahead, hbegin, hinfo, hgives⟩ := hp.exists_gives hlast
    have hloop : head.info.loop.index = n + 1 := by
      rw [hinfo, hp.info_eq]
      rfl
    rw [← hanswer] at hinfo
    refine ⟨made ++ [p.data.info .chained none], List.append_assoc _ _ _, ?_⟩
    rw [shownInfos_snoc, ← hinfo]
    constructor
    · rw [List.map_cons, hshown, hinfo, List.reverse_append]
      rfl
    intro provider' asked' _ hsame
    -- The outermost pass is answered with its password, and so are those inside.
    obtain ⟨a, b, ha, hb, hpassword⟩ := hsame made _ [] [] head.info _ rfl rfl rfl
    rw [List.append_assoc] at hanswer
    rw [hanswer] at ha
    cases ha
    have hgiven : Gives .chained credential head ahead (provider' (asked' ++ [head.info])) mid
        none := by
      rw [show provider' (asked' ++ [head.info]) = .ok b from hb]
      exact hgives b hpassword
    by_cases hn : n = 0
    · -- No pass inside asks anything.
      subst hn
      obtain ⟨rfl, hnone⟩ := hinner.eq_of_zero
      obtain rfl := List.append_right_eq_self.1 hnone
      exact .last hbegin (by omega) hgiven
    · exact .pass hbegin (by omega) hgiven (hunwraps provider' _ hn hsame.inner)

theorem EncryptedThrough.exists_shown
    (h : EncryptedThrough plan credential provider asked clear n before cipher) :
    ∃ made shown, before = asked ++ made ∧ shown.map PassInfo.withoutHint = made.reverse ∧
      ∀ provider' asked', n ≠ 0 → SamePasswords provider asked made provider' asked' shown →
        OpensThrough credential provider' asked' cipher clear := by
  obtain ⟨made, hbefore, hshown, hunwraps⟩ := h.exists_unwraps
  exact ⟨made, _, hbefore, hshown, fun provider' asked' hn hsame =>
    ⟨_, hunwraps provider' asked' hn hsame⟩⟩

/-- **Decryption inverts encryption.**  Where it can use the answers to all questions that it puts,
a plan encrypts any input, whatever its pieces and whatever the random bytes.  The cipher text
decrypts to the input, whatever its pieces, if the questions that are put then are answered with the
same passwords. -/
theorem decrypt_encrypt (plan : Plan) (credential : Credential) {w : World} (hp : w.InPieces)
    (hanswers : ∀ info reply,
      (info, reply) ∈ questions (w.eventsOf (w.encryption plan credential)) → Usable reply) :
    ∃ cipher w' made shown, w.encrypt plan credential = (.ok cipher, w') ∧
      w'.asked = w.asked ++ made ∧ shown.map PassInfo.withoutHint = made.reverse ∧
      ∀ v : World, v.InPieces → v.bytes = cipher →
        SamePasswords w.provider w.asked made v.provider v.asked shown →
        ∃ v', v.decrypt credential = (.ok w.bytes, v') := by
  obtain ⟨cipher, w', hrun, hthrough⟩ :=
    World.exists_encrypt_of_usable plan credential hp.no_failure hanswers
  rw [hp.delivered_eq] at hthrough
  obtain ⟨made, shown, hmade, hshown, hopens⟩ := hthrough.exists_shown
  have hcount : plan.count ≠ 0 := Nat.ne_of_gt plan.length_mem.1
  refine ⟨cipher, w', made, shown, hrun, hmade, hshown, fun v hv hbytes hsame => ?_⟩
  refine World.decrypt_of_opensThrough hv ?_
  rw [hbytes]
  exact hopens v.provider v.asked hcount hsame

/-- Three bytes in two pieces, encrypted in two passes and decrypted again. -/
theorem decrypt_encrypt_threeBytes :
    let plan : Plan :=
      ⟨[.aegis256, .aesGcm], Limits.iterationsDefault, 1, by decide, by decide, by decide⟩
    let w : World :=
      { input := [.data (ofList [1]), .data (ofList [2, 3])]
        provider := fun _ => .ok ⟨"secret", some "usual"⟩ }
    (w.InPieces ∧ ∀ info reply,
      (info, reply) ∈ questions (w.eventsOf (w.encryption plan ⟨.zeros 32⟩)) → Usable reply) ∧
    ∃ cipher w' items v', w.encrypt plan ⟨.zeros 32⟩ = (.ok cipher, w') ∧
      itemsBytes items = cipher ∧
      World.decrypt ⟨.zeros 32⟩ { input := items, provider := fun _ => .ok ⟨"secret", none⟩ }
        = (.ok (ofList [1, 2, 3]), v') := by
  intro plan w
  have hp : w.InPieces := by decide
  have hanswers : ∀ info reply,
      (info, reply) ∈ questions (w.eventsOf (w.encryption plan ⟨.zeros 32⟩)) → Usable reply := by
    intro info reply h
    obtain ⟨before, rfl⟩ := World.exists_provider_of_mem_questions _ h
    exact ⟨_, rfl, by decide, by decide⟩
  refine ⟨⟨hp, hanswers⟩, ?_⟩
  obtain ⟨cipher, w', made, shown, hrun, -, -, hround⟩ :=
    decrypt_encrypt plan ⟨.zeros 32⟩ hp hanswers
  obtain ⟨items, hitems, hbytes⟩ := exists_pieces cipher
  obtain ⟨v', hv'⟩ := hround { input := items, provider := fun _ => .ok ⟨"secret", none⟩ } hitems
    hbytes fun _ _ _ _ _ _ _ _ _ => ⟨_, _, rfl, rfl, rfl⟩
  exact ⟨cipher, w', items, v', hrun, hbytes, hv'⟩

end SealedStream
