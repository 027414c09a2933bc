import SealedStream.Proofs.Acceptance
import SealedStream.Proofs.RoundTrip

/-!
# Cut and extended streams

A stream of the chained format says where it ends, so that no stream begins another.  This does not
rest on tags: the last block of the outermost pass says that it is the last, and whatever is nested
in the pass, it is read to its end before anything succeeds (`World.holdsPass_of_decrypt`).

* `eq_empty_of_append_eq`: rows of blocks of which only the last says so do not begin each other.
* `exists_decrypt_of_cut`: a single pass that is cut off fails by where it is cut.
* `prefixFree_of_decrypt`: both for whole streams.
-/

namespace SealedStream

variable {format : WireFormat} {credential : Credential} {clear ahead : ByteArray}

/-! ### The outermost pass -/

/-- **The outermost pass is whole** wherever a stream decrypts, whatever is nested in it. -/
theorem World.holdsPass_of_decrypt (hf : format ≠ .message) {w w' : World} (hp : w.InPieces)
    (hv : readLE (w.bytes.extract 32 34) = format.version)
    (h : w.decrypt credential = (.ok clear, w')) :
    ∃ outer, w.HoldsPass format credential outer := by
  have hpass : ∃ outer, w.DecryptsPass credential outer := by
    obtain ⟨infos, -, hunwraps⟩ := exists_unwraps_of_decrypt hp h
    cases hunwraps with
    | last hbegin _ hgives =>
      exact ⟨clear, (decryptsPass_iff_gives hp).2 ⟨_, _, _, hbegin, hgives⟩⟩
    | @pass _ _ _ mid _ _ _ _ hbegin _ hgives =>
      exact ⟨mid, (decryptsPass_iff_gives hp).2 ⟨_, _, _, hbegin, hgives⟩⟩
  obtain ⟨outer, houter⟩ := hpass
  exact ⟨outer, (holdsPass_iff hf).2 ((decryptsPass_iff_unfolds hf hp hv).1 houter)⟩

/-! ### Rows of blocks -/

/-- **Rows of blocks do not begin each other**, if of each only the last block says that it is.  The
induction is on the shorter row. -/
theorem eq_empty_of_append_eq (hf : format ≠ .message) {b c : WireBlock} {bs cs : List WireBlock}
    {rest : ByteArray} (hb : ∀ x ∈ b :: bs, x.InRange format) (hc : ∀ x ∈ c :: cs, x.InRange format)
    (hbs : (b :: bs).map WireBlock.terminal = List.replicate bs.length false ++ [true])
    (hcs : (c :: cs).map WireBlock.terminal = List.replicate cs.length false ++ [true])
    (h : concat ((b :: bs).map (WireBlock.toByteArray format)) ++ rest
      = concat ((c :: cs).map (WireBlock.toByteArray format))) : rest = .empty := by
  induction bs generalizing b c cs with
  | nil =>
    rw [List.map_cons, List.map_cons, concat_cons, concat_cons, ByteArray.append_assoc] at h
    -- Both first blocks have the same flags, so that both rows end here.
    obtain ⟨-, hflags, -, hafter⟩ := Frame.toByteArray_inj hf (hb b List.mem_cons_self)
      (hc c List.mem_cons_self) h
    have hlast : c.terminal = true := by
      rw [← c.flags_eq_terminal_iff, ← hflags, b.flags_eq_terminal_iff]
      exact List.head_eq_of_cons_eq hbs
    cases cs with
    | nil => exact (ByteArray.append_eq_empty_iff.1 hafter).2
    | cons c' cs =>
      have hgoes : c.terminal = false := List.head_eq_of_cons_eq hcs
      rw [hlast] at hgoes
      cases hgoes
  | cons b' bs ih =>
    rw [List.map_cons, List.map_cons (l := cs), concat_cons, concat_cons,
      ByteArray.append_assoc] at h
    obtain ⟨-, hflags, -, hafter⟩ := Frame.toByteArray_inj hf (hb b List.mem_cons_self)
      (hc c List.mem_cons_self) h
    have hgoes : b.terminal = false := List.head_eq_of_cons_eq hbs
    cases cs with
    | nil =>
      have hlast : b.terminal = true := by
        rw [← b.flags_eq_terminal_iff, hflags, c.flags_eq_terminal_iff]
        exact List.head_eq_of_cons_eq hcs
      rw [hlast] at hgoes
      cases hgoes
    | cons c' cs =>
      exact ih (fun x hx => hb x (List.mem_cons_of_mem _ hx))
        (fun x hx => hc x (List.mem_cons_of_mem _ hx)) (List.tail_eq_of_cons_eq hbs)
        (List.tail_eq_of_cons_eq hcs) hafter

namespace FramedPass

variable {p q : FramedPass}

theorem toByteArray_eq_concat (p : FramedPass) :
    p.toByteArray format = concat (p.blocks.map (WireBlock.toByteArray format)) := by
  rw [toByteArray, furtherBytes, blocks, List.map_cons, List.map_map, concat_cons]
  rfl

theorem WellFormed.inRange (h : p.WellFormed format credential) :
    ∀ b ∈ p.blocks, b.InRange format := by
  intro b hb
  rcases List.mem_cons.1 hb with rfl | hb
  · exact h.head.inRange
  · exact inRange_of_linked h.linked b hb

/-- **No pass of the chained format begins another.** -/
theorem WellFormed.eq_empty_of_append_eq {credential' : Credential} {rest : ByteArray}
    (hp : p.WellFormed .chained credential) (hq : q.WellFormed .chained credential')
    (h : p.toByteArray .chained ++ rest = q.toByteArray .chained) : rest = .empty := by
  rw [toByteArray_eq_concat, toByteArray_eq_concat] at h
  have hpt := hp.terminal
  have hqt := hq.terminal
  rw [← List.length_map Prod.fst] at hpt hqt
  exact SealedStream.eq_empty_of_append_eq (by decide) hp.inRange hq.inRange hpt hqt h

end FramedPass

/-! ### Cuts -/

/-- Blocks that are cut off open until the cut, and then fail as what is left of the block there
does. -/
theorem unfolds_of_cut (hf : format ≠ .message) {keys : PassKeys} {b : WireBlock} {fault : Fault}
    {pre post : List (WireBlock × FurtherData)} {clears : List ByteArray} {front : ByteArray}
    (hb : b.InRange format) (hpost : post ≠ [])
    (hlinked : Linked format keys.signing b.tag (pre ++ post))
    (hopens : List.Forall₂ (OpensTo keys.cipher) (pre ++ post) clears)
    (hterminal : (b :: (pre ++ post).map Prod.fst).map WireBlock.terminal
      = List.replicate (pre ++ post).length false ++ [format.requiresTerminal])
    (hcut : ∀ tag flags, flags ≠ Limits.flagTerminal →
      nextOf format keys tag flags front = .error fault) :
    ∃ clears', Unfolds format keys b.tag b.flags (furtherBytes format pre ++ front) clears'
      (some fault) := by
  induction pre generalizing b clears with
  | nil =>
    -- The cut is behind `b`, which is not the last block: others were to follow.
    obtain ⟨block, post, rfl⟩ := List.exists_cons_of_ne_nil hpost
    have hgoes : b.terminal = false := List.head_eq_of_cons_eq hterminal
    refine ⟨[], .failed ?_⟩
    rw [furtherBytes, List.map_nil, concat_nil, ByteArray.empty_append]
    refine hcut _ _ fun h => ?_
    rw [b.flags_eq_terminal_iff.1 h] at hgoes
    cases hgoes
  | cons block pre ih =>
    obtain ⟨c, f⟩ := block
    obtain ⟨hc, hlinked⟩ := hlinked
    have hgoes : b.terminal = false := List.head_eq_of_cons_eq hterminal
    cases hopens with
    | cons hclear hopens =>
      rename_i clear clears
      obtain ⟨clears', hunfolds⟩ := ih hc.inRange hlinked hopens (List.tail_eq_of_cons_eq hterminal)
      have hnext : nextOf format keys b.tag b.flags (furtherBytes format ((c, f) :: pre) ++ front)
          = .ok (some ⟨c.tag, c.flags, clear, furtherBytes format pre ++ front⟩) :=
        (nextOf_eq_some hf).2 ⟨c, f, ByteArray.append_assoc, hc, hb.may_go_on_iff.2 hgoes, hclear,
          rfl, rfl⟩
      exact ⟨clear :: clears', .block hnext hunfolds⟩

theorem nextOf_empty {keys : PassKeys} {tag : Bytes 32} {flags : Nat}
    (h : flags ≠ Limits.flagTerminal) :
    nextOf .chained keys tag flags .empty = .error .missingTerminal := by
  rw [nextOf, if_pos (isEmpty_iff.2 rfl), if_pos ⟨rfl, h⟩]

namespace World

variable {v : World} {p : FramedPass} {hint : Option String} {answer : Answer} {first : ByteArray}
  {rest : List ByteArray}

/-- A pass that is cut off in its head is refused. -/
theorem exists_decrypt_of_head_cut (hp : v.InPieces)
    (hhead : IsHead .chained credential p.data p.head) {back : ByteArray}
    (h : p.head.toByteArray .chained = v.bytes ++ back) (hback : back ≠ .empty) :
    ∃ what expected actual v',
      v.decrypt credential = (.error (.sizeMismatch what expected actual), v') := by
  by_cases hshort : v.bytes.size < Limits.headerBytes
  · -- The session does not even start.
    have hformat : WireFormat.ofHeader (v.bytes.extract 0 Limits.headerBytes)
        = .error (.sizeMismatch "cipher data header" Limits.headerBytes v.bytes.size) := by
      have hsize : (v.bytes.extract 0 Limits.headerBytes).size = v.bytes.size := by
        rw [ByteArray.size_extract]
        omega
      rw [WireFormat.ofHeader, if_pos (by omega), hsize]
    refine ⟨"cipher data header", Limits.headerBytes, v.bytes.size,
      decrypt_of_begin_error hp (by simp [hformat]) ?_⟩
    exact bind_eq_error.2 (.inl hformat)
  · -- The header is whole, and tells a format and a size.
    obtain ⟨header, rest, hbytes, hsize⟩ := exists_eq_append_of_le (Nat.le_of_not_lt hshort)
    have hformat : WireFormat.ofHeader (v.bytes.extract 0 Limits.headerBytes) = .ok .chained := by
      have hwhole : WireFormat.ofHeader ((p.head.toByteArray .chained ++ .empty).extract 0
          Limits.headerBytes) = .ok .chained := p.head.ofHeader_toByteArray (by decide) .empty
      rw [ByteArray.append_empty, h, hbytes, ByteArray.append_assoc, extract_append_left hsize]
        at hwhole
      rw [hbytes, extract_append_left hsize]
      exact hwhole
    obtain ⟨what, expected, actual, hframe⟩ :=
      Frame.ofBytes_of_cut (by decide) hhead.inRange h hback
    refine ⟨what, expected, actual, decrypt_of_begin_error hp (by simp [hformat]) ?_⟩
    have hhead : headOf .chained credential v.bytes
        = .error (.sizeMismatch what expected actual) := by
      rw [headOf_eq (by decide)]
      exact bind_eq_error.2 (.inl hframe)
    exact bind_eq_error.2 (.inr ⟨.chained, hformat, bind_eq_error.2 (.inl hhead)⟩)

/-- **A single pass that is cut off** behind its head fails by what is left of the block there. -/
theorem exists_decrypt_of_cut (hp : v.InPieces) (hwf : p.WellFormed .chained credential)
    (hhint : p.data.openHint credential = .ok hint)
    (hanswer : v.provider (v.asked ++ [p.data.info .chained hint]) = .ok answer)
    (hne : answer.password ≠ "")
    (hopens : p.Opens (p.data.derivation credential answer.password).key first rest)
    (hsingle : p.data.loop.index = 1) {pre post : List (WireBlock × FurtherData)}
    {front : ByteArray} {fault : Fault} (hfurther : p.further = pre ++ post) (hpost : post ≠ [])
    (hcut : ∀ keys tag flags, flags ≠ Limits.flagTerminal →
      nextOf .chained keys tag flags front = .error fault)
    (hbytes : v.bytes = p.head.toByteArray .chained ++ (furtherBytes .chained pre ++ front)) :
    ∃ v', v.decrypt credential = (.error fault, v') := by
  have hlinked := hwf.linked
  have hfurthers := hopens.further
  have hterminal := hwf.terminal
  rw [FramedPass.blocks] at hterminal
  rw [hfurther] at hlinked hfurthers hterminal
  have hcuts : ∃ clears, Unfolds .chained (p.data.keys credential answer.password) p.head.tag
      p.head.flags (furtherBytes .chained pre ++ front) clears (some fault) :=
    unfolds_of_cut (by decide) hwf.head.inRange hpost hlinked hfurthers hterminal (hcut _)
  obtain ⟨clears, hunfolds⟩ := hcuts
  have hbegin : beginOf credential v.bytes = .ok (.chained,
      p.head.verifiedHead .chained credential p.data hint, furtherBytes .chained pre ++ front) := by
    rw [hbytes]
    exact beginOf_eq_ok.2 ⟨p.head.ofHeader_toByteArray (by decide) _,
      (headOf_eq_ok (by decide)).2 ⟨p.head, p.data, hint, rfl, hwf.head, hhint, rfl⟩⟩
  have hgives : Gives .chained credential (p.head.verifiedHead .chained credential p.data hint)
      (furtherBytes .chained pre ++ front)
      (v.provider (v.asked ++ [p.data.info .chained hint])) (concat (first :: clears))
      (some fault) := by
    rw [hanswer]
    exact .opened (decrypt_verifiedHead_eq_ok.2 ⟨hne, rfl, hopens.head⟩) hunfolds
  refine decrypt_of_single hp hbegin (fun hlt => ?_) hgives
  change 1 < p.data.loop.index at hlt
  omega

end World

/-! ### Whole streams -/

/-- The bytes of a pass that are cut off are cut in its head, or in a further block or in front of
it. -/
theorem FramedPass.exists_of_cut {p : FramedPass} {bytes rest : ByteArray}
    (h : p.toByteArray format = bytes ++ rest) (hrest : rest ≠ .empty) :
    (∃ back : ByteArray, back ≠ .empty ∧ p.head.toByteArray format = bytes ++ back) ∨
    ∃ pre c f post front back, p.further = pre ++ (c, f) :: post ∧
      bytes = p.head.toByteArray format ++ (furtherBytes format pre ++ front) ∧
      c.toByteArray format = front ++ back ∧ back ≠ .empty := by
  have hparts : concat (p.head.toByteArray format :: p.further.map fun x => x.1.toByteArray format)
      = bytes ++ rest := h
  obtain ⟨pre, b, post, front, back, hsplit, hbytes, hb, hback⟩ :=
    SealedStream.exists_of_cut hparts hrest
  cases pre with
  | nil =>
    obtain ⟨rfl, -⟩ := List.cons.inj hsplit
    rw [concat_nil, ByteArray.empty_append] at hbytes
    exact .inl ⟨back, hback, hbytes ▸ hb⟩
  | cons b' pre =>
    obtain ⟨rfl, hfurther⟩ := List.cons.inj hsplit
    obtain ⟨pre', others, hfurther', rfl, hothers⟩ := List.map_eq_append_iff.1 hfurther
    obtain ⟨⟨c, f⟩, post', rfl, rfl, -⟩ := List.map_eq_cons_iff.1 hothers
    refine .inr ⟨pre', c, f, post', front, back, hfurther', ?_, hb, hback⟩
    rw [hbytes, concat_cons, ByteArray.append_assoc]
    rfl

/-- Some bytes begin others, and are not all of them. -/
def ProperPrefix (a b : ByteArray) : Prop :=
  ∃ rest : ByteArray, rest ≠ .empty ∧ b = a ++ rest

/-- Some bytes are the head of a pass and the first of its further blocks. -/
def FramedPass.EndsAtBlock (format : WireFormat) (p : FramedPass) (bytes : ByteArray) : Prop :=
  ∃ pre post, p.further = pre ++ post ∧
    bytes = p.head.toByteArray format ++ furtherBytes format pre

namespace World

variable {v : World} {p : FramedPass} {hint : Option String} {answer : Answer} {first : ByteArray}
  {rest : List ByteArray}

/-- What begins a pass of the chained format, or begins with one, is of the chained format itself if
it decrypts at all. -/
theorem readLE_version_of_decrypt {v' : World} {out : ByteArray} (hp : v.InPieces)
    (hhead : IsHead .chained credential p.data p.head)
    (hproper : ProperPrefix v.bytes (p.toByteArray .chained) ∨
      ProperPrefix (p.toByteArray .chained) v.bytes)
    (hok : v.decrypt credential = (.ok out, v')) :
    readLE (v.bytes.extract 32 34) = WireFormat.chained.version := by
  rcases hproper with ⟨rest', hrest', hw⟩ | ⟨rest', hrest', hw⟩
  · rcases FramedPass.exists_of_cut hw hrest' with
      ⟨back, hback, hcut⟩ | ⟨pre, c, f, post, front, back, -, hcut, -⟩
    · -- Without the whole head, nothing decrypts.
      obtain ⟨what, expected, actual, v'', herror⟩ := exists_decrypt_of_head_cut hp hhead hcut hback
      rw [hok] at herror
      cases herror
    · rw [hcut]
      exact p.head.readLE_version .chained _
  · rw [hw, FramedPass.toByteArray, ByteArray.append_assoc]
    exact p.head.readLE_version .chained _

/-- **A cut at the end of a block** behind the head: nothing is left where the last block should
be. -/
theorem exists_decrypt_of_endsAtBlock (hp : v.InPieces) (hwf : p.WellFormed .chained credential)
    (hhint : p.data.openHint credential = .ok hint)
    (hanswer : v.provider (v.asked ++ [p.data.info .chained hint]) = .ok answer)
    (hne : answer.password ≠ "")
    (hopens : p.Opens (p.data.derivation credential answer.password).key first rest)
    (hsingle : p.data.loop.index = 1) (hproper : ProperPrefix v.bytes (p.toByteArray .chained))
    (hends : p.EndsAtBlock .chained v.bytes) :
    ∃ v', v.decrypt credential = (.error .missingTerminal, v') := by
  obtain ⟨pre, post, hfurther, hcut⟩ := hends
  have hpost : post ≠ [] := by
    rintro rfl
    obtain ⟨rest', hrest', hw⟩ := hproper
    rw [List.append_nil] at hfurther
    rw [hcut, FramedPass.toByteArray, hfurther] at hw
    exact hrest' (append_inj (ByteArray.append_empty.trans hw) rfl).2.symm
  refine exists_decrypt_of_cut hp hwf hhint hanswer hne hopens hsingle hfurther hpost
    (fun _ _ _ hflags => nextOf_empty hflags) ?_
  rw [hcut, ByteArray.append_empty]

/-- **Any other cut** is in the head, or in a further block, and leaves too few bytes there. -/
theorem exists_decrypt_of_not_endsAtBlock (hp : v.InPieces)
    (hwf : p.WellFormed .chained credential) (hhint : p.data.openHint credential = .ok hint)
    (hanswer : v.provider (v.asked ++ [p.data.info .chained hint]) = .ok answer)
    (hne : answer.password ≠ "")
    (hopens : p.Opens (p.data.derivation credential answer.password).key first rest)
    (hsingle : p.data.loop.index = 1) (hproper : ProperPrefix v.bytes (p.toByteArray .chained))
    (hends : ¬ p.EndsAtBlock .chained v.bytes) :
    ∃ what expected actual v',
      v.decrypt credential = (.error (.sizeMismatch what expected actual), v') := by
  obtain ⟨rest', hrest', hw⟩ := hproper
  rcases FramedPass.exists_of_cut hw hrest' with
    ⟨back, hback, hhead⟩ | ⟨pre, c, f, post, front, back, hfurther, hcut, hc, hback⟩
  · exact exists_decrypt_of_head_cut hp hwf.head hhead hback
  · have hfront : front ≠ .empty := by
      rintro rfl
      rw [ByteArray.append_empty] at hcut
      exact hends ⟨pre, _, hfurther, hcut⟩
    have hrange : c.InRange .chained := by
      refine hwf.inRange c (List.mem_cons_of_mem _ ?_)
      rw [hfurther, List.map_append, List.map_cons]
      exact List.mem_append_right _ List.mem_cons_self
    obtain ⟨what, expected, actual, hnext⟩ :=
      exists_nextOf_of_cut (by decide) hrange hc hfront hback
    exact ⟨what, expected, actual, exists_decrypt_of_cut hp hwf hhint hanswer hne hopens hsingle
      hfurther (List.cons_ne_nil _ _) (fun keys tag flags _ => hnext keys tag flags) hcut⟩

end World

/-- **Streams of the chained format are prefix-free.**  Where a stream decrypts, its outermost pass
is a pass of the grammar, and no stream that begins it or that it begins decrypts.  If it is the
only pass, what begins it fails by where it is cut: at the end of a block behind the head the last
block is missing, and anywhere else there are too few bytes. -/
theorem prefixFree_of_decrypt {w w' : World} (hp : w.InPieces)
    (hv : readLE (w.bytes.extract 32 34) = WireFormat.chained.version)
    (h : w.decrypt credential = (.ok clear, w')) :
    (∀ v v' : World, ∀ out, v.InPieces →
      ProperPrefix v.bytes w.bytes ∨ ProperPrefix w.bytes v.bytes →
      v.decrypt credential ≠ (.ok out, v')) ∧
    ∃ p : FramedPass, w.bytes = p.toByteArray .chained ∧ p.WellFormed .chained credential ∧
      (p.data.loop.index = 1 → ∀ v : World, v.InPieces → v.provider = w.provider →
        v.asked = w.asked → ProperPrefix v.bytes w.bytes →
        (p.EndsAtBlock .chained v.bytes →
          ∃ v', v.decrypt credential = (.error .missingTerminal, v')) ∧
        (¬ p.EndsAtBlock .chained v.bytes → ∃ what expected actual v',
          v.decrypt credential = (.error (.sizeMismatch what expected actual), v'))) := by
  have hne : WireFormat.chained ≠ .message := by decide
  obtain ⟨outer, p, hint, answer, first, rest, hbytes, hwf, hhint, hanswer, hpassword, hopens, -⟩ :=
    World.holdsPass_of_decrypt hne hp hv h
  rw [hbytes]
  refine ⟨fun v v' out hpv hproper hok => ?_, p, rfl, hwf, fun hsingle v hpv hprovider hasked
    hproper => ?_⟩
  · -- The outermost pass of each is whole, and neither begins the other.
    have hvv := World.readLE_version_of_decrypt hpv hwf.head hproper hok
    obtain ⟨-, q, -, -, -, -, hvbytes, hwf', -⟩ := World.holdsPass_of_decrypt hne hpv hvv hok
    rw [hvbytes] at hproper
    rcases hproper with ⟨rest', hrest', hw⟩ | ⟨rest', hrest', hw⟩
    · exact hrest' (hwf'.eq_empty_of_append_eq hwf hw.symm)
    · exact hrest' (hwf.eq_empty_of_append_eq hwf' hw.symm)
  · have hanswer' : v.provider (v.asked ++ [p.data.info .chained hint]) = .ok answer := by
      rw [hprovider, hasked]
      exact hanswer
    exact ⟨World.exists_decrypt_of_endsAtBlock hpv hwf hhint hanswer' hpassword hopens hsingle
        hproper,
      World.exists_decrypt_of_not_endsAtBlock hpv hwf hhint hanswer' hpassword hopens hsingle
        hproper⟩

/-- Two bytes, encrypted in one pass: nothing that the cipher text begins or that begins it
decrypts. -/
theorem prefixFree_of_decrypt_twoBytes :
    ∃ w w' : World,
      (w.InPieces ∧ readLE (w.bytes.extract 32 34) = WireFormat.chained.version ∧
        w.decrypt ⟨.zeros 32⟩ = (.ok (ofList [1, 2]), w')) ∧
      ∀ v v' : World, ∀ out, v.InPieces →
        ProperPrefix v.bytes w.bytes ∨ ProperPrefix w.bytes v.bytes →
        v.decrypt ⟨.zeros 32⟩ ≠ (.ok out, v') := by
  have hclear : World.InPieces { input := [.data (ofList [1, 2])] } := by decide
  have hanswers : ∀ before info, Usable
      ((fun _ => .ok ⟨"secret", none⟩ : List PassInfo → _) (before ++ [info])) :=
    fun _ _ => ⟨_, rfl, by decide, by decide⟩
  obtain ⟨cipher, v, -, hthrough⟩ := World.exists_encrypt_eq (.single .aegis256) ⟨.zeros 32⟩
    (w := { input := [.data (ofList [1, 2])], provider := fun _ => .ok ⟨"secret", none⟩ })
    hclear hanswers
  obtain ⟨made, shown, -, -, hopens⟩ := hthrough.exists_shown
  obtain ⟨items, hitems, hbytes⟩ := exists_pieces cipher
  let w : World := { input := items, provider := fun _ => .ok ⟨"secret", none⟩ }
  have hv : readLE (w.bytes.extract 32 34) = WireFormat.chained.version := by
    rw [show w.bytes = cipher from hbytes]
    exact hthrough.readLE_version
  have hopens' : OpensThrough ⟨.zeros 32⟩ w.provider w.asked w.bytes (ofList [1, 2]) := by
    rw [show w.bytes = cipher from hbytes]
    exact hopens w.provider w.asked Nat.one_ne_zero
      fun _ _ _ _ _ _ _ _ _ => ⟨_, _, rfl, rfl, rfl⟩
  have hp : w.InPieces := hitems
  obtain ⟨w', hw'⟩ := World.decrypt_of_opensThrough hp hopens'
  exact ⟨w, w', ⟨hp, hv, hw'⟩, (prefixFree_of_decrypt hp hv hw').1⟩

end SealedStream
