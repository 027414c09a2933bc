import SealedStream.Proofs.Acceptance
import SealedStream.Proofs.Decryption
import SealedStream.Proofs.Schedule

/-!
# What is released of a stream that fails

A session gives the clear text of a block before it knows whether the next one is right.  So much is
given of a stream, whatever was done to it, and no more: the clear texts of the blocks at its front
that pass every check of their format (`World.Leads`).  Before the tag of the head has been found
right, nothing is given at all, neither metadata nor a question for a password.

* `releases_leading`: the clear texts that are handed out, the question that is asked, and what
  happens where the head is not signed.
-/

namespace SealedStream

open Decryptor

variable {w w' v v' : World} {credential : Credential} {format : WireFormat}

/-! ### Block by block -/

/-- All that a session on the input of a world hands out, block by block, and how it ends: it may
fail to start, or go through some blocks and then find the end or fail. -/
inductive World.Releases (w : World) (credential : Credential) :
    List ByteArray → Option Fault → World → Prop
  | unstarted {fault : Fault} {w' : World} :
    w.run (start credential) = (.error fault, w') → w.Releases credential [] (some fault) w'
  | ceased {d d' d'' : Decryptor} {v v' w' : World} {clears : List ByteArray}
      {outcome : Option Fault} :
    w.run (start credential) = (.ok d, v) → d.Runs v clears d' v' → d'.Ceases v' outcome d'' w' →
      w.Releases credential clears outcome w'

/-- What a session does behind its last block is told by its state. -/
theorem Decryptor.Ceases.eq {d d' d'' : Decryptor} {outcome outcome' : Option Fault}
    (h : d.Ceases w outcome d' v) (h' : d.Ceases w outcome' d'' v') :
    outcome = outcome' ∧ v = v' := by
  cases outcome with
  | none =>
    cases outcome' with
    | none =>
      have heq := h.2.1.symm.trans h'.2.1
      cases heq
      exact ⟨rfl, rfl⟩
    | some fault' => cases h.2.1.symm.trans h'.2
  | some fault =>
    cases outcome' with
    | none => cases h.2.symm.trans h'.2.1
    | some fault' =>
      have heq := h.2.symm.trans h'.2
      cases heq
      exact ⟨rfl, rfl⟩

/-- A session that ceases takes no step that others follow. -/
theorem Decryptor.Ceases.not_step {d d₁ d₂ d₃ d₄ : Decryptor} {outcome outcome' : Option Fault}
    {clear : ByteArray} {clears : List ByteArray} {w₁ w₂ w₃ w₄ : World}
    (h : d.Ceases w outcome d₁ w₁) (hrun : w.run (decryptBlock d) = ((.ok clear, d₂), w₂))
    (hruns : d₂.Runs w₂ clears d₃ w₃) (h' : d₃.Ceases w₃ outcome' d₄ w₄) : False := by
  cases outcome with
  | none =>
    obtain ⟨-, hend, hfinished⟩ := h
    cases hrun.symm.trans hend
    obtain ⟨-, rfl, -⟩ := hruns.eq_nil hfinished
    exact h'.1 hfinished
  | some fault => cases hrun.symm.trans h.2

/-- **The run of a session is told by its start.** -/
theorem Decryptor.Runs.eq_of_ceases {d d₁ d₁' d₂ d₂' : Decryptor} {clears clears' : List ByteArray}
    {outcome outcome' : Option Fault} {w₁ w₁' w₂ w₂' : World} (h : d.Runs w clears d₁ w₁)
    (hc : d₁.Ceases w₁ outcome d₁' w₁') (h' : d.Runs w clears' d₂ w₂)
    (hc' : d₂.Ceases w₂ outcome' d₂' w₂') : clears = clears' ∧ outcome = outcome' ∧ w₁' = w₂' := by
  induction h generalizing clears' with
  | nil =>
    cases h' with
    | nil => exact ⟨rfl, hc.eq hc'⟩
    | step hrun hruns => exact (hc.not_step hrun hruns hc').elim
  | step hrun hruns ih =>
    cases h' with
    | nil => exact (hc'.not_step hrun hruns hc).elim
    | step hrun' hruns' =>
      cases hrun.symm.trans hrun'
      obtain ⟨rfl, hrest⟩ := ih hc hruns'
      exact ⟨rfl, hrest⟩

theorem World.Releases.eq {clears clears' : List ByteArray} {outcome outcome' : Option Fault}
    (h : w.Releases credential clears outcome v) (h' : w.Releases credential clears' outcome' v') :
    clears' = clears ∧ outcome' = outcome ∧ v' = v := by
  cases h with
  | unstarted hstart =>
    cases h' with
    | unstarted hstart' =>
      cases hstart.symm.trans hstart'
      exact ⟨rfl, rfl, rfl⟩
    | ceased hstart' => cases hstart.symm.trans hstart'
  | ceased hstart hruns hc =>
    cases h' with
    | unstarted hstart' => cases hstart.symm.trans hstart'
    | ceased hstart' hruns' hc' =>
      cases hstart.symm.trans hstart'
      obtain ⟨rfl, rfl, rfl⟩ := hruns.eq_of_ceases hc hruns' hc'
      exact ⟨rfl, rfl, rfl⟩

/-- There is one way in which a session goes. -/
theorem World.Releases.iff {clears clears' : List ByteArray} {outcome outcome' : Option Fault}
    (h : w.Releases credential clears outcome v) :
    w.Releases credential clears' outcome' v' ↔
      clears' = clears ∧ outcome' = outcome ∧ v' = v := by
  constructor
  · exact fun h' => h.eq h'
  · rintro ⟨rfl, rfl, rfl⟩
    exact h

/-! ### Where nothing is asked -/

namespace World

/-- Questions are never forgotten. -/
theorem asked_prefix_run {α : Type} (p : Program Host α) (w : World) :
    w.asked <+: (w.run p).2.asked := by
  induction p generalizing w with
  | done a => exact List.prefix_rfl
  | ask r next ih =>
    have hrest := ih (answer r w).1 (answer r w).2
    cases r with
    | read n => exact hrest
    | draw n => exact hrest
    | derive d => exact hrest
    | password info => exact (List.prefix_append w.asked [info]).trans hrest

/-- **A program that asks nothing** does the same whatever the answers would be. -/
theorem run_withProvider {α : Type} (provider : List PassInfo → Except Fault Answer)
    (p : Program Host α) (w : World) (h : (w.run p).2.asked = w.asked) :
    run p { w with provider } = ((w.run p).1, { (w.run p).2 with provider }) := by
  induction p generalizing w with
  | done a => rfl
  | ask r next ih =>
    have hrest := asked_prefix_run (next (answer r w).1) (answer r w).2
    cases r with
    | read n => exact ih (answer (.read n) w).1 (answer (.read n) w).2 h
    | draw n => exact ih (answer (.draw n) w).1 (answer (.draw n) w).2 h
    | derive d => exact ih (answer (.derive d) w).1 (answer (.derive d) w).2 h
    | password info =>
      -- One question more would be remembered.
      have hprefix : w.asked ++ [info] <+: w.asked :=
        hrest.trans (h.symm ▸ List.prefix_rfl)
      have hlength := hprefix.length_le
      rw [List.length_append, List.length_singleton] at hlength
      omega

end World

theorem Decryptor.Runs.asked_prefix {d d' : Decryptor} {clears : List ByteArray}
    (h : d.Runs w clears d' w') : w.asked <+: w'.asked := by
  induction h with
  | nil => exact List.prefix_rfl
  | @step d _ _ w _ _ _ _ hrun _ ih =>
    have hstep := World.asked_prefix_run (decryptBlock d) w
    rw [hrun] at hstep
    exact hstep.trans ih

theorem Decryptor.Runs.withProvider {d d' : Decryptor} {clears : List ByteArray}
    (h : d.Runs w clears d' w') (hasked : w'.asked = w.asked)
    (provider : List PassInfo → Except Fault Answer) :
    d.Runs { w with provider } clears d' { w' with provider } := by
  induction h with
  | nil => exact .nil
  | @step d _ _ w v _ _ _ hrun hruns ih =>
    have hstep := World.asked_prefix_run (decryptBlock d) w
    rw [hrun] at hstep
    have hrest := hruns.asked_prefix
    rw [hasked] at hrest
    have hsame : v.asked = w.asked :=
      List.IsPrefix.eq_of_length_le hrest hstep.length_le
    have hrun' := World.run_withProvider provider (decryptBlock d) w (by rw [hrun]; exact hsame)
    rw [hrun] at hrun'
    exact .step hrun' (ih (hasked.trans hsame.symm))

/-- **Where nothing is asked, the answers do not matter.** -/
theorem World.Releases.withProvider {clears : List ByteArray} {outcome : Option Fault}
    (h : w.Releases credential clears outcome w') (hasked : w'.asked = w.asked)
    (provider : List PassInfo → Except Fault Answer) :
    World.Releases { w with provider } credential clears outcome { w' with provider } := by
  cases h with
  | unstarted hstart =>
    have hstart' := run_withProvider provider (start credential) w (by rw [hstart]; exact hasked)
    rw [hstart] at hstart'
    exact .unstarted hstart'
  | @ceased d d' d'' v v' _ _ _ hstart hruns hc =>
    have h1 := asked_prefix_run (start credential) w
    rw [hstart] at h1
    have h2 := hruns.asked_prefix
    have h3 := asked_prefix_run (decryptBlock d') v'
    have hlast : (v'.run (decryptBlock d')).2 = w' := by
      cases outcome with
      | none => rw [hc.2.1]
      | some fault => rw [hc.2]
    rw [hlast, hasked] at h3
    have hv' : v'.asked = w.asked :=
      List.IsPrefix.eq_of_length_le h3 (h1.trans h2).length_le
    have hv : v.asked = w.asked :=
      List.IsPrefix.eq_of_length_le (h2.trans (hv' ▸ List.prefix_rfl)) h1.length_le
    have hstart' := run_withProvider provider (start credential) w (by rw [hstart]; exact hv)
    rw [hstart] at hstart'
    have hstep := run_withProvider provider (decryptBlock d') v' (by rw [hlast, hasked, hv'])
    have hceases : d'.Ceases { v' with provider } outcome d'' { w' with provider } := by
      refine ⟨hc.1, ?_⟩
      rw [hstep, hlast]
      cases outcome with
      | none =>
        rw [hc.2.1]
        exact ⟨rfl, hc.2.2⟩
      | some fault => rw [hc.2]
    exact .ceased hstart' (hruns.withProvider (hv'.trans hv.symm) provider) hceases

/-! ### The head -/

/-- The bytes `all` begin with the block `b`, which is in its place as the head of a pass, and whose
tag covers it: it has the fields `h`, and `after` follows it. -/
inductive BeginsWith (credential : Credential) (all : ByteArray) :
    WireFormat → HeadData → WireBlock → ByteArray → Prop
  | message {h : HeadData} {b : WireBlock} :
    WireFormat.ofHeader (all.extract 0 Limits.headerBytes) = .ok .message →
      all = b.messageBytes → all.size ≤ Limits.headerBytes + Limits.payloadMax →
      IsMessage credential h b → BeginsWith credential all .message h b .empty
  | framed {format : WireFormat} {h : HeadData} {b : WireBlock} {after : ByteArray} :
    format ≠ .message → all = b.toByteArray format ++ after → IsHead format credential h b →
      BeginsWith credential all format h b after

namespace BeginsWith

variable {all after after' : ByteArray} {format format' : WireFormat} {h h' : HeadData}
  {b b' : WireBlock}

theorem ofHeader_eq (hb : BeginsWith credential all format h b after) :
    WireFormat.ofHeader (all.extract 0 Limits.headerBytes) = .ok format := by
  cases hb with
  | message hformat => exact hformat
  | framed hf hall =>
    rw [hall]
    exact b.ofHeader_toByteArray hf after

theorem eq_empty (hb : BeginsWith credential all format h b after) :
    format = .message → after = .empty := by
  intro hf
  cases hb with
  | message => rfl
  | framed hne => exact absurd hf hne

theorem inRange (hb : BeginsWith credential all format h b after) (hf : format ≠ .message) :
    b.InRange format := by
  cases hb with
  | message => exact absurd rfl hf
  | framed _ _ hhead => exact hhead.inRange

/-- **There is no more than one head** that some bytes begin with. -/
theorem eq (hb : BeginsWith credential all format h b after)
    (hb' : BeginsWith credential all format' h' b' after') :
    format' = format ∧ h' = h ∧ b' = b ∧ after' = after := by
  obtain rfl := Except.ok.inj (hb.ofHeader_eq.symm.trans hb'.ofHeader_eq)
  cases hb with
  | message _ hall _ hmessage =>
    cases hb' with
    | message _ hall' _ hmessage' =>
      obtain ⟨rfl, rfl⟩ := hmessage'.eq hmessage (hall'.symm.trans hall)
      exact ⟨rfl, rfl, rfl, rfl⟩
    | framed hne => exact absurd rfl hne
  | framed hf hall hhead =>
    cases hb' with
    | message => exact absurd rfl hf
    | framed _ hall' hhead' =>
      obtain ⟨-, hflags, hpayload, rfl⟩ :=
        Frame.toByteArray_inj hf hhead'.inRange hhead.inRange (hall'.symm.trans hall)
      obtain ⟨rfl, rfl⟩ := hhead'.eq hhead hpayload (WireBlock.terminal_eq_of_flags_eq hflags)
      exact ⟨rfl, rfl, rfl, rfl⟩

/-- **A pass begins with a verified head** if its bytes begin with a head whose hint opens. -/
theorem beginOf_eq_ok_iff {head : VerifiedHead} :
    beginOf credential all = .ok (format, head, after) ↔
      ∃ h b hint, BeginsWith credential all format h b after ∧ h.openHint credential = .ok hint ∧
        head = b.verifiedHead format credential h hint := by
  rw [beginOf_eq_ok]
  constructor
  · rintro ⟨hformat, hok⟩
    by_cases hf : format = .message
    · subst hf
      obtain ⟨b, h, hint, hall, rfl, hsize, hmessage, hhint, rfl⟩ := headOf_message_eq_ok.1 hok
      exact ⟨h, b, hint, .message hformat hall hsize hmessage, hhint, rfl⟩
    · obtain ⟨b, h, hint, hall, hhead, hhint, rfl⟩ := (headOf_eq_ok hf).1 hok
      exact ⟨h, b, hint, .framed hf hall hhead, hhint, rfl⟩
  · rintro ⟨h, b, hint, hb, hhint, rfl⟩
    refine ⟨hb.ofHeader_eq, ?_⟩
    cases hb with
    | message _ hall hsize hmessage =>
      exact headOf_message_eq_ok.2 ⟨b, h, hint, hall, rfl, hsize, hmessage, hhint, rfl⟩
    | framed hf hall hhead => exact (headOf_eq_ok hf).2 ⟨b, h, hint, hall, hhead, hhint, rfl⟩

end BeginsWith

/-! ### Further blocks -/

/-- Blocks at the front of the bytes ahead, behind the block `b`, that pass every check: each is
signed after the one before it, none follows one that says that it is the last, and their texts open
to the clear texts given. -/
structure Follows (format : WireFormat) (keys : PassKeys) (b : WireBlock) (ahead : ByteArray)
    (further : List (WireBlock × FurtherData)) (clears : List ByteArray) : Prop where
  bytes : ∃ behind, ahead = furtherBytes format further ++ behind
  linked : Linked format keys.signing b.tag further
  goesOn : ∀ c ∈ (b :: further.map Prod.fst).dropLast, c.terminal = false
  opens : List.Forall₂ (OpensTo keys.cipher) further clears

namespace Follows

variable {keys : PassKeys} {b c : WireBlock} {f : FurtherData} {ahead clear : ByteArray}
  {further : List (WireBlock × FurtherData)} {clears : List ByteArray}

theorem nil : Follows format keys b ahead [] [] where
  bytes := ⟨ahead, ByteArray.empty_append.symm⟩
  linked := trivial
  goesOn := fun _ hc => nomatch hc
  opens := .nil

/-- The first of some blocks that follow, and those behind it. -/
theorem cons_iff :
    Follows format keys b ahead ((c, f) :: further) (clear :: clears) ↔
      (∃ after, ahead = c.toByteArray format ++ after ∧
        Follows format keys c after further clears) ∧
        IsFurther format keys.signing (format.previous b.tag) f c ∧ b.terminal = false ∧
        OpensTo keys.cipher (c, f) clear := by
  constructor
  · rintro ⟨⟨behind, rfl⟩, ⟨hc, hlinked⟩, hgoes, hopens⟩
    rw [List.map_cons, List.dropLast_cons_cons] at hgoes
    cases hopens with
    | cons hclear hopens =>
      exact ⟨⟨furtherBytes format further ++ behind, ByteArray.append_assoc, ⟨behind, rfl⟩, hlinked,
        fun c' hc' => hgoes c' (List.mem_cons_of_mem _ hc'), hopens⟩, hc,
        hgoes b List.mem_cons_self, hclear⟩
  · rintro ⟨⟨after, rfl, ⟨behind, rfl⟩, hlinked, hgoes, hopens⟩, hc, hb, hclear⟩
    refine ⟨⟨behind, ByteArray.append_assoc.symm⟩, ⟨hc, hlinked⟩, fun c' hc' => ?_,
      .cons hclear hopens⟩
    rw [List.map_cons, List.dropLast_cons_cons] at hc'
    rcases List.mem_cons.1 hc' with rfl | hc'
    · exact hb
    · exact hgoes c' hc'

/-- As many blocks follow as open. -/
theorem eq_nil_or_cons (h : Follows format keys b ahead further clears) :
    (further = [] ∧ clears = []) ∨ ∃ c f further' clear clears',
      further = (c, f) :: further' ∧ clears = clear :: clears' := by
  cases further with
  | nil =>
    cases h.opens
    exact .inl ⟨rfl, rfl⟩
  | cons block further' =>
    rcases block with ⟨c, f⟩
    cases clears with
    | nil => cases h.opens
    | cons clear clears' => exact .inr ⟨c, f, further', clear, clears', rfl, rfl⟩

/-- Where no block opens, none follows. -/
theorem eq_nil_of_nextOf (hm : format = .message → ahead = .empty)
    (hb : format ≠ .message → b.InRange format)
    (hnone : ∀ opened, nextOf format keys b.tag b.flags ahead ≠ .ok (some opened))
    (h : Follows format keys b ahead further clears) : further = [] ∧ clears = [] := by
  rcases h.eq_nil_or_cons with hnil | ⟨c, f, further', clear, clears', rfl, rfl⟩
  · exact hnil
  · obtain ⟨⟨after, hahead, -⟩, hc, hgoes, hclear⟩ := cons_iff.1 h
    have hf : format ≠ .message := by
      intro hf
      have hempty := congrArg ByteArray.size (hahead.symm.trans (hm hf))
      rw [ByteArray.size_append, WireBlock.size_toByteArray] at hempty
      have h38 : Limits.headerBytes = 38 := rfl
      have h0 : ByteArray.size .empty = 0 := rfl
      omega
    refine absurd ((nextOf_eq_some hf).2 ?_) (hnone ⟨c.tag, c.flags, clear, after⟩)
    exact ⟨c, f, hahead, hc, (hb hf).may_go_on_iff.2 hgoes, hclear, rfl, rfl⟩

/-- **Blocks that follow begin with the block that does**, and it opens to the same. -/
theorem prefix_cons (hf : format ≠ .message) {after : ByteArray}
    (hc : IsFurther format keys.signing (format.previous b.tag) f c)
    (hclear : OpensTo keys.cipher (c, f) clear)
    (hmax : ∀ further' clears', Follows format keys c after further' clears' →
      further' <+: further ∧ clears' <+: clears)
    {further' : List (WireBlock × FurtherData)} {clears' : List ByteArray}
    (h : Follows format keys b (c.toByteArray format ++ after) further' clears') :
    further' <+: (c, f) :: further ∧ clears' <+: clear :: clears := by
  rcases h.eq_nil_or_cons with ⟨rfl, rfl⟩ | ⟨c', f', further'', clear', clears'', rfl, rfl⟩
  · exact ⟨List.nil_prefix, List.nil_prefix⟩
  · -- The first block is the same in both, and so is what it opens to.
    obtain ⟨⟨after', hahead, hbehind⟩, hc', -, hclear'⟩ := cons_iff.1 h
    obtain ⟨-, hsame, hpayload, rfl⟩ := Frame.toByteArray_inj hf hc.inRange hc'.inRange hahead
    obtain ⟨rfl, rfl⟩ := hc.eq hc' hpayload (WireBlock.terminal_eq_of_flags_eq hsame)
    obtain rfl := Except.ok.inj (hclear.symm.trans hclear')
    obtain ⟨hfurther, hclears⟩ := hmax further'' clears'' hbehind
    exact ⟨List.prefix_cons_inj _ |>.2 hfurther, List.prefix_cons_inj _ |>.2 hclears⟩

end Follows

/-- **Blocks that open are the first blocks that follow**, and there are no more of them.  The
induction is on what opens; `b` is the block behind which it does. -/
theorem exists_follows_of_unfolds {keys : PassKeys} {b : WireBlock} {ahead : ByteArray}
    {clears : List ByteArray} {outcome : Option Fault} (hm : format = .message → ahead = .empty)
    (hb : format ≠ .message → b.InRange format)
    (h : Unfolds format keys b.tag b.flags ahead clears outcome) :
    ∃ further, Follows format keys b ahead further clears ∧
      ∀ further' clears', Follows format keys b ahead further' clears' →
        further' <+: further ∧ clears' <+: clears := by
  generalize htag : b.tag = tag at h
  generalize hflags : b.flags = flags at h
  induction h generalizing b with
  | finished hnext =>
    subst htag hflags
    refine ⟨[], .nil, fun further' clears' hfollows => ?_⟩
    obtain ⟨rfl, rfl⟩ := hfollows.eq_nil_of_nextOf hm hb (by rw [hnext]; simp)
    exact ⟨List.prefix_rfl, List.prefix_rfl⟩
  | failed hnext =>
    subst htag hflags
    refine ⟨[], .nil, fun further' clears' hfollows => ?_⟩
    obtain ⟨rfl, rfl⟩ := hfollows.eq_nil_of_nextOf hm hb (by rw [hnext]; simp)
    exact ⟨List.prefix_rfl, List.prefix_rfl⟩
  | block hnext _ ih =>
    rename_i opened clears outcome _
    subst htag hflags
    have hf := ne_message_of_nextOf hm hnext
    obtain ⟨c, f, rfl, hc, hlast, hclear, hctag, hcflags⟩ := (nextOf_eq_some hf).1 hnext
    have hgoes := (hb hf).may_go_on_iff.1 hlast
    obtain ⟨further, hfollows, hmax⟩ :=
      ih (fun h => absurd h hf) (fun _ => hc.inRange) hctag.symm hcflags.symm
    refine ⟨(c, f) :: further, Follows.cons_iff.2 ⟨⟨_, rfl, hfollows⟩, hc, hgoes, hclear⟩, ?_⟩
    intro further' clears' hfollows'
    exact hfollows'.prefix_cons hf hc hclear hmax

/-! ### All blocks -/

/-- Blocks at the front of the bytes `all` that pass every check of their format, in the order of
the wire, and their clear texts: the head is in its place and signed, its hint opens, the question
for its password is answered with one that is not empty, its text opens, and further blocks
follow. -/
inductive Leads (credential : Credential) (provider : List PassInfo → Except Fault Answer)
    (asked : List PassInfo) (all : ByteArray) : List WireBlock → List ByteArray → Prop
  | nothing : Leads credential provider asked all [] []
  | blocks {format : WireFormat} {h : HeadData} {b : WireBlock} {after : ByteArray}
      {hint : Option String} {answer : Answer} {first : ByteArray} {rest : List ByteArray}
      {further : List (WireBlock × FurtherData)} :
    BeginsWith credential all format h b after → h.openHint credential = .ok hint →
      provider (asked ++ [h.info format hint]) = .ok answer → answer.password ≠ "" →
      h.algorithm.decrypt (h.derivation credential answer.password).key h.iv b.text b.associated
        = .ok first →
      Follows format (h.keys credential answer.password) b after further rest →
      Leads credential provider asked all (b :: further.map Prod.fst) (first :: rest)

/-- What may be known of a pass without its password: its bytes begin with a head, whose hint
opens. -/
def Shows (credential : Credential) (all : ByteArray) (info : PassInfo) : Prop :=
  ∃ format h b after hint, BeginsWith credential all format h b after ∧
    h.openHint credential = .ok hint ∧ info = h.info format hint

theorem shows_iff {all : ByteArray} {info : PassInfo} :
    Shows credential all info ↔
      ∃ format head after, beginOf credential all = .ok (format, head, after) ∧
        info = head.info := by
  simp only [BeginsWith.beginOf_eq_ok_iff]
  constructor
  · rintro ⟨format, h, b, after, hint, hb, hhint, rfl⟩
    exact ⟨format, _, after, ⟨h, b, hint, hb, hhint, rfl⟩, rfl⟩
  · rintro ⟨format, head, after, ⟨h, b, hint, hb, hhint, rfl⟩, rfl⟩
    exact ⟨format, h, b, after, hint, hb, hhint, rfl⟩

section whole

variable {provider : List PassInfo → Except Fault Answer} {asked : List PassInfo}
  {all after : ByteArray} {head : VerifiedHead} {blocks : List WireBlock}
  {clears : List ByteArray}

/-- Blocks that pass every check begin with a head that opens. -/
theorem Leads.exists_opened (h : Leads credential provider asked all blocks clears) :
    (blocks = [] ∧ clears = []) ∨
    ∃ format f b hint answer after first rest further,
      beginOf credential all = .ok (format, b.verifiedHead format credential f hint, after) ∧
      (provider (asked ++ [f.info format hint])
          >>= (b.verifiedHead format credential f hint).decrypt credential)
        = .ok (f.keys credential answer, first) ∧
      BeginsWith credential all format f b after ∧ f.openHint credential = .ok hint ∧
      Follows format (f.keys credential answer) b after further rest ∧
      blocks = b :: further.map Prod.fst ∧ clears = first :: rest := by
  cases h with
  | nothing => exact .inl ⟨rfl, rfl⟩
  | @blocks format f b after hint answer first rest further hb hhint hanswer hne hfirst hfollows =>
    refine .inr ⟨format, f, b, hint, answer.password, after, first, rest, further,
      BeginsWith.beginOf_eq_ok_iff.2 ⟨f, b, hint, hb, hhint, rfl⟩, ?_, hb, hhint, hfollows, rfl,
      rfl⟩
    exact bind_eq_ok.2 ⟨answer, hanswer, decrypt_verifiedHead_eq_ok.2 ⟨hne, rfl, hfirst⟩⟩

/-- **The blocks that pass every check** are those that open, where the head does. -/
theorem exists_leads_of_unfolds {keys : PassKeys} {first : ByteArray} {outcome : Option Fault}
    (hbegin : beginOf credential all = .ok (format, head, after))
    (hopen : (provider (asked ++ [head.info]) >>= head.decrypt credential) = .ok (keys, first))
    (hunfolds : Unfolds format keys head.tag head.flags after clears outcome) :
    ∃ blocks, Leads credential provider asked all blocks (first :: clears) ∧
      ∀ blocks' clears', Leads credential provider asked all blocks' clears' →
        blocks' <+: blocks ∧ clears' <+: first :: clears := by
  obtain ⟨f, b, hint, hb, hhint, rfl⟩ := BeginsWith.beginOf_eq_ok_iff.1 hbegin
  obtain ⟨answer, hanswer, hdecrypt⟩ := bind_eq_ok.1 hopen
  obtain ⟨hne, rfl, hfirst⟩ := decrypt_verifiedHead_eq_ok.1 hdecrypt
  obtain ⟨further, hfollows, hmax⟩ := exists_follows_of_unfolds hb.eq_empty hb.inRange hunfolds
  refine ⟨_, .blocks hb hhint hanswer hne hfirst hfollows, fun blocks' clears' h => ?_⟩
  rcases h.exists_opened with ⟨rfl, rfl⟩ |
    ⟨_, _, _, _, _, _, _, rest', further', -, hopen', hb', hhint', hfollows', rfl, rfl⟩
  · exact ⟨List.nil_prefix, List.nil_prefix⟩
  · -- The head is the same, and so are the keys.
    obtain ⟨rfl, rfl, rfl, rfl⟩ := hb.eq hb'
    obtain rfl := Except.ok.inj (hhint.symm.trans hhint')
    obtain ⟨hkeys, rfl⟩ := Prod.mk.inj (Except.ok.inj (hopen.symm.trans hopen'))
    rw [← hkeys] at hfollows'
    obtain ⟨hfurther, hclears⟩ := hmax further' rest' hfollows'
    exact ⟨(List.prefix_cons_inj _).2 (hfurther.map _), (List.prefix_cons_inj _).2 hclears⟩

end whole

/-! ### Whole sessions -/

section session

variable {head : VerifiedHead} {after : ByteArray}

/-- Starting a session asks nothing. -/
theorem Decryptor.asked_of_run_start (hp : w.InPieces) {result : Except Fault Decryptor}
    (hrun : w.run (start credential) = (result, v)) : v.asked = w.asked := by
  have hb : ({} : ChunkReader).Before (unaskedSupply w.bytes w.asked w.provider) w.bytes w.bytes
      () w := by
    refine ⟨.empty, ?_, ByteArray.empty_append.symm⟩
    rw [ByteArray.empty_append]
    exact unaskedSupply_start hp
  have hm := ChunkReader.meets_readFill_before (supplies_unasked _ _ _) (total_unaskedSupply _ _ _)
    Limits.headerBytes false hb
  obtain ⟨chunk, r, v', hread, -, hr, -⟩ := (hm.mono (fun _ _ _ _ h => h) (by simp)).exists_run_ok
  have hstart : start credential
      = ChunkReader.readFill Limits.headerBytes false {} >>= fun x => pure (do
        let chunk ← x.1
        let format ← WireFormat.ofHeader chunk.bytes
        return { format, credential, reader := x.2, header := chunk.bytes }) := rfl
  rw [hstart, World.run_bind, hread] at hrun
  cases hrun
  exact hr.asked_eq.1

/-- **Where no head is verified**, nothing is handed out and nothing is asked. -/
theorem World.exists_releases_of_begin_error (hp : w.InPieces) {fault : Fault}
    (hbegin : beginOf credential w.bytes = .error fault) :
    ∃ fault w', w.Releases credential [] (some fault) w' ∧ w'.asked = w.asked := by
  rcases hstart : w.run (start credential) with ⟨fault' | d, v⟩
  · exact ⟨fault', v, .unstarted hstart, asked_of_run_start hp hstart⟩
  · obtain ⟨hformat, rfl, hfresh⟩ := fresh_of_run_start hp hstart
    have hnone : ∀ opened, headOf d.format d.credential w.bytes ≠ .ok opened := by
      rintro ⟨head, ahead⟩ hok
      cases hbegin.symm.trans (beginOf_eq_ok.2 ⟨hformat, hok⟩)
    have hm := (meets_decryptBlock_of_initialized hfresh.stage).2
      (meets_decryptHead (supplies_unasked _ _ _) (total_unaskedSupply _ _ _) (asks_unasked _ _ _)
        (fun _ => stable_unaskedSupply _ _ _) hfresh)
    obtain ⟨fault, d', w', hrun, hfault⟩ := (hm.mono
      (fun _ _ _ _ h => by
        obtain ⟨head, ahead, hok, -⟩ := h
        exact hnone _ hok) fun _ _ _ _ h => h).exists_run_error
    refine ⟨fault, w', .ceased hstart .nil ⟨hfresh.not_finished, hrun⟩, ?_⟩
    rcases hfault with h | ⟨-, given, ended, hsrc⟩ | ⟨head, ahead, -, hok, -⟩
    · exact h.elim
    · exact hsrc.2.1
    · exact (hnone _ hok).elim

/-- **Where a head is verified**, one question is asked, and what is handed out is what the head and
the blocks behind it open to. -/
theorem World.exists_releases_of_begin_ok (hp : w.InPieces)
    (hbegin : beginOf credential w.bytes = .ok (format, head, after)) :
    ∃ blocks clears outcome w', w.Releases credential clears outcome w' ∧
      w'.asked = w.asked ++ [head.info] ∧
      Leads credential w.provider w.asked w.bytes blocks clears ∧
      ∀ blocks' clears', Leads credential w.provider w.asked w.bytes blocks' clears' →
        blocks' <+: blocks ∧ clears' <+: clears := by
  obtain ⟨d, v, hstart, rfl, rfl, hfresh⟩ := exists_run_start hp hbegin
  have hok := (beginOf_eq_ok.1 hbegin).2
  cases hopen : w.provider (w.asked ++ [head.info]) >>= head.decrypt d.credential with
  | error fault =>
    -- The head is not decrypted, so no block passes every check.
    have hm := (meets_decryptBlock_of_initialized hfresh.stage).2
      (meets_decryptHead (supplies_unasked _ _ _) (total_unaskedSupply _ _ _) (asks_unasked _ _ _)
        (fun _ => stable_unaskedSupply _ _ _) hfresh)
    obtain ⟨fault, d', w', hrun, hfault⟩ := (hm.mono
      (fun _ _ _ _ h => by
        obtain ⟨head', ahead', hok', hopened⟩ := h
        cases hok.symm.trans hok'
        obtain ⟨answer, keys, hanswer, hdecrypt, -⟩ := hopened.opened
        have hopen' := bind_eq_ok.2 ⟨answer, hanswer.symm, hdecrypt⟩
        cases hopen.symm.trans hopen') fun _ _ _ _ h => h).exists_run_error
    refine ⟨[], [], some fault, w', .ceased hstart .nil ⟨hfresh.not_finished, hrun⟩, ?_, .nothing,
      fun blocks' clears' h => ?_⟩
    · rcases hfault with h | ⟨⟨fault', herror, -⟩, -⟩ |
        ⟨head', _, -, hok', -, -, given, ended, hsrc⟩
      · exact h.elim
      · cases hok.symm.trans herror
      · cases hok.symm.trans hok'
        exact hsrc.2.1
    · rcases h.exists_opened with ⟨rfl, rfl⟩ | ⟨_, _, _, _, _, _, _, _, _, hbegin', hopen', -⟩
      · exact ⟨List.prefix_rfl, List.prefix_rfl⟩
      · obtain ⟨-, hrest⟩ := Prod.mk.inj (Except.ok.inj (hbegin.symm.trans hbegin'))
        obtain ⟨rfl, -⟩ := Prod.mk.inj hrest
        cases hopen.symm.trans hopen'
  | ok opened =>
    obtain ⟨keys, first⟩ := opened
    obtain ⟨d', v', hhead, hformat, -, hbetween⟩ := exists_run_decryptHead hfresh hok hopen
    obtain ⟨rest, outcome, hunfolds⟩ :=
      exists_unfolds (eq_empty_of_headOf hok) keys head.tag head.flags
    obtain ⟨d₁, v₁, d₂, w', hruns, hceases, hasked⟩ :=
      runs_of_unfolds (hformat ▸ hunfolds) hbetween
    obtain ⟨blocks, hleads, hmax⟩ := exists_leads_of_unfolds hbegin hopen hunfolds
    exact ⟨blocks, _, outcome, w', .ceased hstart (.step hhead hruns) hceases, hasked, hleads, hmax⟩

/-- **What is released of a stream that fails.**  Whatever the bytes of the input are, a session
hands out exactly the clear texts of the blocks at their front that pass every check, and there is a
longest such sequence of blocks.  It asks one question if a head shows its metadata, and it is about
these; it asks none otherwise.  Where no head is signed, there is a fault, nothing is shown, and
nothing depends on the answers to questions. -/
theorem releases_leading (hp : w.InPieces) :
    ∃ (blocks : List WireBlock) (clears : List ByteArray) (outcome : Option Fault) (w' : World),
      (∀ clears' outcome' v, w.Releases credential clears' outcome' v ↔
        clears' = clears ∧ outcome' = outcome ∧ v = w') ∧
      Leads credential w.provider w.asked w.bytes blocks clears ∧
      (∀ blocks' clears', Leads credential w.provider w.asked w.bytes blocks' clears' →
        blocks' <+: blocks ∧ clears' <+: clears) ∧
      (∀ info, Shows credential w.bytes info → w'.asked = w.asked ++ [info]) ∧
      ((∀ info, ¬ Shows credential w.bytes info) → w'.asked = w.asked) ∧
      ((∀ format h b after, ¬ BeginsWith credential w.bytes format h b after) →
        clears = [] ∧ (∃ fault, outcome = some fault) ∧
        (∃ fault v, w.run (openPass credential) = (.error fault, v)) ∧
        ∀ provider, World.Releases { w with provider } credential [] outcome
          { w' with provider }) := by
  cases hbegin : beginOf credential w.bytes with
  | error fault =>
    have hnone : ∀ info, ¬ Shows credential w.bytes info := by
      intro info hshows
      obtain ⟨format, head, after, hok, -⟩ := shows_iff.1 hshows
      cases hbegin.symm.trans hok
    obtain ⟨fault, w', hreleases, hasked⟩ := World.exists_releases_of_begin_error hp hbegin
    refine ⟨[], [], some fault, w', fun _ _ _ => hreleases.iff, .nothing,
      fun blocks' clears' h => ?_, fun info hshows => absurd hshows (hnone info), fun _ => hasked,
      fun _ => ⟨rfl, ⟨fault, rfl⟩, ?_, hreleases.withProvider hasked⟩⟩
    · rcases h.exists_opened with ⟨rfl, rfl⟩ | ⟨_, _, _, _, _, _, _, _, _, hok, -⟩
      · exact ⟨List.prefix_rfl, List.prefix_rfl⟩
      · cases hbegin.symm.trans hok
    · -- Nothing is shown, either.
      rcases hopen : w.run (openPass credential) with ⟨fault' | opened, v⟩
      · exact ⟨fault', v, rfl⟩
      · have hends : Ends Source.host (openPass credential) () w _ _ :=
          ends_openPass (supplies_unasked w.bytes w.asked w.provider) (total_unaskedSupply _ _ _)
            (unaskedSupply_start hp)
        obtain ⟨head, after, hok, -⟩ := hends.of_run_ok hopen
        cases hbegin.symm.trans hok
  | ok opened =>
    obtain ⟨format, head, after⟩ := opened
    obtain ⟨blocks, clears, outcome, w', hreleases, hasked, hleads, hmax⟩ :=
      World.exists_releases_of_begin_ok hp hbegin
    refine ⟨blocks, clears, outcome, w', fun _ _ _ => hreleases.iff, hleads, hmax,
      fun info hshows => ?_,
      fun hnone => ?_, fun hnone => ?_⟩
    · obtain ⟨format', head', after', hok, rfl⟩ := shows_iff.1 hshows
      cases hbegin.symm.trans hok
      exact hasked
    · exact (hnone head.info (shows_iff.2 ⟨format, head, after, hbegin, rfl⟩)).elim
    · obtain ⟨h, b, hint, hb, -⟩ := BeginsWith.beginOf_eq_ok_iff.1 hbegin
      exact (hnone format h b after hb).elim

/-- A session that comes to its end decrypts its pass. -/
theorem World.Releases.decryptsPass {clears : List ByteArray}
    (h : w.Releases credential clears none w') : w.DecryptsPass credential (concat clears) := by
  cases h with
  | ceased hstart hruns hc =>
    refine ⟨_, _, _, _, _, hstart, hruns.append (.step hc.2.1 .nil), hc.2.2, ?_⟩
    rw [concat_append, concat_singleton, ByteArray.append_empty]

/-- A pass of two blocks that is cut off by its last byte: the first block is released with its
question, and then the session fails. -/
theorem releases_leading_cutPass :
    ∃ (p : FramedPass) (items : List InputItem) (cut left : ByteArray) (fault : Fault) (w' : World),
      let settings : PassSettings :=
        ⟨.aesGcm, Limits.iterationsDefault, ⟨1, 1⟩, by decide, by decide⟩
      let w : World := { input := items, provider := fun _ => .ok ⟨"secret", none⟩ }
      SealedChunks (fun _ => settings) ⟨.zeros 32⟩ ⟨"secret", some "usual"⟩ (fun _ => 0) 0
        (ofList [1]) [ofList [2, 3]] p ∧
      p.toByteArray .chained = cut ++ left ∧ left.size = 1 ∧ w.InPieces ∧ w.bytes = cut ∧
      w'.asked.map PassInfo.hint = [some "usual"] ∧
      ∀ clears outcome v, w.Releases ⟨.zeros 32⟩ clears outcome v ↔
        clears = [ofList [1]] ∧ outcome = some fault ∧ v = w' := by
  let settings : PassSettings := ⟨.aesGcm, Limits.iterationsDefault, ⟨1, 1⟩, by decide, by decide⟩
  obtain ⟨p, hsealed⟩ := exists_sealedChunks (fun _ => settings) ⟨.zeros 32⟩
    (⟨_, rfl, by decide, by decide⟩ : Usable (.ok ⟨"secret", some "usual"⟩)) (fun _ => 0) 0
    (by decide : ∀ chunk ∈ [ofList [1], ofList [2, 3]], chunk.size ≤ Limits.readMax) (by decide)
  -- One further block was made, of which the last byte is missing.
  obtain ⟨⟨c, f⟩, _, -, hnone, hfurther⟩ := List.forall₂_cons_right_iff.1 hsealed.row.opens
  obtain rfl := List.forall₂_nil_right_iff.1 hnone
  have hc : c.InRange .chained := by
    have hlinked := hsealed.row.linked
    rw [hfurther] at hlinked
    exact hlinked.1.inRange
  obtain ⟨front, left, hsplit, hfront⟩ :=
    exists_eq_append_of_le (Nat.sub_le (c.toByteArray .chained).size 1)
  have hsize := congrArg ByteArray.size hsplit
  have h38 : Limits.headerBytes = 38 := rfl
  rw [c.size_toByteArray, ByteArray.size_append, hfront, c.size_toByteArray] at hsize
  rw [c.size_toByteArray] at hfront
  have hleft : left.size = 1 := by omega
  obtain ⟨what, expected, actual, hnext⟩ := exists_nextOf_of_cut (by decide) hc hsplit
    (by rw [ne_eq, ← ByteArray.size_eq_zero_iff]; omega)
    (by rw [ne_eq, ← ByteArray.size_eq_zero_iff]; omega)
  obtain ⟨items, hitems, hbytes⟩ := exists_pieces (p.head.toByteArray .chained ++ front)
  let w : World := { input := items, provider := fun _ => .ok ⟨"secret", none⟩ }
  have hp : w.InPieces := hitems
  have hbegins : BeginsWith ⟨.zeros 32⟩ w.bytes .chained p.data p.head front :=
    .framed (by decide) hbytes hsealed.sealedHead.isHead
  have hleads : Leads ⟨.zeros 32⟩ w.provider w.asked w.bytes [p.head] [ofList [1]] :=
    .blocks hbegins hsealed.hint (rfl : w.provider _ = .ok ⟨"secret", none⟩) (by decide)
      hsealed.sealedHead.opens .nil
  obtain ⟨blocks, clears, outcome, w', hreleases, hlongest, hmax, hasked, -⟩ :=
    releases_leading hp
  have hclears : clears = [ofList [1]] := by
    rcases hlongest.exists_opened with ⟨-, rfl⟩ |
      ⟨_, _, _, _, _, _, first, rest, further, -, -, hbegins', -, hfollows, -, rfl⟩
    · exact absurd (hmax _ _ hleads).2 (by simp)
    · obtain ⟨rfl, rfl, rfl, rfl⟩ := hbegins.eq hbegins'
      obtain ⟨-, rfl⟩ := hfollows.eq_nil_of_nextOf (fun h => by cases h) hbegins.inRange
        fun opened hopened => by cases (hnext _ _ _).symm.trans hopened
      exact ((hmax _ _ hleads).2.eq_of_length rfl).symm
  cases outcome with
  | none =>
    -- It does not come to the end, which is missing.
    obtain ⟨_, _, _, hbegin, hgives⟩ :=
      (decryptsPass_iff_gives hp).1 (hreleases _ _ _ |>.2 ⟨rfl, rfl, rfl⟩).decryptsPass
    obtain ⟨h, b, hint, hbegins', -, rfl⟩ := BeginsWith.beginOf_eq_ok_iff.1 hbegin
    obtain ⟨rfl, rfl, rfl, rfl⟩ := hbegins.eq hbegins'
    generalize concat clears = clear at hgives
    cases hgives with
    | opened _ hunfolds =>
      cases hunfolds with
      | finished h => cases (hnext _ _ _).symm.trans h
      | block h => cases (hnext _ _ _).symm.trans h
  | some fault =>
    refine ⟨p, items, _, left, fault, w', hsealed, ?_, hleft, hp, hbytes, ?_, ?_⟩
    · rw [FramedPass.toByteArray, hfurther, ByteArray.append_assoc, ← hsplit]
      exact congrArg (p.head.toByteArray .chained ++ ·) (concat_singleton _)
    · have hkept : keptHint "usual" = some "usual" := by decide
      rw [hasked _ ⟨_, _, _, _, _, hbegins, hsealed.hint, rfl⟩]
      exact congrArg (fun hint => [hint]) hkept
    · subst hclears
      exact hreleases

end session

end SealedStream
