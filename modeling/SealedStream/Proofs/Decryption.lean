import SealedStream.Proofs.Decryptor
import SealedStream.Proofs.Pipeline
import SealedStream.Stream

/-!
# Decryption of nested passes

What a pass gives is a function of its bytes and of the answer to the question for its password
(`Gives`): some clear text, after which it ends or fails.  An outlet of a session that decrypts the
pass supplies this clear text (`feeds_outlet`), which may be the bytes of another pass.

* `decrypt_of_opensThrough`: where each pass opens to the bytes of the next, the last clear text
  comes out.

While passes nest, each asks its question after the passes that it reads from, and before those that
read from it.  So a source is described by the questions that are asked behind it (`Feeds`).
-/

namespace SealedStream

variable {format : WireFormat} {credential : Credential} {head : VerifiedHead}
  {all ahead clear : ByteArray} {reply : Except Fault Answer} {outcome : Option Fault}
  {keys : PassKeys} {tag : Bytes 32} {flags : Nat}

/-! ### Sources that are asked behind -/

variable {ρ : Type} {read : Source ρ} {asked later : List PassInfo}
  {provider : List PassInfo → Except Fault Answer} {S : List PassInfo → Supply ρ}
  {bad : Fault → Prop}

/-- A source whose bytes are `all`.  When it has given some of them, the questions `asked` have been
put, and then those in `later`, if `S later` is what is known of it. -/
structure Feeds (read : Source ρ) (all : ByteArray) (asked : List PassInfo)
    (provider : List PassInfo → Except Fault Answer) (S : List PassInfo → Supply ρ)
    (bad : Fault → Prop) : Prop where
  supplies : ∀ later, Supplies read (S later) bad
  total : ∀ later, Total all (S later)
  stable : ∀ later, Stable (S later)
  asks : ∀ later, Asks (S later) (fun info => S (later ++ [info]))
    fun info reply => reply = provider (asked ++ (later ++ [info]))
  questions : ∀ ⦃later l w given ended⦄, given ≠ .empty ∨ ended = true → S later l w given ended →
    w.asked = asked ++ later

/-- The input of a world is such a source. -/
theorem feeds_host (bound : Nat) (all : ByteArray) (asked : List PassInfo)
    (provider : List PassInfo → Except Fault Answer) :
    Feeds (Layers.read Decryptor.engine bound 0) all asked provider
      (fun later => unaskedSupply all (asked ++ later) provider) fun _ => False where
  supplies later := supplies_unasked all (asked ++ later) provider
  total later := total_unaskedSupply all (asked ++ later) provider
  stable later := stable_unaskedSupply all (asked ++ later) provider
  asks later := asks_unasked_since all asked later provider
  questions _ _ _ _ _ _ h := h.2.1

/-- So is any input, of what it delivers. -/
theorem feeds_delivered (bound : Nat) (all : ByteArray) (bad : Fault → Prop)
    (asked : List PassInfo) (provider : List PassInfo → Except Fault Answer) :
    Feeds (Layers.read Decryptor.engine bound 0) all asked provider
      (fun later => Unasked (deliveredSupply all bad) (asked ++ later) provider) bad where
  supplies later := (supplies_delivered all bad).unasked (asked ++ later) provider
  total later := (total_deliveredSupply all bad).unasked (asked ++ later) provider
  stable later := (inputOnly_deliveredSupply all bad).stable_unasked (asked ++ later) provider
  asks later := (inputOnly_deliveredSupply all bad).asks_unasked_since asked later provider
  questions _ _ _ _ _ _ h := h.2.1

/-! ### What a session has given -/

/-- A session on a pass that gives `clear`: where it is when it has given some of the clear text,
and the questions `later` have been put since its own, which was answered with `reply`. -/
inductive Progress (S : List PassInfo → Supply ρ) (all : ByteArray) (head : VerifiedHead)
    (reply : Except Fault Answer) (clear : ByteArray) (outcome : Option Fault) :
    List PassInfo → Given Decryptor ρ
  | decoded {d : Decryptor} {l : ρ} {w : World} {ahead : ByteArray} :
    d.Decoded (S []) all head ahead l w →
      Gives d.format d.credential head ahead reply clear outcome →
      Progress S all head reply clear outcome [] all.size d l w .empty
  | between {later : List PassInfo} {d : Decryptor} {l : ρ} {w : World} {keys : PassKeys}
      {tag : Bytes 32} {flags : Nat} {ahead given : ByteArray} {clears : List ByteArray} :
    d.Between (S (head.info :: later)) all keys tag flags ahead l w →
      Unfolds d.format keys tag flags ahead clears outcome → clear = given ++ concat clears →
      ahead.size + 2 ≤ all.size →
      Progress S all head reply clear outcome later (ahead.size + 1) d l w given
  | finished {later : List PassInfo} {d : Decryptor} {l : ρ} {w : World} : d.stage = .finished →
    d.reader.ended = true → d.reader.Before (S (head.info :: later)) all .empty l w →
      outcome = none → Progress S all head reply clear outcome later 0 d l w clear

namespace Progress

variable {k : Nat} {d : Decryptor} {l : ρ} {w : World} {given : ByteArray}

/-- What has been given is the first part of the clear text. -/
theorem exists_rest (h : Progress S all head reply clear outcome later k d l w given) :
    ∃ rest, clear = given ++ rest ∧ (d.stage = .finished → rest = .empty) := by
  cases h with
  | decoded hd =>
    refine ⟨clear, ByteArray.empty_append.symm, fun h => ?_⟩
    rw [hd.stage] at h
    cases h
  | between hd _ hclear =>
    refine ⟨_, hclear, fun h => ?_⟩
    rw [hd.stage] at h
    cases h
  | finished => exact ⟨.empty, ByteArray.append_empty.symm, fun _ => rfl⟩

/-- Where a session can be depends on nothing that drawing and stretching change. -/
theorem alike (hfeeds : Feeds read all asked provider S bad) {w' : World} (ha : w.Alike w')
    (h : Progress S all head reply clear outcome later k d l w given) :
    Progress S all head reply clear outcome later k d l w' given := by
  cases h with
  | decoded hd hgives =>
    exact .decoded { hd with reader := hd.reader.mono fun _ _ h => hfeeds.stable _ ha h } hgives
  | between hd hunfolds hclear hsize =>
    exact .between { hd with reader := hd.reader.mono fun _ _ h => hfeeds.stable _ ha h } hunfolds
      hclear hsize
  | finished hstage hended hreader hnone =>
    exact .finished hstage hended (hreader.mono fun _ _ h => hfeeds.stable _ ha h) hnone

/-- Where a session has given bytes or is over, so has its source, and its own question has been
put. -/
theorem exists_source (h : Progress S all head reply clear outcome later k d l w given)
    (hgiven : given ≠ .empty ∨ d.stage = .finished) :
    ∃ taken, (taken ≠ .empty ∨ d.reader.ended = true) ∧
      S (head.info :: later) l w taken d.reader.ended ∧
      ∀ infos w', S (head.info :: later ++ infos) l w' taken d.reader.ended →
        Progress S all head reply clear outcome (later ++ infos) k d l w' given := by
  cases h with
  | decoded hd =>
    -- Before its own question, the session has given nothing and is not over.
    refine absurd hgiven (not_or.2 ⟨fun h => h rfl, fun h => ?_⟩)
    rw [hd.stage] at h
    cases h
  | between hd hunfolds hclear hsize =>
    obtain ⟨taken, hsrc, hall⟩ := hd.reader
    have htaken : taken ++ d.reader.buffer ≠ .empty := by
      rw [hall, ByteArray.size_append] at hsize
      rw [ne_eq, ← ByteArray.size_eq_zero_iff, ByteArray.size_append]
      omega
    exact ⟨_, .inl htaken, hsrc, fun infos w' h =>
      .between { hd with reader := ⟨taken, h, hall⟩ } hunfolds hclear hsize⟩
  | finished hstage hended hreader hnone =>
    obtain ⟨taken, hsrc, hall⟩ := hreader
    exact ⟨_, .inr hended, hsrc, fun infos w' h => .finished hstage hended ⟨taken, h, hall⟩ hnone⟩

/-- A question that is put when the session has given bytes, or is over, is put behind its own. -/
theorem ask (hfeeds : Feeds read all asked provider S bad) (info : PassInfo)
    (h : Progress S all head reply clear outcome later k d l w given)
    (hgiven : given ≠ .empty ∨ d.stage = .finished) :
    w.provider (w.asked ++ [info]) = provider (asked ++ [head.info] ++ (later ++ [info])) ∧
      Progress S all head reply clear outcome (later ++ [info]) k d l
        { w with asked := w.asked ++ [info] } given := by
  have happend : asked ++ [head.info] ++ (later ++ [info])
      = asked ++ (head.info :: later ++ [info]) :=
    List.append_assoc asked [head.info] (later ++ [info])
  rw [happend]
  obtain ⟨taken, htaken, hsrc, hprogress⟩ := h.exists_source hgiven
  obtain ⟨hreply, hsrc'⟩ := hfeeds.asks _ info htaken hsrc
  exact ⟨hreply, hprogress [info] _ hsrc'⟩

/-- What has been asked when the session has given bytes, or is over. -/
theorem questions (hfeeds : Feeds read all asked provider S bad)
    (h : Progress S all head reply clear outcome later k d l w given)
    (hgiven : given ≠ .empty ∨ d.stage = .finished) :
    w.asked = asked ++ [head.info] ++ later := by
  obtain ⟨taken, htaken, hsrc, -⟩ := h.exists_source hgiven
  rw [hfeeds.questions htaken hsrc, List.append_assoc]
  rfl

end Progress

section next

variable {d : Decryptor} {l : ρ} {w : World}

/-- **The head** gives the first clear text of its pass, or fails as the pass does. -/
theorem meets_next_decoded (hfeeds : Feeds read all asked provider S bad)
    (hd : d.Decoded (S []) all head ahead l w)
    (hgives : Gives d.format d.credential head ahead (provider (asked ++ [head.info])) clear
      outcome) :
    Meets read Decryptor.decryptBlock d l w
      (fun bytes d' l w => ∃ k, Progress S all head (provider (asked ++ [head.info])) clear outcome
        [] k d' l w bytes ∧ k < all.size)
      fun fault _ _ _ => outcome = some fault := by
  have hreply : ∀ {info : PassInfo},
      provider (asked ++ ([] ++ [info])) = provider (asked ++ [info]) := rfl
  rw [Decryptor.meets_decryptBlock_of_headDecoded hd.stage]
  refine (Decryptor.meets_decryptHead_of_decoded (hfeeds.asks []) (fun info => hfeeds.stable _)
    hd).mono (fun bytes d' l w ho => ?_) fun fault _ _ _ hb => ?_
  · obtain ⟨answer, keys, hanswer, hopen, hd'⟩ := ho.opened
    rw [hreply] at hanswer
    have hdecrypt := bind_eq_ok.2 ⟨answer, hanswer.symm, hopen⟩
    cases hgives with
    | refused hrefused => cases hrefused.symm.trans hdecrypt
    | opened hopened hunfolds =>
      obtain ⟨rfl, rfl⟩ := Prod.mk.inj (Except.ok.inj (hdecrypt.symm.trans hopened))
      have hshorter := hd.shorter
      refine ⟨_, .between hd' (ho.format ▸ hunfolds) ?_ hshorter, by omega⟩
      rfl
  · obtain ⟨reply, rfl, hfault, -⟩ := hb
    rw [hreply] at hfault
    cases hgives with
    | refused hrefused => exact congrArg some (Except.error.inj (hrefused.symm.trans hfault))
    | opened hopened => cases hopened.symm.trans hfault

/-- **A further block** gives the next clear text of its pass, or finds its end, or fails as the
pass does. -/
theorem meets_next_between (hfeeds : Feeds read all asked provider S bad)
    (reply : Except Fault Answer) {later : List PassInfo} {given : ByteArray}
    {clears : List ByteArray} (hd : d.Between (S (head.info :: later)) all keys tag flags ahead l w)
    (hunfolds : Unfolds d.format keys tag flags ahead clears outcome)
    (hclear : clear = given ++ concat clears) (hsize : ahead.size + 2 ≤ all.size) :
    Meets read Decryptor.decryptBlock d l w
      (fun bytes d' l w => ∃ k, Progress S all head reply clear outcome later k d' l w
        (given ++ bytes) ∧ k < ahead.size + 1)
      fun fault _ _ _ => outcome = some fault ∨ bad fault := by
  rw [Decryptor.meets_decryptBlock_of_headDone hd.stage]
  refine (Decryptor.meets_decryptFurther (hfeeds.supplies _) (hfeeds.total _) hd).mono
    (fun bytes d' l w hn => ?_) fun fault _ _ _ hb => ?_
  · obtain ⟨hsame, next, hnext, hadvanced⟩ := hn
    -- The step has the result that the row of clear texts goes on with.
    cases hunfolds with
    | failed hfailed => cases hfailed.symm.trans hnext
    | finished hend =>
      cases hend.symm.trans hnext
      obtain ⟨rfl, hstage', hended, hreader⟩ := hadvanced
      rw [concat_nil, ByteArray.append_empty] at hclear
      rw [ByteArray.append_empty, ← hclear]
      exact ⟨0, .finished hstage' hended hreader rfl, Nat.succ_pos _⟩
    | block hblock hrest =>
      cases hblock.symm.trans hnext
      obtain ⟨rfl, hd'⟩ := hadvanced
      have hf := ne_message_of_nextOf (fun h => (hd.atEnd h).2) hblock
      have hless := size_lt_of_nextOf hf hblock
      refine ⟨_, .between hd' (hsame.format ▸ hrest) ?_ (by omega), by omega⟩
      rw [hclear, concat_cons, ByteArray.append_assoc]
  · refine hb.symm.imp_left fun ⟨hb, _⟩ => ?_
    cases hunfolds with
    | failed hfailed => exact congrArg some (Except.error.inj (hfailed.symm.trans hb))
    | finished hend => cases hend.symm.trans hb
    | block hblock => cases hblock.symm.trans hb

end next

/-- **The next block** of a pass that is decrypted.  A block without bytes leaves fewer that may
come in a row. -/
theorem keeps_progress (hfeeds : Feeds read all asked provider S bad) {bound : Nat}
    (hbound : all.size + 2 ≤ bound) (later : List PassInfo) :
    Decryptor.engine.Keeps read bound
      (Progress S all head (provider (asked ++ [head.info])) clear outcome later)
      fun fault => outcome = some fault ∨ bad fault where
  next k d l w given h hfinished := by
    have hstage : d.stage ≠ .finished := of_decide_eq_false hfinished
    show Meets read Decryptor.decryptBlock d l w _ _
    cases h with
    | decoded hd hgives =>
      refine (meets_next_decoded hfeeds hd hgives).mono (fun bytes d' l w hp => ?_)
        fun _ _ _ _ hb => .inl hb
      obtain ⟨k, hp, hless⟩ := hp
      rw [ByteArray.empty_append]
      exact ⟨k, hp, fun _ => .inl hless⟩
    | between hd hunfolds hclear hsize =>
      refine (meets_next_between hfeeds (provider (asked ++ [head.info])) hd hunfolds hclear
        hsize).mono (fun bytes d' l w hp => ?_) fun _ _ _ _ hb => hb
      obtain ⟨k, hp, hless⟩ := hp
      exact ⟨k, hp, fun _ => .inl hless⟩
    | finished hd => exact absurd hd hstage
  bounded k d l w given h := by
    refine .inl ?_
    cases h with
    | decoded => exact hbound
    | between _ _ _ hsize => omega
    | finished => omega

/-- **The outlet of a session that decrypts** is a source again, of the clear text of its pass. -/
theorem feeds_outlet (hfeeds : Feeds read all asked provider S bad) {bound : Nat}
    (hbound : all.size + 2 ≤ bound) :
    Feeds (Source.outlet Decryptor.engine bound read) clear (asked ++ [head.info]) provider
      (fun later => Outlet.Supply Decryptor.engine
        (Progress S all head (provider (asked ++ [head.info])) clear outcome later))
      fun fault => outcome = some fault ∨ bad fault where
  supplies later := supplies_outlet (keeps_progress hfeeds hbound later)
  total later := by
    rintro ⟨o, l⟩ w given ended ⟨⟨⟨k, hk⟩, hend⟩, hended⟩
    obtain ⟨rest, hclear, hrest⟩ := hk.exists_rest
    refine ⟨o.pending ++ rest, by rw [hclear, ByteArray.append_assoc], fun he => ?_⟩
    obtain ⟨hfinished, hpending⟩ := hend (hended he)
    rw [hpending, hrest (of_decide_eq_true hfinished), ByteArray.append_empty]
  stable later := by
    rintro ⟨o, l⟩ w w' given ended ha ⟨⟨⟨k, hk⟩, hend⟩, hended⟩
    exact ⟨⟨⟨k, hk.alike hfeeds ha⟩, hend⟩, hended⟩
  asks later := by
    rintro ⟨o, l⟩ w given ended info hgiven ⟨⟨⟨k, hk⟩, hend⟩, hended⟩
    obtain ⟨hreply, hk'⟩ := hk.ask hfeeds info (by
      refine hgiven.imp (fun h he => ?_) fun he => of_decide_eq_true (hend (hended he)).1
      exact h (ByteArray.append_eq_empty_iff.1 he).1)
    exact ⟨hreply, ⟨⟨k, hk'⟩, hend⟩, hended⟩
  questions := by
    rintro later ⟨o, l⟩ w given ended hgiven ⟨⟨⟨k, hk⟩, hend⟩, hended⟩
    refine hk.questions hfeeds (hgiven.imp (fun h he => ?_) fun he => ?_)
    · exact h (ByteArray.append_eq_empty_iff.1 he).1
    · exact of_decide_eq_true (hend (hended he)).1

/-! ### Opening passes -/

/-- **A pass is opened** if it begins with a verified head. -/
theorem Decryptor.ends_openPass {Src : Supply ρ} (hs : Supplies read Src bad) (ht : Total all Src)
    {l : ρ} {w : World} (h : Src l w .empty false) :
    Ends read (openPass credential) l w
      (fun opened l w => ∃ head ahead,
        beginOf credential all = .ok (opened.2.format, head, ahead) ∧ opened.1 = head.info ∧
        opened.2.credential = credential ∧ opened.2.Decoded Src all head ahead l w)
      fun fault => bad fault ∨ ∃ fault', beginOf credential all = .error fault' ∧
        (WireFormat.ofHeader (all.extract 0 Limits.headerBytes) ≠ .ok .message →
          fault' = fault) := by
  unfold openPass
  refine (ends_bind ?_).2 ?_
  · exact fun _ => rfl
  refine (ends_start hs ht credential h).mono (fun d l w hd => ?_) fun fault hb => ?_
  · obtain ⟨hformat, rfl, hfresh⟩ := hd
    refine ends_step.2 ?_
    refine (meets_info hs ht hfresh).mono (fun info d' l w hi => ?_) fun fault _ _ _ hb => ?_
    · obtain ⟨head, ahead, hhead, rfl, hf, hc, hdecoded⟩ := hi
      exact ⟨head, ahead, beginOf_eq_ok.2 ⟨hf ▸ hformat, hf ▸ hhead⟩, rfl, hc, hdecoded⟩
    · refine hb.imp_right fun ⟨⟨fault', hfault, heq⟩, _⟩ => ⟨fault', ?_, fun hm => heq fun hf => ?_⟩
      · exact bind_eq_error.2 (.inr ⟨d.format, hformat, bind_eq_error.2 (.inl hfault)⟩)
      · exact hm (hf ▸ hformat)
  · exact hb.imp_right fun hb => ⟨fault, bind_eq_error.2 (.inl hb), fun _ => rfl⟩

section layers

variable {bound depth : Nat} {l : Layers Decryptor depth} {w : World}
  {S : List PassInfo → Supply (Layers Decryptor depth)}

/-- Opening passes opens one on the passes that there are, and goes on if that is not the
innermost. -/
theorem run_openPasses (bound : Nat) (credential : Credential) (l : Layers Decryptor depth)
    (w : World) (n : Nat) :
    w.run (openPasses bound credential (n + 1) ⟨depth, l⟩)
      = match Source.run (Layers.read Decryptor.engine bound depth)
          (Decryptor.openPass credential) l w with
        | ((.error fault, _), w) => (.error fault, w)
        | ((.ok (info, d), l), w) =>
          if 1 < info.loop.index then
            w.run (openPasses bound credential n ⟨depth + 1, ({ engine := d }, l)⟩)
          else (.ok ⟨depth + 1, ({ engine := d }, l)⟩, w) := by
  rw [openPasses, World.run_bind, Pipeline.run_feed]
  generalize Source.run (Layers.read Decryptor.engine bound depth)
    (Decryptor.openPass credential) l w = x
  obtain ⟨⟨fault | ⟨info, d⟩, l'⟩, w'⟩ := x
  · rfl
  · by_cases hindex : 1 < info.loop.index
    · simp only [if_pos hindex]
      rfl
    · simp only [if_neg hindex]
      rfl

/-- **One more pass** is opened, or it fails as `beginOf` does. -/
theorem run_openPasses_succ (credential : Credential)
    (hfeeds : Feeds (Layers.read Decryptor.engine bound depth) all asked provider S bad)
    (h : S [] l w .empty false) (n : Nat) :
    (∃ head ahead d l' w', beginOf credential all = .ok (d.format, head, ahead) ∧
      d.credential = credential ∧ d.Decoded (S []) all head ahead l' w' ∧
      w.run (openPasses bound credential (n + 1) ⟨depth, l⟩)
        = if 1 < head.info.loop.index then
            w'.run (openPasses bound credential n ⟨depth + 1, ({ engine := d }, l')⟩)
          else (.ok ⟨depth + 1, ({ engine := d }, l')⟩, w')) ∨
    ∃ fault w', w.run (openPasses bound credential (n + 1) ⟨depth, l⟩) = (.error fault, w') ∧
      (bad fault ∨ ∃ fault', beginOf credential all = .error fault' ∧
        (WireFormat.ofHeader (all.extract 0 Limits.headerBytes) ≠ .ok .message →
          fault' = fault)) := by
  have he : Ends (Layers.read Decryptor.engine bound depth) (Decryptor.openPass credential) l w
      _ _ := Decryptor.ends_openPass (hfeeds.supplies []) (hfeeds.total []) h
  have hrun := run_openPasses bound credential l w n
  unfold Ends at he
  generalize Source.run (Layers.read Decryptor.engine bound depth)
    (Decryptor.openPass credential) l w = x at he hrun
  obtain ⟨⟨fault | ⟨info, d⟩, l'⟩, w'⟩ := x
  · exact .inr ⟨fault, w', hrun, he⟩
  · obtain ⟨head, ahead, hbegin, rfl, hcredential, hd⟩ := he
    exact .inl ⟨head, ahead, d, l', w', hbegin, hcredential, hd, hrun⟩

/-- The pipeline is a source again, when the session of one more pass has been opened. -/
theorem feeds_push
    (hfeeds : Feeds (Layers.read Decryptor.engine bound depth) all asked provider S bad)
    (hbound : all.size + 2 ≤ bound) {d : Decryptor} (hd : d.Decoded (S []) all head ahead l w)
    (hgives : Gives d.format d.credential head ahead (provider (asked ++ [head.info])) clear
      outcome) :
    ∃ S' : List PassInfo → Supply (Layers Decryptor (depth + 1)),
      Feeds (Layers.read Decryptor.engine bound (depth + 1)) clear (asked ++ [head.info]) provider
        S' (fun fault => outcome = some fault ∨ bad fault) ∧
      S' [] ({ engine := d }, l) w .empty false ∧
      ∀ later l w given, S' later l w given true →
        outcome = none ∧ ∃ (l' : Layers Decryptor depth) (taken : ByteArray),
          S (head.info :: later) l' w taken true := by
  refine ⟨_, feeds_outlet hfeeds hbound, Outlet.supply_start (.decoded hd hgives),
    fun later l w given h => ?_⟩
  obtain ⟨k, hk, hfinished⟩ := h.finished
  have hstage : l.1.engine.stage = .finished := of_decide_eq_true hfinished
  cases hk with
  | decoded hd =>
    rw [hd.stage] at hstage
    cases hstage
  | between hd =>
    rw [hd.stage] at hstage
    cases hstage
  | finished _ hended hreader hnone =>
    obtain ⟨taken, hsrc, -⟩ := hreader
    rw [hended] at hsrc
    exact ⟨hnone, l.2, _, hsrc⟩

/-- A session with a verified head asks its own question next. -/
theorem asked_of_decoded
    (hfeeds : Feeds (Layers.read Decryptor.engine bound depth) all asked provider S bad)
    {d : Decryptor} (hd : d.Decoded (S []) all head ahead l w) : w.asked = asked := by
  obtain ⟨taken, hsrc, hall⟩ := hd.reader
  have htaken : taken ++ d.reader.buffer ≠ .empty := by
    have hshorter := hd.shorter
    rw [hall, ByteArray.size_append] at hshorter
    rw [ne_eq, ← ByteArray.size_eq_zero_iff, ByteArray.size_append]
    omega
  rw [hfeeds.questions (.inl htaken) hsrc, List.append_nil]

/-- **A pass that begins with a head** is opened unless reading it fails; the pipeline is then a
source of what the pass gives. -/
theorem run_openPasses_of_begin
    (hfeeds : Feeds (Layers.read Decryptor.engine bound depth) all asked provider S bad)
    (hsrc : S [] l w .empty false) (hbound : all.size + 2 ≤ bound)
    (hbegin : beginOf credential all = .ok (format, head, ahead))
    (hgives : Gives format credential head ahead (provider (asked ++ [head.info])) clear outcome)
    (n : Nat) :
    (∃ (layers : Layers Decryptor (depth + 1)) (w' : World)
        (S' : List PassInfo → Supply (Layers Decryptor (depth + 1))),
      w.run (openPasses bound credential (n + 1) ⟨depth, l⟩)
        = (if 1 < head.info.loop.index then
            w'.run (openPasses bound credential n ⟨depth + 1, layers⟩)
          else (.ok ⟨depth + 1, layers⟩, w')) ∧
      w'.asked = asked ∧
      Feeds (Layers.read Decryptor.engine bound (depth + 1)) clear (asked ++ [head.info]) provider
        S' (fun fault => outcome = some fault ∨ bad fault) ∧
      S' [] layers w' .empty false ∧
      ∀ later l w given, S' later l w given true →
        outcome = none ∧ ∃ (l' : Layers Decryptor depth) (taken : ByteArray),
          S (head.info :: later) l' w taken true) ∨
    ∃ fault w', w.run (openPasses bound credential (n + 1) ⟨depth, l⟩) = (.error fault, w') ∧
      bad fault := by
  rcases run_openPasses_succ credential hfeeds hsrc n with
    ⟨head', ahead', d, l', w', hok, rfl, hd, hrun⟩ | ⟨fault, w', hrun, hb | ⟨fault', hb, -⟩⟩
  · rw [hbegin] at hok
    cases hok
    obtain ⟨S', hfeeds', hsrc', hend⟩ := feeds_push hfeeds hbound hd hgives
    exact .inl ⟨_, w', S', hrun, asked_of_decoded hfeeds hd, hfeeds', hsrc', hend⟩
  · exact .inr ⟨fault, w', hrun, hb⟩
  · rw [hbegin] at hb
    cases hb

end layers

/-- **Reading everything** gives the bytes of the source, up to its end, or fails as it does. -/
theorem run_readAll {bound : Nat} {p : Pipeline Decryptor} {w : World}
    {S : List PassInfo → Supply (Layers Decryptor p.depth)}
    (hfeeds : Feeds (Layers.read Decryptor.engine bound p.depth) all asked provider S bad)
    (hsrc : S [] p.layers w .empty false) (hbound : all.size < bound) :
    match w.run (p.readAll Decryptor.engine bound) with
    | (.ok out, w') => out = all ∧ ∃ l', S [] l' w' out true
    | (.error fault, _) => bad fault := by
  have hread := Pipeline.readFrom_of_supplies (hfeeds.supplies [])
    (.inl fun l w given ended h => by
      obtain ⟨rest, hall, -⟩ := hfeeds.total [] h
      rw [hall, ByteArray.size_append] at hbound
      omega) bound hsrc (Nat.le_add_left _ _)
  rw [Pipeline.readAll]
  generalize w.run (Pipeline.readFrom Decryptor.engine bound bound .empty p) = x at hread
  obtain ⟨fault | out, w'⟩ := x
  · exact hread
  · obtain ⟨l', hl'⟩ := hread
    obtain ⟨rest, hall, hrest⟩ := hfeeds.total [] hl'
    rw [hrest rfl, ByteArray.append_empty] at hall
    exact ⟨hall.symm, l', hl'⟩

/-- A source that never fails is read to its end. -/
theorem exists_readAll {bound : Nat} {p : Pipeline Decryptor} {w : World}
    {S : List PassInfo → Supply (Layers Decryptor p.depth)}
    (hfeeds : Feeds (Layers.read Decryptor.engine bound p.depth) all asked provider S bad)
    (hbad : ∀ fault, ¬ bad fault) (hsrc : S [] p.layers w .empty false)
    (hbound : all.size < bound) :
    ∃ w', w.run (p.readAll Decryptor.engine bound) = (.ok all, w') ∧ ∃ l', S [] l' w' all true := by
  have hread := run_readAll hfeeds hsrc hbound
  generalize w.run (p.readAll Decryptor.engine bound) = x at hread ⊢
  obtain ⟨fault | out, w'⟩ := x
  · exact absurd hread (hbad fault)
  · obtain ⟨rfl, hend⟩ := hread
    exact ⟨w', rfl, hend⟩

/-! ### Passes that open through -/

/-- The bytes `all` are a pass that opens to `clear`, or to a pass that unwraps to `clear`, as the
head of each says.  When `asked` has been asked before, the passes ask the questions `infos`. -/
inductive Unwraps (credential : Credential) (provider : List PassInfo → Except Fault Answer) :
    List PassInfo → ByteArray → List PassInfo → ByteArray → Prop
  | last {asked : List PassInfo} {all clear ahead : ByteArray} {format : WireFormat}
      {head : VerifiedHead} : beginOf credential all = .ok (format, head, ahead) →
    ¬ 1 < head.info.loop.index →
    Gives format credential head ahead (provider (asked ++ [head.info])) clear none →
    Unwraps credential provider asked all [head.info] clear
  | pass {asked infos : List PassInfo} {all mid clear ahead : ByteArray} {format : WireFormat}
      {head : VerifiedHead} : beginOf credential all = .ok (format, head, ahead) →
    1 < head.info.loop.index →
    Gives format credential head ahead (provider (asked ++ [head.info])) mid none →
    Unwraps credential provider (asked ++ [head.info]) mid infos clear →
    Unwraps credential provider asked all (head.info :: infos) clear

/-- The same, whatever the questions are. -/
def OpensThrough (credential : Credential) (provider : List PassInfo → Except Fault Answer)
    (asked : List PassInfo) (all clear : ByteArray) : Prop :=
  ∃ infos, Unwraps credential provider asked all infos clear

theorem Unwraps.infos_ne {infos : List PassInfo}
    (h : Unwraps credential provider asked all infos clear) : infos ≠ [] := by
  cases h with
  | last => exact List.cons_ne_nil _ _
  | pass => exact List.cons_ne_nil _ _

/-- **Passes that unwrap are opened**, down to the last, and all but that have asked by then. -/
theorem run_openPasses_of_unwraps {bound : Nat} {infos : List PassInfo}
    (h : Unwraps credential provider asked all infos clear) :
    ∀ {depth n : Nat} {l : Layers Decryptor depth} {w : World}
      {S : List PassInfo → Supply (Layers Decryptor depth)} {bad : Fault → Prop},
      (∀ fault, ¬ bad fault) →
      Feeds (Layers.read Decryptor.engine bound depth) all asked provider S bad →
      S [] l w .empty false → all.size + 2 ≤ bound → all.size < n →
      ∃ (p : Pipeline Decryptor) (w' : World)
        (S' : List PassInfo → Supply (Layers Decryptor p.depth)) (bad' : Fault → Prop),
        w.run (openPasses bound credential n ⟨depth, l⟩) = (.ok p, w') ∧
        w'.asked = asked ++ infos.dropLast ∧ (∀ fault, ¬ bad' fault) ∧
        Feeds (Layers.read Decryptor.engine bound p.depth) clear (asked ++ infos) provider S' bad' ∧
        S' [] p.layers w' .empty false ∧ clear.size < all.size := by
  induction h with
  | last hbegin hlast hgives =>
    intro depth n l w S bad hbad hfeeds hsrc hbound hn
    obtain ⟨n, rfl⟩ := Nat.exists_eq_add_one_of_ne_zero (Nat.ne_zero_of_lt hn)
    rcases run_openPasses_of_begin hfeeds hsrc hbound hbegin hgives n with
      ⟨layers, w', S', hrun, hasked, hfeeds', hsrc', -⟩ | ⟨fault, w', -, hb⟩
    · rw [if_neg hlast] at hrun
      refine ⟨_, w', S', _, hrun, ?_, fun fault hb => hb.elim nofun (hbad fault), hfeeds', hsrc',
        hgives.size_lt (beginOf_eq_ok.1 hbegin).2⟩
      exact hasked.trans (List.append_nil _).symm
    · exact absurd hb (hbad fault)
  | pass hbegin hmore hgives hinner ih =>
    -- The pass inside is shorter, so that the bound on the number of passes lasts.
    intro depth n l w S bad hbad hfeeds hsrc hbound hn
    obtain ⟨n, rfl⟩ := Nat.exists_eq_add_one_of_ne_zero (Nat.ne_zero_of_lt hn)
    have hless := hgives.size_lt (beginOf_eq_ok.1 hbegin).2
    rcases run_openPasses_of_begin hfeeds hsrc hbound hbegin hgives n with
      ⟨layers, w', S', hrun, hasked, hfeeds', hsrc', -⟩ | ⟨fault, w', -, hb⟩
    · obtain ⟨p, w'', S'', bad', hrun', hasked', hbad', hfeeds'', hsrc'', hless'⟩ :=
        ih (fun fault hb => hb.elim nofun (hbad fault)) hfeeds' hsrc' (by omega)
          (by omega : _ < n)
      rw [if_pos hmore, hrun'] at hrun
      rw [List.append_assoc, List.singleton_append] at hasked' hfeeds''
      refine ⟨p, w'', S'', bad', hrun, ?_, hbad', hfeeds'', hsrc'', Nat.lt_trans hless' hless⟩
      rw [hasked', List.dropLast_cons_of_ne_nil hinner.infos_ne]
    · exact absurd hb (hbad fault)

/-- **What a pipeline that was opened gives**, it gives to the end only if its passes unwrap, and
each of them has been read to its end.  The induction is on the number of passes. -/
theorem exists_unwraps_of_openPasses {bound n : Nat} :
    ∀ {depth : Nat} {l : Layers Decryptor depth} {w : World}
      {S : List PassInfo → Supply (Layers Decryptor depth)} {all : ByteArray}
      {asked : List PassInfo} {bad : Fault → Prop} {p : Pipeline Decryptor} {w' : World},
      Feeds (Layers.read Decryptor.engine bound depth) all asked provider S bad →
      S [] l w .empty false → all.size + 2 ≤ bound →
      w.run (openPasses bound credential n ⟨depth, l⟩) = (.ok p, w') →
      ∃ (clear : ByteArray) (asked' : List PassInfo)
        (S' : List PassInfo → Supply (Layers Decryptor p.depth)) (bad' : Fault → Prop),
        Feeds (Layers.read Decryptor.engine bound p.depth) clear asked' provider S' bad' ∧
        S' [] p.layers w' .empty false ∧ clear.size < bound ∧
        ∀ later l w given, S' later l w given true →
          (∃ (later' : List PassInfo) (l' : Layers Decryptor depth) (taken : ByteArray),
            S later' l' w taken true) ∧
          ∃ infos, asked' = asked ++ infos ∧ Unwraps credential provider asked all infos clear := by
  induction n with
  | zero =>
    intro depth l w S all asked bad p w' _ _ _ hrun
    cases hrun
  | succ n ih =>
    intro depth l w S all asked bad p w' hfeeds hsrc hbound hrun
    rcases run_openPasses_succ credential hfeeds hsrc n with
      ⟨head, ahead, d, l', v, hbegin, rfl, hd, hstep⟩ | ⟨fault, v, hstep, -⟩
    · have hok := (beginOf_eq_ok.1 hbegin).2
      obtain ⟨mid, outcome, hgives⟩ := exists_gives hok (provider (asked ++ [head.info]))
      obtain ⟨S', hfeeds', hsrc', hend⟩ := feeds_push hfeeds hbound hd hgives
      have hless := hgives.size_lt hok
      rw [hstep] at hrun
      by_cases hmore : 1 < head.info.loop.index
      · rw [if_pos hmore] at hrun
        obtain ⟨clear, asked', S'', bad', hfeeds'', hsrc'', hclear, hunwraps⟩ :=
          ih hfeeds' hsrc' (by omega) hrun
        refine ⟨clear, asked', S'', bad', hfeeds'', hsrc'', hclear, fun later l w given h => ?_⟩
        obtain ⟨⟨later', l', taken, hread⟩, infos, rfl, hinner⟩ := hunwraps later l w given h
        obtain ⟨rfl, l'', taken', hread'⟩ := hend later' l' w taken hread
        exact ⟨⟨_, l'', taken', hread'⟩, head.info :: infos, List.append_assoc _ _ _,
          .pass hbegin hmore hgives hinner⟩
      · rw [if_neg hmore] at hrun
        cases hrun
        refine ⟨mid, _, S', _, hfeeds', hsrc', by omega, fun later l w given h => ?_⟩
        obtain ⟨rfl, l', taken, hread⟩ := hend later l w given h
        exact ⟨⟨_, l', taken, hread⟩, [head.info], rfl, .last hbegin hmore hgives⟩
    · rw [hstep] at hrun
      cases hrun

/-! ### Whole streams -/

namespace World

theorem decrypt_eq (credential : Credential) (w : World) :
    w.decrypt credential = match w.run (openStream w.inputBound credential) with
      | (.error fault, w') => (.error fault, w')
      | (.ok p, w') => w'.run (p.readAll Decryptor.engine w.inputBound) := by
  rw [decrypt, run_bind]
  generalize w.run (openStream w.inputBound credential) = x
  obtain ⟨fault | p, w'⟩ := x
  · rfl
  · rfl

theorem inputBound_eq (w : World) : w.inputBound = w.bytes.size + 2 := by
  rw [inputBound, bytes, size_itemsBytes]

theorem unaskedSupply_of_inPieces {w : World} (hp : w.InPieces) :
    unaskedSupply w.bytes (w.asked ++ []) w.provider () w .empty false := by
  rw [List.append_nil]
  exact unaskedSupply_start hp

/-- **Passes that unwrap are opened** as a stream, which then supplies what they unwrap to. -/
theorem exists_openStream_of_unwraps {w : World} {infos : List PassInfo} (hp : w.InPieces)
    (h : Unwraps credential w.provider w.asked w.bytes infos clear) :
    ∃ (p : Pipeline Decryptor) (w' : World) (S : List PassInfo → Supply (Layers Decryptor p.depth))
      (bad : Fault → Prop),
      w.run (openStream w.inputBound credential) = (.ok p, w') ∧
      w'.asked = w.asked ++ infos.dropLast ∧ (∀ fault, ¬ bad fault) ∧
      Feeds (Layers.read Decryptor.engine w.inputBound p.depth) clear (w.asked ++ infos) w.provider
        S bad ∧
      S [] p.layers w' .empty false ∧ clear.size < w.inputBound := by
  have hbound : w.bytes.size + 2 ≤ w.inputBound := Nat.le_of_eq w.inputBound_eq.symm
  obtain ⟨p, w', S, bad, hrun, hasked, hbad, hfeeds, hsrc, hless⟩ :=
    run_openPasses_of_unwraps h (fun _ hb => hb)
      (feeds_host w.inputBound w.bytes w.asked w.provider) (unaskedSupply_of_inPieces hp) hbound
      (Nat.lt_of_lt_of_le (by omega) hbound)
  exact ⟨p, w', S, bad, hrun, hasked, hbad, hfeeds, hsrc, by omega⟩

/-- **What passes that unwrap decrypt to**, and what is asked in the meantime. -/
theorem decrypt_of_unwraps {w : World} {infos : List PassInfo} (hp : w.InPieces)
    (h : Unwraps credential w.provider w.asked w.bytes infos clear) :
    ∃ w', w.decrypt credential = (.ok clear, w') ∧ w'.asked = w.asked ++ infos := by
  obtain ⟨p, w', S, bad, hrun, -, hbad, hfeeds, hsrc, hsize⟩ := exists_openStream_of_unwraps hp h
  obtain ⟨w'', hread, l', hl'⟩ := exists_readAll hfeeds hbad hsrc hsize
  have hasked := hfeeds.questions (.inr rfl) hl'
  rw [List.append_nil] at hasked
  rw [decrypt_eq, hrun]
  exact ⟨w'', hread, hasked⟩

theorem decrypt_of_opensThrough {w : World} (hp : w.InPieces)
    (h : OpensThrough credential w.provider w.asked w.bytes clear) :
    ∃ w', w.decrypt credential = (.ok clear, w') := by
  obtain ⟨infos, h⟩ := h
  obtain ⟨w', hrun, -⟩ := decrypt_of_unwraps hp h
  exact ⟨w', hrun⟩

/-- **What decrypts unwraps**, pass by pass, and has asked what the passes ask. -/
theorem exists_unwraps_of_decrypt {w w' : World} (hp : w.InPieces)
    (h : w.decrypt credential = (.ok clear, w')) :
    ∃ infos, w'.asked = w.asked ++ infos ∧
      Unwraps credential w.provider w.asked w.bytes infos clear := by
  have hbound : w.bytes.size + 2 ≤ w.inputBound := Nat.le_of_eq w.inputBound_eq.symm
  rw [decrypt_eq] at h
  cases hopen : w.run (openStream w.inputBound credential) with
  | mk result v =>
    rw [hopen] at h
    cases result with
    | error fault => cases h
    | ok p =>
      obtain ⟨out, asked', S', bad', hfeeds, hsrc, hout, hend⟩ := exists_unwraps_of_openPasses
        (feeds_host w.inputBound w.bytes w.asked w.provider) (unaskedSupply_of_inPieces hp) hbound
        hopen
      have hread := run_readAll hfeeds hsrc hout
      rw [show v.run (p.readAll Decryptor.engine w.inputBound) = (.ok clear, w') from h] at hread
      obtain ⟨rfl, l', hl'⟩ := hread
      obtain ⟨-, infos, rfl, hunwraps⟩ := hend _ _ _ _ hl'
      exact ⟨infos, (hfeeds.questions (.inr rfl) hl').trans (List.append_nil _), hunwraps⟩

/-- A stream that begins with no head decrypts to nothing. -/
theorem decrypt_of_begin_error {w : World} (hp : w.InPieces) {fault : Fault}
    (hformat : WireFormat.ofHeader (w.bytes.extract 0 Limits.headerBytes) ≠ .ok .message)
    (hbegin : beginOf credential w.bytes = .error fault) :
    ∃ w', w.decrypt credential = (.error fault, w') := by
  rcases run_openPasses_succ credential (feeds_host w.inputBound w.bytes w.asked w.provider)
    (unaskedSupply_of_inPieces hp) (w.bytes.size + 1) with
    ⟨head, ahead, d, l', w', hok, -⟩ | ⟨fault', w', hrun, hb | ⟨fault'', hb, heq⟩⟩
  · rw [hbegin] at hok
    cases hok
  · exact hb.elim
  · rw [hbegin] at hb
    cases hb
    obtain rfl := heq hformat
    refine ⟨w', ?_⟩
    have hopen : w.run (openStream w.inputBound credential) = (.error fault, w') := by
      rw [openStream, inputBound_eq] at *
      exact hrun
    rw [decrypt_eq, hopen]

/-- **A stream of one pass** decrypts to what the pass gives, or fails as it does. -/
theorem decrypt_of_single {w : World} (hp : w.InPieces)
    (hbegin : beginOf credential w.bytes = .ok (format, head, ahead))
    (hlast : ¬ 1 < head.info.loop.index)
    (hgives : Gives format credential head ahead (w.provider (w.asked ++ [head.info])) clear
      outcome) :
    ∃ w', w.decrypt credential = (outcome.elim (.ok clear) .error, w') := by
  have hbound : w.bytes.size + 2 ≤ w.inputBound := Nat.le_of_eq w.inputBound_eq.symm
  have hless := hgives.size_lt (beginOf_eq_ok.1 hbegin).2
  rcases run_openPasses_of_begin (feeds_host w.inputBound w.bytes w.asked w.provider)
    (unaskedSupply_of_inPieces hp) hbound hbegin hgives (w.bytes.size + 1) with
    ⟨layers, w', S', hrun, -, hfeeds, hsrc, hend⟩ | ⟨fault, w', -, hb⟩
  · rw [if_neg hlast] at hrun
    have hopen : w.run (openStream w.inputBound credential) = (.ok ⟨1, layers⟩, w') := by
      rw [openStream, inputBound_eq] at *
      exact hrun
    have hread := run_readAll (p := ⟨1, layers⟩) hfeeds hsrc (Nat.lt_of_lt_of_le (by omega) hbound)
    rw [decrypt_eq, hopen]
    show ∃ w'', w'.run (Pipeline.readAll Decryptor.engine w.inputBound ⟨1, layers⟩) = _
    generalize w'.run (Pipeline.readAll Decryptor.engine w.inputBound ⟨1, layers⟩) = x at hread
    obtain ⟨fault | out, w''⟩ := x
    · -- Reading the input never fails, so the fault is that of the pass.
      obtain rfl := hread.resolve_right id
      exact ⟨w'', rfl⟩
    · obtain ⟨rfl, l', hl'⟩ := hread
      obtain ⟨rfl, -⟩ := hend _ _ _ _ hl'
      exact ⟨w'', rfl⟩
  · exact hb.elim

end World

end SealedStream
