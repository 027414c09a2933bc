import SealedStream.Proofs.Decryptor
import SealedStream.Proofs.FramedPass
import SealedStream.Proofs.Sealing

/-!
# Which bytes a pass accepts

A session that decrypts one pass, block by block from its start to its end (`World.DecryptsPass`),
succeeds on the bytes of the grammar and on no others, whatever pieces they come in.

* `decryptsPass_iff`: the clear text comes out exactly if the bytes are a well-formed pass, its hint
  opens, the password is answered and not empty, and every text opens under the cipher key.

The steps of a session are compared with `nextOf` one by one (`unfolds_of_runs`, `runs_of_unfolds`),
and what `nextOf` gives with the grammar (`unfolds_none_iff`).
-/

namespace SealedStream

namespace Decryptor

/-- Some steps of a session, one after another, and the clear texts of their blocks. -/
inductive Runs : Decryptor → World → List ByteArray → Decryptor → World → Prop
  | nil {d : Decryptor} {w : World} : Runs d w [] d w
  | step {d d' d'' : Decryptor} {w w' w'' : World} {clear : ByteArray} {clears : List ByteArray} :
    w.run (decryptBlock d) = ((.ok clear, d'), w') → Runs d' w' clears d'' w'' →
      Runs d w (clear :: clears) d'' w''

/-- Some steps, and others behind them. -/
theorem Runs.append {d d' d'' : Decryptor} {w w' w'' : World} {clears clears' : List ByteArray}
    (h : d.Runs w clears d' w') (h' : d'.Runs w' clears' d'' w'') :
    d.Runs w (clears ++ clears') d'' w'' := by
  induction h with
  | nil => exact h'
  | step hrun _ ih => exact .step hrun (ih h')

end Decryptor

/-- A session on the input of a world decrypts one pass to its end. -/
def World.DecryptsPass (w : World) (credential : Credential) (clear : ByteArray) : Prop :=
  ∃ (d d' : Decryptor) (v v' : World) (clears : List ByteArray),
    w.run (Decryptor.start credential) = (.ok d, v) ∧ d.Runs v clears d' v' ∧
      d'.stage = .finished ∧ clear = concat clears

variable {w v : World} {d d' : Decryptor} {all ahead : ByteArray} {keys : PassKeys}
  {tag : Bytes 32} {flags : Nat} {Src : Supply Unit}

open Decryptor

/-! ### Steps on the input of a world -/

section steps

variable {credential : Credential} {clear : ByteArray} {asked : List PassInfo}
  {provider : List PassInfo → Except Fault Answer} {v' : World}

/-- A session that has started on the input of a world is at the start of its pass. -/
theorem Decryptor.fresh_of_run_start (hp : w.InPieces)
    (hrun : w.run (start credential) = (.ok d, v)) :
    WireFormat.ofHeader (w.bytes.extract 0 Limits.headerBytes) = .ok d.format ∧
      d.credential = credential ∧
      d.Fresh (unaskedSupply w.bytes w.asked w.provider) w.bytes () v :=
  (ends_start (supplies_unasked _ _ _) (total_unaskedSupply _ _ _) credential
    (unaskedSupply_start hp)).of_run_ok hrun

/-- **The first step** opens the head. -/
theorem Decryptor.headOpened_of_run_decryptBlock
    (hd : d.Fresh (unaskedSupply all asked provider) all () v)
    (hrun : v.run (decryptBlock d) = ((.ok clear, d'), v')) :
    ∃ head ahead, headOf d.format d.credential all = .ok (head, ahead) ∧
      HeadOpened (fun info => unaskedSupply all (asked ++ [info]) provider) all
        (fun info reply => reply = provider (asked ++ [info])) head ahead d clear d' () v' :=
  ((meets_decryptBlock_of_initialized hd.stage).2
    (meets_decryptHead (supplies_unasked _ _ _) (total_unaskedSupply _ _ _) (asks_unasked _ _ _)
      (fun _ => stable_unaskedSupply _ _ _) hd)).of_run_ok hrun

/-- **Each step behind it** opens a further block, or finds the end. -/
theorem Decryptor.advanced_of_run_decryptBlock
    (hd : d.Between (unaskedSupply all asked provider) all keys tag flags ahead () v)
    (hrun : v.run (decryptBlock d) = ((.ok clear, d'), v')) :
    d.SamePass d' ∧ ∃ next, nextOf d.format keys tag flags ahead = .ok next ∧
      Advanced (unaskedSupply all asked provider) all keys clear d' () v' next :=
  ((meets_decryptBlock_of_headDone hd.stage).2
    (meets_decryptFurther (supplies_unasked _ _ _) (total_unaskedSupply _ _ _) hd)).of_run_ok hrun

/-- The input of a world that is read by a session, and what was asked. -/
theorem ChunkReader.Before.asked_eq {r : ChunkReader}
    (h : r.Before (unaskedSupply all asked provider) all ahead () v) :
    v.asked = asked ∧ v.provider = provider := by
  obtain ⟨taken, hsrc, -⟩ := h
  exact hsrc.2

end steps

/-! ### Further blocks -/

variable {asked : List PassInfo} {provider : List PassInfo → Except Fault Answer}

/-- A session does not go on after its end. -/
theorem Decryptor.Runs.eq_nil {clears : List ByteArray} {d' : Decryptor} {v : World}
    (h : d.Runs w clears d' v) (hd : d.stage = .finished) : clears = [] ∧ d' = d ∧ v = w := by
  cases h with
  | nil => exact ⟨rfl, rfl, rfl⟩
  | step hrun _ =>
    have hm : Meets Source.host decryptBlock d () w (fun _ _ _ _ => False) fun _ _ _ _ => True :=
      meets_decryptBlock_of_finished hd
    exact (hm.of_run_ok hrun).elim

/-- The steps behind a block open what is ahead, block by block.  The last of them finds the end. -/
theorem unfolds_of_runs {clears : List ByteArray} (h : d.Runs w clears d' v)
    (hd : d.Between (unaskedSupply all asked provider) all keys tag flags ahead () w)
    (hd' : d'.stage = .finished) :
    ∃ clears', Unfolds d.format keys tag flags ahead clears' none ∧ clears = clears' ++ [.empty] ∧
      d.SamePass d' ∧ v.asked = asked ∧ v.provider = provider := by
  induction h generalizing tag flags ahead with
  | nil =>
    rw [hd.stage] at hd'
    cases hd'
  | step hrun hruns ih =>
    obtain ⟨hsame, next, hnext, hadvanced⟩ := advanced_of_run_decryptBlock hd hrun
    cases next with
    | none =>
      -- The step found the end, and no step follows it.
      obtain ⟨rfl, hfinished, -, hreader⟩ := hadvanced
      obtain ⟨rfl, rfl, rfl⟩ := hruns.eq_nil hfinished
      exact ⟨[], .finished hnext, rfl, hsame, hreader.asked_eq⟩
    | some opened =>
      obtain ⟨rfl, hbetween⟩ := hadvanced
      obtain ⟨clears', hunfolds, rfl, hsame', hworld⟩ := ih hbetween hd'
      rw [hsame.format] at hunfolds
      exact ⟨opened.clear :: clears', .block hnext hunfolds, rfl, hsame.trans hsame', hworld⟩

/-- How a session goes on behind the last block that it opens: it finds the end, or fails. -/
def Decryptor.Ceases (d : Decryptor) (w : World) (outcome : Option Fault) (d' : Decryptor)
    (w' : World) : Prop :=
  d.stage ≠ .finished ∧ match outcome with
    | none => w.run (decryptBlock d) = ((.ok .empty, d'), w') ∧ d'.stage = .finished
    | some fault => w.run (decryptBlock d) = ((.error fault, d'), w')

/-- **What opens is opened by the steps of a session**, block by block, and the step behind the last
block ends as opening does. -/
theorem runs_of_unfolds {clears : List ByteArray} {outcome : Option Fault}
    (h : Unfolds d.format keys tag flags ahead clears outcome)
    (hd : d.Between (unaskedSupply all asked provider) all keys tag flags ahead () w) :
    ∃ d' v d'' v', d.Runs w clears d' v ∧ d'.Ceases v outcome d'' v' ∧ v'.asked = asked := by
  have hs := supplies_unasked all asked provider
  have ht := total_unaskedSupply all asked provider
  generalize hformat : d.format = format at h
  induction h generalizing d w with
  | finished hnext =>
    -- Finding the end is a step, too, and gives no bytes.
    have hm := (meets_decryptBlock_of_headDone hd.stage).2 (meets_decryptFurther hs ht hd)
    rw [hformat, hnext] at hm
    obtain ⟨clear, d', v, hrun, -, next, hok, hadvanced⟩ :=
      (hm.mono (fun _ _ _ _ h => h) (by simp)).exists_run_ok
    cases hok
    obtain ⟨rfl, hfinished, -, hreader⟩ := hadvanced
    exact ⟨d, w, d', v, .nil, ⟨hd.not_finished, hrun, hfinished⟩, hreader.asked_eq.1⟩
  | failed hnext =>
    have hm := (meets_decryptBlock_of_headDone hd.stage).2 (meets_decryptFurther hs ht hd)
    rw [hformat, hnext] at hm
    obtain ⟨fault, d', v, hrun, hfault⟩ := (hm.mono (by simp) fun _ _ _ _ h => h).exists_run_error
    obtain ⟨hfault, given, ended, hsrc⟩ := hfault.resolve_left id
    obtain rfl := Except.error.inj hfault
    exact ⟨d, w, d', v, .nil, ⟨hd.not_finished, hrun⟩, hsrc.2.1⟩
  | block hnext _ ih =>
    have hm := (meets_decryptBlock_of_headDone hd.stage).2 (meets_decryptFurther hs ht hd)
    rw [hformat, hnext] at hm
    obtain ⟨clear, d', v, hrun, hsame, next, hok, hadvanced⟩ :=
      (hm.mono (fun _ _ _ _ h => h) (by simp)).exists_run_ok
    cases hok
    obtain ⟨rfl, hbetween⟩ := hadvanced
    obtain ⟨d₁, v₁, d₂, v₂, hruns, hrest⟩ := ih hbetween (hsame.format.trans hformat)
    exact ⟨d₁, v₁, d₂, v₂, .step hrun hruns, hrest⟩

/-! ### Whole passes -/

/-- A session on the input of a world decrypts one pass to its end, which gives the metadata and the
clear text of the pass, and leads to the world `w'`. -/
def World.FinishesPass (w : World) (credential : Credential) (info : PassInfo) (clear : ByteArray)
    (w' : World) : Prop :=
  ∃ (d d' : Decryptor) (v : World) (clears : List ByteArray),
    w.run (Decryptor.start credential) = (.ok d, v) ∧ d.Runs v clears d' w' ∧
      d'.stage = .finished ∧ d'.metadata = some info ∧ clear = concat clears

section pass

variable {format : WireFormat} {credential : Credential} {clear : ByteArray} {info : PassInfo}
  {w' : World}

/-- **What the steps of a whole pass find**: it begins with a head, and gives what they gave. -/
theorem World.gives_of_runs (hp : w.InPieces) {clears : List ByteArray}
    (hrun : w.run (start credential) = (.ok d, v)) (hruns : d.Runs v clears d' w')
    (hfinished : d'.stage = .finished) :
    ∃ format head ahead, beginOf credential w.bytes = .ok (format, head, ahead) ∧
      Gives format credential head ahead (w.provider (w.asked ++ [head.info])) (concat clears)
        none ∧
      d'.metadata = some head.info ∧ w'.asked = w.asked ++ [head.info] ∧
      w'.provider = w.provider := by
  obtain ⟨hformat, rfl, hfresh⟩ := fresh_of_run_start hp hrun
  cases hruns with
  | nil =>
    -- A session that has just started is not at its end.
    rw [hfresh.stage] at hfinished
    cases hfinished
  | step hrun hruns =>
    obtain ⟨head, ahead, hok, hopened⟩ := headOpened_of_run_decryptBlock hfresh hrun
    obtain ⟨answer, keys, hanswer, hdecrypt, hbetween⟩ := hopened.opened
    obtain ⟨rest, hunfolds, rfl, hsame, hworld⟩ := unfolds_of_runs hruns hbetween hfinished
    rw [hopened.format] at hunfolds
    have hgives := Gives.opened (bind_eq_ok.2 ⟨answer, hanswer.symm, hdecrypt⟩) hunfolds
    refine ⟨d.format, head, ahead, beginOf_eq_ok.2 ⟨hformat, hok⟩, ?_,
      hsame.metadata.trans hopened.metadata, hworld⟩
    -- The step that finds the end adds nothing.
    have hconcat : ∀ first, concat (first :: (rest ++ [.empty])) = concat (first :: rest) := by
      simp
    rw [hconcat]
    exact hgives

/-- A session starts where a pass begins. -/
theorem Decryptor.exists_run_start (hp : w.InPieces) {head : VerifiedHead}
    (hbegin : beginOf credential w.bytes = .ok (format, head, ahead)) :
    ∃ d v, w.run (start credential) = (.ok d, v) ∧ d.format = format ∧ d.credential = credential ∧
      d.Fresh (unaskedSupply w.bytes w.asked w.provider) w.bytes () v := by
  have hstart := ends_start (supplies_unasked w.bytes w.asked w.provider)
    (total_unaskedSupply w.bytes w.asked w.provider) credential (unaskedSupply_start hp)
  rw [(beginOf_eq_ok.1 hbegin).1] at hstart
  obtain ⟨d, v, hrun, hformat, hcredential, hfresh⟩ :=
    (hstart.mono (fun _ _ _ h => h) (by simp)).exists_run_ok
  exact ⟨d, v, hrun, (Except.ok.inj hformat).symm, hcredential, hfresh⟩

/-- **The head of a pass is decrypted** by the first step of a session, if its password is answered
and its text opens. -/
theorem Decryptor.exists_run_decryptHead {d : Decryptor} {v : World} {all : ByteArray}
    {head : VerifiedHead} {first : ByteArray}
    (hfresh : d.Fresh (unaskedSupply all asked provider) all () v)
    (hok : headOf d.format d.credential all = .ok (head, ahead))
    (hopen : (provider (asked ++ [head.info]) >>= head.decrypt d.credential) = .ok (keys, first)) :
    ∃ d' v', v.run (decryptBlock d) = ((.ok first, d'), v') ∧ d'.format = d.format ∧
      d'.metadata = some head.info ∧
      d'.Between (unaskedSupply all (asked ++ [head.info]) provider) all keys head.tag head.flags
        ahead () v' := by
  have hm := (meets_decryptBlock_of_initialized hfresh.stage).2
    (meets_decryptHead (supplies_unasked _ _ _) (total_unaskedSupply _ _ _) (asks_unasked _ _ _)
      (fun _ => stable_unaskedSupply _ _ _) hfresh)
  -- The head is verified and its text opens, so the first step cannot fail.
  obtain ⟨clear, d', v', hrun, head', ahead', hok', hopened⟩ :=
    (hm.mono (fun _ _ _ _ h => h) (by
      rintro fault _ _ _ (h | ⟨⟨fault', herror, -⟩, -⟩ | ⟨head', ahead', _, hok', rfl, hfault, -⟩)
      · exact h
      · cases hok.symm.trans herror
      · cases hok.symm.trans hok'
        cases hopen.symm.trans hfault)).exists_run_ok
  cases hok.symm.trans hok'
  obtain ⟨answer, keys', hanswer, hdecrypt, hbetween⟩ := hopened.opened
  have hopen' := bind_eq_ok.2 ⟨answer, hanswer.symm, hdecrypt⟩
  cases hopen.symm.trans hopen'
  exact ⟨d', v', hrun, hopened.format, hopened.metadata, hbetween⟩

/-- A session starts where a pass begins, and decrypts its head. -/
theorem World.exists_run_head (hp : w.InPieces) {head : VerifiedHead} {first : ByteArray}
    (hbegin : beginOf credential w.bytes = .ok (format, head, ahead))
    (hopen : (w.provider (w.asked ++ [head.info]) >>= head.decrypt credential)
      = .ok (keys, first)) :
    ∃ d v d' v', w.run (start credential) = (.ok d, v) ∧
      v.run (decryptBlock d) = ((.ok first, d'), v') ∧ d'.format = format ∧
      d'.metadata = some head.info ∧
      d'.Between (unaskedSupply w.bytes (w.asked ++ [head.info]) w.provider) w.bytes keys head.tag
        head.flags ahead () v' := by
  obtain ⟨d, v, hrun, rfl, rfl, hfresh⟩ := exists_run_start hp hbegin
  obtain ⟨d', v', hhead⟩ := exists_run_decryptHead hfresh (beginOf_eq_ok.1 hbegin).2 hopen
  exact ⟨d, v, d', v', hrun, hhead⟩

/-- The same for bytes that begin with a head that opens. -/
theorem World.exists_run_isHead (hf : format ≠ .message) (hp : w.InPieces) {h : HeadData}
    {b : WireBlock} {hint : Option String} {answer : Answer} {first : ByteArray}
    (hbytes : w.bytes = b.toByteArray format ++ ahead) (hhead : IsHead format credential h b)
    (hhint : h.openHint credential = .ok hint)
    (hanswer : w.provider (w.asked ++ [h.info format hint]) = .ok answer)
    (hne : answer.password ≠ "")
    (hopens : h.algorithm.decrypt (h.keys credential answer.password).cipher h.iv b.text
      b.associated = .ok first) :
    ∃ d v d' v', w.run (start credential) = (.ok d, v) ∧
      v.run (decryptBlock d) = ((.ok first, d'), v') ∧ d'.format = format ∧
      d'.metadata = some (h.info format hint) ∧
      d'.Between (unaskedSupply w.bytes (w.asked ++ [h.info format hint]) w.provider) w.bytes
        (h.keys credential answer.password) b.tag b.flags ahead () v' := by
  have hok := (headOf_eq_ok hf).2 ⟨b, h, hint, hbytes, hhead, hhint, rfl⟩
  have hformat := b.ofHeader_toByteArray hf ahead
  rw [← hbytes] at hformat
  exact exists_run_head hp (beginOf_eq_ok.2 ⟨hformat, hok⟩)
    (bind_eq_ok.2 ⟨answer, hanswer, decrypt_verifiedHead_eq_ok.2 ⟨hne, rfl, hopens⟩⟩)

/-- **Some block is accepted as a head**, whatever follows it. -/
theorem exists_accepted_head (credential : Credential) {password : String}
    (hpassword : password ≠ "") {clear : ByteArray} (hclear : clear.size ≤ Limits.readMax) :
    ∃ b : WireBlock, b.InRange .chained ∧
      ∀ {w : World} {ahead : ByteArray}, w.InPieces → w.bytes = b.toByteArray .chained ++ ahead →
        w.provider = (fun _ => .ok ⟨password, none⟩) →
        ∃ d v d' v', w.run (start credential) = (.ok d, v) ∧
          v.run (decryptBlock d) = ((.ok clear, d'), v') ∧ d'.stage = .headDone := by
  have hf : WireFormat.chained ≠ .message := by decide
  obtain ⟨h, -, -, hhint⟩ := HeadData.exists_single credential
  obtain ⟨b, hhead, -, hopens⟩ := exists_isHead hf credential h
    (h.keys credential password).cipher hclear
  refine ⟨b, hhead.inRange, fun hp hbytes hprovider => ?_⟩
  obtain ⟨d, v, d', v', hrun, hblock, -, -, hbetween⟩ := World.exists_run_isHead hf hp hbytes hhead
    hhint (congrFun hprovider _) hpassword hopens
  exact ⟨d, v, d', v', hrun, hblock, hbetween.stage⟩

/-- **Where a pass opens, the steps of a session go through it**, block by block.  The last of them
finds the end. -/
theorem World.exists_runs (hp : w.InPieces) {head : VerifiedHead} {first : ByteArray}
    {rest : List ByteArray} (hbegin : beginOf credential w.bytes = .ok (format, head, ahead))
    (hopen : (w.provider (w.asked ++ [head.info]) >>= head.decrypt credential) = .ok (keys, first))
    (hunfolds : Unfolds format keys head.tag head.flags ahead rest none) :
    ∃ d v d' w', w.run (start credential) = (.ok d, v) ∧
      d.Runs v (first :: (rest ++ [.empty])) d' w' ∧ d'.stage = .finished ∧
      d'.metadata = some head.info := by
  obtain ⟨d, v, d', v', hrun, hhead, rfl, hmetadata, hbetween⟩ := exists_run_head hp hbegin hopen
  obtain ⟨d₁, v₁, d₂, v₂, hruns, ⟨-, hlast, hfinished⟩, -⟩ := runs_of_unfolds hunfolds hbetween
  have hfurther := hruns.append (.step hlast .nil)
  obtain ⟨-, -, -, hsame, -⟩ := unfolds_of_runs hfurther hbetween hfinished
  exact ⟨d, v, d₂, v₂, hrun, .step hhead hfurther, hfinished, hsame.metadata.trans hmetadata⟩

theorem World.exists_finishesPass (hp : w.InPieces) {head : VerifiedHead}
    (hbegin : beginOf credential w.bytes = .ok (format, head, ahead))
    (hgives : Gives format credential head ahead (w.provider (w.asked ++ [head.info])) clear none) :
    ∃ w', w.FinishesPass credential head.info clear w' := by
  cases hgives with
  | opened hopen hunfolds =>
    obtain ⟨d, v, d', w', hrun, hruns, hfinished, hmetadata⟩ :=
      World.exists_runs hp hbegin hopen hunfolds
    refine ⟨w', d, d', v, _, hrun, hruns, hfinished, hmetadata, ?_⟩
    simp

/-- **A pass without sessions.**  The clear text of a pass comes out exactly if the first header
tells its format, its head is verified, the password is answered, and head and blocks open. -/
theorem decryptsPass_iff_gives (hp : w.InPieces) :
    w.DecryptsPass credential clear ↔
      ∃ format head ahead, beginOf credential w.bytes = .ok (format, head, ahead) ∧
        Gives format credential head ahead (w.provider (w.asked ++ [head.info])) clear none := by
  constructor
  · rintro ⟨d, d', v, v', clears, hrun, hruns, hfinished, rfl⟩
    obtain ⟨format, head, ahead, hbegin, hgives, -⟩ :=
      World.gives_of_runs hp hrun hruns hfinished
    exact ⟨format, head, ahead, hbegin, hgives⟩
  · rintro ⟨format, head, ahead, hbegin, hgives⟩
    obtain ⟨w', d, d', v, clears, hrun, hruns, hfinished, -, rfl⟩ :=
      World.exists_finishesPass hp hbegin hgives
    exact ⟨d, d', v, w', clears, hrun, hruns, hfinished, rfl⟩

/-- The same for bytes that claim a framed format. -/
theorem decryptsPass_iff_unfolds (hf : format ≠ .message) (hp : w.InPieces)
    (hv : readLE (w.bytes.extract 32 34) = format.version) :
    w.DecryptsPass credential clear ↔
      ∃ head ahead answer keys first rest,
        headOf format credential w.bytes = .ok (head, ahead) ∧
        w.provider (w.asked ++ [head.info]) = .ok answer ∧
        head.decrypt credential answer = .ok (keys, first) ∧
        Unfolds format keys head.tag head.flags ahead rest none ∧
        clear = concat (first :: rest) := by
  rw [decryptsPass_iff_gives hp]
  constructor
  · rintro ⟨format', head, ahead, hbegin, hgives⟩
    obtain ⟨hformat, hok⟩ := beginOf_eq_ok.1 hbegin
    obtain ⟨-, rfl⟩ := (WireFormat.ofHeader_eq_ok hf hv).1 hformat
    cases hgives with
    | opened hopen hunfolds =>
      obtain ⟨answer, hanswer, hdecrypt⟩ := bind_eq_ok.1 hopen
      exact ⟨head, ahead, answer, _, _, _, hok, hanswer, hdecrypt, hunfolds, rfl⟩
  · rintro ⟨head, ahead, answer, keys, first, rest, hok, hanswer, hdecrypt, hunfolds, rfl⟩
    -- Where a head is, a header is.
    have hsize : Limits.headerBytes ≤ w.bytes.size := by
      obtain ⟨b, h, hint, hbytes, -⟩ := (headOf_eq_ok hf).1 hok
      rw [hbytes, ByteArray.size_append, WireBlock.size_toByteArray]
      omega
    have hformat := (WireFormat.ofHeader_eq_ok hf hv).2 ⟨hsize, rfl⟩
    exact ⟨format, head, ahead, beginOf_eq_ok.2 ⟨hformat, hok⟩,
      .opened (bind_eq_ok.2 ⟨answer, hanswer, hdecrypt⟩) hunfolds⟩

end pass

/-- The input of a world is a pass of the grammar with the clear text `clear`: it is well formed,
its hint opens, its password is answered and not empty, and its texts open under the cipher key. -/
def World.HoldsPass (w : World) (format : WireFormat) (credential : Credential)
    (clear : ByteArray) : Prop :=
  ∃ (p : FramedPass) (hint : Option String) (answer : Answer) (first : ByteArray)
    (rest : List ByteArray),
    w.bytes = p.toByteArray format ∧ p.WellFormed format credential ∧
    p.data.openHint credential = .ok hint ∧
    w.provider (w.asked ++ [p.data.info format hint]) = .ok answer ∧ answer.password ≠ "" ∧
    p.Opens (p.data.derivation credential answer.password).key first rest ∧
    clear = concat (first :: rest)

/-- **The grammar** is what heads and blocks open to. -/
theorem World.holdsPass_iff {format : WireFormat} (hf : format ≠ .message) {credential : Credential}
    {clear : ByteArray} :
    w.HoldsPass format credential clear ↔
      ∃ head ahead answer keys first rest,
        headOf format credential w.bytes = .ok (head, ahead) ∧
        w.provider (w.asked ++ [head.info]) = .ok answer ∧
        head.decrypt credential answer = .ok (keys, first) ∧
        Unfolds format keys head.tag head.flags ahead rest none ∧
        clear = concat (first :: rest) := by
  constructor
  · rintro ⟨p, hint, answer, first, rest, hbytes, hp, hhint, hanswer, hne, hopens, rfl⟩
    refine ⟨_, _, answer, p.data.keys credential answer.password, first, rest,
      (headOf_eq_ok hf).2 ⟨p.head, p.data, hint, hbytes, hp.head, hhint, rfl⟩, hanswer,
      decrypt_verifiedHead_eq_ok.2 ⟨hne, rfl, hopens.head⟩, ?_, rfl⟩
    exact (unfolds_none_iff hf hp.head.inRange).2
      ⟨p.further, rfl, hp.linked, hopens.further, hp.terminal⟩
  · rintro ⟨head, ahead, answer, keys, first, rest, hok, hanswer, hdecrypt, hunfolds, rfl⟩
    obtain ⟨b, h, hint, hbytes, hhead, hhint, rfl⟩ := (headOf_eq_ok hf).1 hok
    obtain ⟨hne, rfl, hfirst⟩ := decrypt_verifiedHead_eq_ok.1 hdecrypt
    obtain ⟨further, rfl, hlinked, hopens, hterminal⟩ :=
      (unfolds_none_iff hf hhead.inRange).1 hunfolds
    exact ⟨⟨b, h, further⟩, hint, answer, first, rest, hbytes, ⟨hhead, hlinked, hterminal⟩, hhint,
      hanswer, hne, ⟨hfirst, hopens⟩, rfl⟩

/-- A pass of one block has the clear text of the block, and no other. -/
theorem World.holdsPass_iff_of_single {format : WireFormat} (hf : format ≠ .message)
    {credential : Credential} {h : HeadData} {b : WireBlock} {hint : Option String}
    {answer : Answer} {clear first : ByteArray} (hbytes : w.bytes = b.toByteArray format)
    (hhead : IsHead format credential h b) (hterminal : b.terminal = format.requiresTerminal)
    (hhint : h.openHint credential = .ok hint)
    (hanswer : w.provider (w.asked ++ [h.info format hint]) = .ok answer)
    (hne : answer.password ≠ "")
    (hopens : h.algorithm.decrypt (h.keys credential answer.password).cipher h.iv b.text
      b.associated = .ok first) :
    w.HoldsPass format credential clear ↔ clear = first := by
  rw [← ByteArray.append_empty (b := b.toByteArray format)] at hbytes
  have hok := (headOf_eq_ok hf).2 ⟨b, h, hint, hbytes, hhead, hhint, rfl⟩
  have hopen : (b.verifiedHead format credential h hint).decrypt credential answer
      = .ok (h.keys credential answer.password, first) :=
    decrypt_verifiedHead_eq_ok.2 ⟨hne, rfl, hopens⟩
  have hend : ∀ keys tag, nextOf format keys tag b.flags .empty = .ok none := fun _ _ =>
    nextOf_eq_none.2 ⟨rfl, hhead.inRange.may_end_iff.2 hterminal⟩
  rw [World.holdsPass_iff hf]
  constructor
  · rintro ⟨head, ahead, answer', keys, first', rest, hok', hanswer', hopen', hunfolds, rfl⟩
    cases hok.symm.trans hok'
    cases hanswer.symm.trans hanswer'
    obtain ⟨rfl, rfl⟩ := Prod.mk.inj (Except.ok.inj (hopen.symm.trans hopen'))
    cases hunfolds with
    | finished => exact concat_singleton _
    | block hnext => cases (hend _ _).symm.trans hnext
  · rintro rfl
    exact ⟨_, _, answer, _, _, [], hok, hanswer, hopen, .finished (hend _ _),
      (concat_singleton _).symm⟩

/-- **A pass decrypts exactly if it is in the grammar.**  A session on bytes that claim a framed
format, in whatever pieces, comes to its end with the clear text `clear` exactly if the bytes are a
pass of that format with this clear text. -/
theorem decryptsPass_iff {format : WireFormat} (hf : format ≠ .message) {credential : Credential}
    {clear : ByteArray} (hp : w.InPieces)
    (hv : readLE (w.bytes.extract 32 34) = format.version) :
    w.DecryptsPass credential clear ↔ w.HoldsPass format credential clear := by
  rw [decryptsPass_iff_unfolds hf hp hv, World.holdsPass_iff hf]

/-- A pass of the framed format with one block: it decrypts to its three bytes, and to nothing
else. -/
theorem decryptsPass_iff_oneBlock :
    ∃ items, let w : World := { input := items, provider := fun _ => .ok ⟨"secret", none⟩ }
      (WireFormat.framed ≠ .message ∧ w.InPieces ∧
        readLE (w.bytes.extract 32 34) = WireFormat.framed.version) ∧
      ∀ clear, w.DecryptsPass ⟨.zeros 32⟩ clear ↔ clear = ofList [1, 2, 3] := by
  have hf : WireFormat.framed ≠ .message := by decide
  obtain ⟨h, -, -, hhint⟩ := HeadData.exists_single ⟨.zeros 32⟩
  obtain ⟨b, hhead, hterminal, hopens⟩ := exists_isHead hf ⟨.zeros 32⟩ h
    (h.keys ⟨.zeros 32⟩ "secret").cipher (by decide : (ofList [1, 2, 3]).size ≤ Limits.readMax)
  obtain ⟨items, hitems, hbytes⟩ := exists_pieces (b.toByteArray .framed)
  refine ⟨items, ?_⟩
  intro w
  have hp : w.InPieces := hitems
  have hv : readLE (w.bytes.extract 32 34) = WireFormat.framed.version := by
    rw [show w.bytes = b.toByteArray .framed from hbytes,
      ← ByteArray.append_empty (b := b.toByteArray .framed)]
    exact b.readLE_version .framed .empty
  refine ⟨⟨hf, hp, hv⟩, fun clear => (decryptsPass_iff hf hp hv).trans ?_⟩
  exact World.holdsPass_iff_of_single hf hbytes hhead hterminal hhint
    (rfl : w.provider _ = .ok ⟨"secret", none⟩) (by decide) hopens

end SealedStream
