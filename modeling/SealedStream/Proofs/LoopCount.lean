import SealedStream.Proofs.ChangingSettings
import SealedStream.Proofs.InTurn

/-!
# How many passes are unwrapped

The head of each pass says which of how many passes it is.  Decryption goes on to the pass inside
until one says that it is the first, and does not compare what a pass says with what the pass around
it said.  So the passes count down to one (`CountsDown`) if each fits into the one around it, and
not otherwise.

* `countsDown_iff_fits`: what the passes of a stream that decrypts say of themselves.
* `exists_decrypt_of_loops`: whatever they say, as long as only the innermost says that it is the
  first, there is a stream of such passes that decrypts.
-/

namespace SealedStream

/-- Passes, the outermost first, that count down to one, all with the same count. -/
def CountsDown (count : Nat) : List PassInfo → Prop
  | [] => True
  | info :: inside => info.loop = ⟨inside.length + 1, count⟩ ∧ CountsDown count inside

/-- A pass fits into the one around it if it is the one before it of as many. -/
def Fits (around inside : PassInfo) : Prop :=
  around.loop = ⟨inside.loop.index + 1, inside.loop.count⟩

/-- Passes of which the innermost is the first count down exactly if each fits into the one around
it. -/
theorem exists_countsDown_iff {outer : List PassInfo} {innermost : PassInfo}
    (h : innermost.loop.index = 1) :
    (∃ count, CountsDown count (outer ++ [innermost])) ↔
      (outer ++ [innermost]).IsChain Fits := by
  induction outer with
  | nil =>
    refine iff_of_true ⟨innermost.loop.count, ?_, trivial⟩ (.singleton _)
    rw [List.length_nil, Nat.zero_add, ← h]
  | cons info outer ih =>
    -- The pass inside `info` tells what `info` has to say.
    obtain ⟨next, inside, hnext⟩ : ∃ next inside, outer ++ [innermost] = next :: inside :=
      List.exists_cons_of_ne_nil (by simp)
    rw [List.cons_append, hnext, List.isChain_cons_cons]
    rw [hnext] at ih
    rw [← ih]
    constructor
    · rintro ⟨count, hinfo, hinside⟩
      refine ⟨?_, count, hinside⟩
      rw [Fits, hinfo, hinside.1]
      rfl
    · rintro ⟨hfits, count, hinside⟩
      refine ⟨count, ?_, hinside⟩
      rw [hfits, hinside.1]
      rfl

variable {credential : Credential} {clear : ByteArray}

/-- What the passes that unwrap say of themselves: only the innermost says that it is the first. -/
theorem Unwraps.exists_innermost {provider : List PassInfo → Except Fault Answer}
    {asked infos : List PassInfo} {all : ByteArray}
    (h : Unwraps credential provider asked all infos clear) :
    ∃ outer innermost, infos = outer ++ [innermost] ∧ (∀ info ∈ outer, 1 < info.loop.index) ∧
      innermost.loop.index = 1 := by
  induction h with
  | last hbegin hlast =>
    have hpos := index_pos_of_beginOf hbegin
    exact ⟨[], _, rfl, nofun, by omega⟩
  | @pass asked infos all mid clear ahead format head hbegin hmore hgives hinner ih =>
    obtain ⟨outer, innermost, rfl, houter, hone⟩ := ih
    refine ⟨head.info :: outer, innermost, rfl, fun info hinfo => ?_, hone⟩
    rcases List.mem_cons.1 hinfo with rfl | hinfo
    · exact hmore
    · exact houter info hinfo

/-- **How far decryption unwraps.**  Of the passes of a stream that decrypts, which ask one question
each, the outermost first, only the innermost says that it is the first.  They count down to one,
and so there are as many as the outermost says, exactly if each fits into the one around it. -/
theorem countsDown_iff_fits {w w' : World} (hp : w.InPieces)
    (hrun : w.decrypt credential = (.ok clear, w')) :
    ∃ outer innermost, w'.asked = w.asked ++ (outer ++ [innermost]) ∧
      (∀ info ∈ outer, 1 < info.loop.index) ∧ innermost.loop.index = 1 ∧
      ((∃ count, CountsDown count (outer ++ [innermost])) ↔
        (outer ++ [innermost]).IsChain Fits) := by
  obtain ⟨infos, hasked, hunwraps⟩ := World.exists_unwraps_of_decrypt hp hrun
  obtain ⟨outer, innermost, rfl, houter, hone⟩ := hunwraps.exists_innermost
  exact ⟨outer, innermost, hasked, houter, hone, exists_countsDown_iff hone⟩

/-! ### Passes that do not count down -/

/-- A pass can be made for any clear text, with any settings. -/
theorem exists_pass_gives (settings : PassSettings) (credential : Credential) {answer : Answer}
    (hanswer : Usable (.ok answer)) (clear : ByteArray) :
    ∃ (all : ByteArray) (head : VerifiedHead) (ahead : ByteArray),
      beginOf credential all = .ok (.chained, head, ahead) ∧ head.info.loop = settings.loop ∧
      Gives .chained credential head ahead (.ok answer) clear none := by
  obtain ⟨first, rest, p, -, hschedule, hp⟩ := exists_sealedChunks_of_clear (fun _ => settings)
    credential hanswer (fun _ => 0) 0 Limits.readStart clear
  have hwf := hp.wellFormed
  refine ⟨p.toByteArray .chained, _, _, hwf.beginOf_eq hp.hint, hp.sealedHead.loop, ?_⟩
  rw [← hschedule.concat_eq]
  exact .opened (decrypt_verifiedHead_eq_ok.2
    ⟨hp.sealedHead.password_ne, rfl, hp.sealedHead.opens⟩) (hwf.unfolds hp.row.opens)

/-- Whatever the passes around an innermost one say, which is the first, as long as they do not say
that they are, there are such passes.  The induction is on them, from the inside to the outside. -/
theorem exists_unwraps_of_loops (credential : Credential) {answer : Answer}
    (hanswer : Usable (.ok answer)) (clear : ByteArray) (outer : List LoopIndex)
    (innermost : LoopIndex) (hvalid : ∀ loop ∈ outer ++ [innermost], loop.Valid)
    (houter : ∀ loop ∈ outer, 1 < loop.index) (hone : innermost.index = 1) :
    ∃ all infos, infos.map PassInfo.loop = outer ++ [innermost] ∧
      ∀ asked, Unwraps credential (fun _ => .ok answer) asked all infos clear := by
  have hsettings : ∀ loop : LoopIndex, loop.Valid →
      ∃ settings : PassSettings, settings.loop = loop := fun loop hloop =>
    ⟨⟨.aesGcm, Limits.iterationsDefault, loop, by decide, hloop⟩, rfl⟩
  induction outer with
  | nil =>
    obtain ⟨settings, hloop⟩ := hsettings innermost (hvalid _ List.mem_cons_self)
    obtain ⟨all, head, ahead, hbegin, hinfo, hgives⟩ :=
      exists_pass_gives settings credential hanswer clear
    rw [hloop] at hinfo
    refine ⟨all, [head.info], congrArg (fun loop => [loop]) hinfo, fun asked => ?_⟩
    exact .last hbegin (by rw [hinfo, hone]; decide) hgives
  | cons loop outer ih =>
    obtain ⟨mid, infos, hloops, hunwraps⟩ := ih
      (fun l hl => hvalid l (List.mem_cons_of_mem _ hl))
      fun l hl => houter l (List.mem_cons_of_mem _ hl)
    obtain ⟨settings, hloop⟩ := hsettings loop (hvalid _ List.mem_cons_self)
    obtain ⟨all, head, ahead, hbegin, hinfo, hgives⟩ :=
      exists_pass_gives settings credential hanswer mid
    rw [hloop] at hinfo
    refine ⟨all, head.info :: infos, ?_, fun asked => ?_⟩
    · rw [List.map_cons, hinfo, hloops]
      rfl
    · exact .pass hbegin (by rw [hinfo]; exact houter _ List.mem_cons_self) hgives (hunwraps _)

/-- **Passes that say anything.**  There is a stream of such passes that decrypts to any clear
text. -/
theorem exists_decrypt_of_loops (credential : Credential) (clear : ByteArray)
    (outer : List LoopIndex) (innermost : LoopIndex)
    (hvalid : ∀ loop ∈ outer ++ [innermost], loop.Valid)
    (houter : ∀ loop ∈ outer, 1 < loop.index) (hone : innermost.index = 1) :
    ∃ (w w' : World) (infos : List PassInfo), w.InPieces ∧
      w.decrypt credential = (.ok clear, w') ∧ w'.asked = w.asked ++ infos ∧
      infos.map PassInfo.loop = outer ++ [innermost] := by
  have hanswer : Usable (.ok ⟨"secret", none⟩) := ⟨_, rfl, by decide, by decide⟩
  obtain ⟨all, infos, hloops, hunwraps⟩ :=
    exists_unwraps_of_loops credential hanswer clear outer innermost hvalid houter hone
  obtain ⟨items, hitems, hbytes⟩ := exists_pieces all
  let w : World := { input := items, provider := fun _ => .ok ⟨"secret", none⟩ }
  have hp : w.InPieces := hitems
  have hw : Unwraps credential w.provider w.asked w.bytes infos clear := by
    rw [show w.bytes = all from hbytes]
    exact hunwraps []
  obtain ⟨w', hrun, hasked⟩ := World.decrypt_of_unwraps hp hw
  exact ⟨w, w', infos, hp, hrun, hasked, hloops⟩

/-- A stream of two passes that count down. -/
theorem countsDown_iff_fits_twoPasses :
    ∃ (w w' : World) (outer : List PassInfo) (innermost : PassInfo), w.InPieces ∧
      w.decrypt ⟨.zeros 32⟩ = (.ok (ofList [1, 2]), w') ∧
      w'.asked = w.asked ++ (outer ++ [innermost]) ∧
      (outer ++ [innermost]).map PassInfo.loop = [⟨2, 2⟩, ⟨1, 2⟩] ∧
      ((∃ count, CountsDown count (outer ++ [innermost])) ↔
        (outer ++ [innermost]).IsChain Fits) := by
  obtain ⟨w, w', infos, hp, hrun, hasked, hloops⟩ :=
    exists_decrypt_of_loops ⟨.zeros 32⟩ (ofList [1, 2]) [⟨2, 2⟩] ⟨1, 2⟩ (by decide) (by decide) rfl
  obtain ⟨outer, innermost, hasked', -, -, hiff⟩ := countsDown_iff_fits hp hrun
  obtain rfl : infos = outer ++ [innermost] := List.append_cancel_left (hasked.symm.trans hasked')
  exact ⟨w, w', outer, innermost, hp, hrun, hasked, hloops, hiff⟩

/-- A pass that says that it is the third of three is unwrapped, and so is one inside it that says
that it is the first of one: two passes, which do not count down. -/
theorem not_countsDown_thirdAroundFirst :
    ¬ ∀ (credential : Credential) (w w' : World) (clear : ByteArray), w.InPieces →
      w.decrypt credential = (.ok clear, w') →
      ∃ infos count, w'.asked = w.asked ++ infos ∧ CountsDown count infos := by
  intro h
  obtain ⟨w, w', infos, hp, hrun, hasked, hloops⟩ := exists_decrypt_of_loops ⟨.zeros 32⟩ .empty
    [⟨3, 3⟩] ⟨1, 1⟩ (by decide) (by decide) rfl
  obtain ⟨infos', count, hasked', hdown⟩ := h _ w w' _ hp hrun
  obtain rfl : infos = infos' := List.append_cancel_left (hasked.symm.trans hasked')
  cases infos with
  | nil => cases hloops
  | cons third inside =>
    have hlength : inside.length = 1 := by simpa using congrArg List.length hloops
    have hsays : third.loop = ⟨3, 3⟩ := List.head_eq_of_cons_eq hloops
    rw [hdown.1, hlength] at hsays
    have hthree : 1 + 1 = 3 := congrArg LoopIndex.index hsays
    omega

end SealedStream
