import SealedStream.Proofs.Acceptance
import SealedStream.Proofs.Decryption

/-!
# One pass at a time

Decryption pulls all passes of a stream at once, each from the one that it is in.  One could as well
decrypt the outermost pass to its end, keep its clear text, decrypt that to its end, and so on, for
as long as the head of a pass says that there is another one inside (`World.DecryptsInTurn`).

* `decrypt_iff_decryptsInTurn`: both succeed on the same bytes, with the same clear text and the
  same questions.
-/

namespace SealedStream

variable {credential : Credential} {w w' : World} {clear : ByteArray} {infos : List PassInfo}

/-- The input is decrypted one pass at a time, each to its end.  What a pass gives is the input of a
session on the next, in pieces of any size, until a pass says that it is the innermost. -/
inductive World.DecryptsInTurn (credential : Credential) : World → ByteArray → World → Prop
  | last {w w' : World} {info : PassInfo} {clear : ByteArray} :
    w.FinishesPass credential info clear w' → info.loop.index = 1 →
      DecryptsInTurn credential w clear w'
  | pass {w v w' : World} {info : PassInfo} {mid clear : ByteArray} {items : List InputItem} :
    w.FinishesPass credential info mid v → 1 < info.loop.index → Pieces items →
      itemsBytes items = mid → DecryptsInTurn credential { v with input := items } clear w' →
      DecryptsInTurn credential w clear w'

/-- The passes of a stream are counted from one. -/
theorem index_pos_of_beginOf {format : WireFormat} {head : VerifiedHead} {all ahead : ByteArray}
    (h : beginOf credential all = .ok (format, head, ahead)) : 1 ≤ head.info.loop.index := by
  obtain ⟨b, f, hint, rfl, -⟩ := exists_block_of_headOf (beginOf_eq_ok.1 h).2
  exact f.loop_valid.1

/-- What is known of a pass that a session has gone through. -/
theorem World.FinishesPass.exists_gives (hp : w.InPieces) {info : PassInfo}
    (h : w.FinishesPass credential info clear w') :
    ∃ format head ahead, beginOf credential w.bytes = .ok (format, head, ahead) ∧
      Gives format credential head ahead (w.provider (w.asked ++ [head.info])) clear none ∧
      info = head.info ∧ w'.asked = w.asked ++ [head.info] ∧ w'.provider = w.provider := by
  obtain ⟨d, d', v, clears, hrun, hruns, hfinished, hmetadata, rfl⟩ := h
  obtain ⟨format, head, ahead, hbegin, hgives, hinfo, hasked, hprovider⟩ :=
    World.gives_of_runs hp hrun hruns hfinished
  have hsame : info = head.info := Option.some.inj (hmetadata.symm.trans hinfo)
  exact ⟨format, head, ahead, hbegin, hgives, hsame, hasked, hprovider⟩

/-- **Passes that are decrypted in turn** unwrap.  The induction is on the passes. -/
theorem World.DecryptsInTurn.exists_unwraps (h : w.DecryptsInTurn credential clear w')
    (hp : w.InPieces) :
    ∃ infos, Unwraps credential w.provider w.asked w.bytes infos clear ∧
      w'.asked = w.asked ++ infos := by
  induction h with
  | last hpass hlast =>
    obtain ⟨format, head, ahead, hbegin, hgives, rfl, hasked, -⟩ := hpass.exists_gives hp
    exact ⟨[head.info], .last hbegin (by omega) hgives, hasked⟩
  | @pass w v w' info mid clear items hpass hmore hitems hbytes _ ih =>
    obtain ⟨format, head, ahead, hbegin, hgives, rfl, hasked, hprovider⟩ := hpass.exists_gives hp
    obtain ⟨infos, hunwraps, hlater⟩ := ih hitems
    have hinner : Unwraps credential w.provider (w.asked ++ [head.info]) mid infos clear := by
      rw [← hasked, ← hprovider, ← hbytes]
      exact hunwraps
    refine ⟨head.info :: infos, .pass hbegin hmore hgives hinner, ?_⟩
    calc w'.asked = v.asked ++ infos := hlater
      _ = w.asked ++ [head.info] ++ infos := by rw [hasked]
      _ = w.asked ++ head.info :: infos := List.append_assoc _ _ _

/-- **Passes that unwrap** are decrypted in turn. -/
theorem Unwraps.exists_decryptsInTurn {provider : List PassInfo → Except Fault Answer}
    {asked : List PassInfo} {all : ByteArray}
    (h : Unwraps credential provider asked all infos clear) :
    ∀ w : World, w.InPieces → w.provider = provider → w.asked = asked → w.bytes = all →
      ∃ w', w.DecryptsInTurn credential clear w' ∧ w'.asked = asked ++ infos := by
  induction h with
  | last hbegin hlast hgives =>
    rintro w hp rfl rfl rfl
    obtain ⟨w', hpass⟩ := World.exists_finishesPass hp hbegin hgives
    obtain ⟨format, head, ahead, hbegin', -, hinfo, hasked, -⟩ := hpass.exists_gives hp
    rw [← hinfo] at hasked
    have hpos := index_pos_of_beginOf hbegin
    exact ⟨w', .last hpass (by omega), hasked⟩
  | @pass asked infos all mid clear ahead format head hbegin hmore hgives hinner ih =>
    rintro w hp rfl rfl rfl
    obtain ⟨v, hpass⟩ := World.exists_finishesPass hp hbegin hgives
    obtain ⟨format', head', ahead', -, -, hinfo, hasked, hprovider⟩ := hpass.exists_gives hp
    rw [← hinfo] at hasked
    obtain ⟨items, hitems, hbytes⟩ := exists_pieces mid
    obtain ⟨w', hturn, hlater⟩ := ih { v with input := items } hitems hprovider hasked hbytes
    refine ⟨w', .pass hpass hmore hitems hbytes hturn, ?_⟩
    rw [hlater, List.append_assoc]
    rfl

/-- **Decrypting all passes at once and one at a time** gives the same clear text, and asks the same
questions in the same order. -/
theorem decrypt_iff_decryptsInTurn (hp : w.InPieces) {asked : List PassInfo} :
    (∃ w', w.decrypt credential = (.ok clear, w') ∧ w'.asked = asked) ↔
      ∃ w', w.DecryptsInTurn credential clear w' ∧ w'.asked = asked := by
  constructor
  · rintro ⟨v, hrun, rfl⟩
    obtain ⟨infos, hasked, hunwraps⟩ := World.exists_unwraps_of_decrypt hp hrun
    rw [hasked]
    exact hunwraps.exists_decryptsInTurn w hp rfl rfl rfl
  · rintro ⟨v, hturn, rfl⟩
    obtain ⟨infos, hunwraps, hasked⟩ := hturn.exists_unwraps hp
    rw [hasked]
    exact World.decrypt_of_unwraps hp hunwraps

end SealedStream
