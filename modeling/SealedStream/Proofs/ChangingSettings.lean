import SealedStream.Proofs.Acceptance
import SealedStream.Proofs.RoundTrip
import SealedStream.Proofs.Schedule

/-!
# Passes with changing settings

A session that encrypts may be given other settings for each of its blocks.  Its blocks are those of
one pass all the same: the keys, the chain of tags and the place in the input are carried on from
the head, and what changes, the algorithm and with it the sizes of nonce and tag, stands in the
associated data of each block.

* `roundTrip_of_changing_settings`: one session decrypts the blocks of another, chunk by chunk.
-/

namespace SealedStream

variable {settings : Nat → PassSettings} {credential : Credential} {answer : Answer}
  {tape : Nat → UInt8} {start : Nat} {first : ByteArray} {rest : List ByteArray} {p : FramedPass}

/-! ### The blocks are those of a pass -/

/-- The settings of later blocks matter only for their algorithms. -/
theorem SealedChunks.congr {settings' : Nat → PassSettings}
    (h : SealedChunks settings credential answer tape start first rest p)
    (hfirst : settings' 0 = settings 0)
    (hlater : ∀ i, (settings' i).algorithm = (settings i).algorithm) :
    SealedChunks settings' credential answer tape start first rest p where
  sealed := by
    rw [hfirst]
    exact h.sealed
  split := by
    rw [hfirst]
    exact h.split
  info := by
    rw [hfirst]
    exact h.info
  hint := h.hint
  sealedHead := by
    rw [hfirst]
    exact h.sealedHead
  terminal := h.terminal
  carries := by
    rw [hfirst]
    exact h.carries
  row := by
    refine ⟨?_, h.row.linked, h.row.opens, h.row.terminal, fun i chunk hi => ?_⟩
    · rw [sealEach_congr fun i => hlater (i + 1)]
      exact h.row.sealed
    · rw [hlater (i + 1)]
      exact h.row.carries i chunk hi

/-- The blocks that were made of chunks are a well-formed pass. -/
theorem SealedChunks.wellFormed
    (h : SealedChunks settings credential answer tape start first rest p) :
    p.WellFormed .chained credential where
  head := h.sealedHead.isHead
  linked := h.row.linked
  terminal := by
    rw [FramedPass.blocks, List.map_cons, h.terminal, List.map_map]
    exact h.row.terminal

/-- The bytes of the blocks, one after another, are those of the pass. -/
theorem FramedPass.concat_parts (p : FramedPass) :
    concat ((p.blocks.map WireBlock.parts).map SealedParts.bytes) = p.toByteArray .chained := by
  have hbytes : ∀ b : WireBlock, b.parts.bytes = b.toByteArray .chained := fun b =>
    ByteArray.append_assoc
  rw [toByteArray, furtherBytes, blocks, List.map_map, List.map_cons, List.map_map, concat_cons]
  simp only [Function.comp_def, hbytes]

/-- **What was made of chunks decrypts to them**, chunk by chunk, in one session that is answered
with the same password.  The last step finds the end. -/
theorem SealedChunks.exists_runs
    (h : SealedChunks settings credential answer tape start first rest p) {v : World}
    (hpieces : v.InPieces) (hbytes : v.bytes = p.toByteArray .chained) {answer' : Answer}
    (hpassword : answer'.password = answer.password)
    (hanswer : v.provider (v.asked ++ [((settings 0).questionOf
      (World.tapeBytes tape start Limits.headRandomBytes)).withHintOf (.ok answer)])
        = .ok answer') :
    ∃ d v₁ d' v₂, v.run (Decryptor.start credential) = (.ok d, v₁) ∧
      d.Runs v₁ (first :: (rest ++ [.empty])) d' v₂ ∧ d'.stage = .finished ∧
      d'.metadata = some (((settings 0).questionOf
        (World.tapeBytes tape start Limits.headRandomBytes)).withHintOf (.ok answer)) := by
  have hwf := h.wellFormed
  have hbegin := hwf.beginOf_eq h.hint
  have hne := h.sealedHead.password_ne
  have hopen := h.sealedHead.opens
  have hrest := hwf.unfolds h.row.opens
  rw [← hpassword] at hne hopen hrest
  rw [← hbytes] at hbegin
  rw [← h.info] at hanswer ⊢
  refine World.exists_runs hpieces hbegin (bind_eq_ok.2 ⟨answer', hanswer, ?_⟩) hrest
  exact decrypt_verifiedHead_eq_ok.2 ⟨hne, rfl, hopen⟩

/-! ### Round trips -/

/-- **Round trip with changing settings.**  A session that is given settings of its own for each
block makes of any input one block a chunk.  One session decrypts them, whatever the pieces of both
inputs, with the same credential and password: each step gives the chunk of its block, and the last
finds the end.  The metadata is that of the first settings.  Of the others only the algorithms
matter to what is written. -/
theorem roundTrip_of_changing_settings (settings : Nat → PassSettings) (credential : Credential)
    (readStart : Nat) (clear : ByteArray) (tape : Nat → UInt8) (start : Nat) {answer : Answer}
    (hanswer : Usable (.ok answer)) :
    ∃ (chunks written : List ByteArray) (info : PassInfo),
      concat chunks = clear ∧ written.length = chunks.length ∧
      info = ((settings 0).questionOf
        (World.tapeBytes tape start Limits.headRandomBytes)).withHintOf (.ok answer) ∧
      info.algorithm = (settings 0).algorithm ∧ info.iterations = (settings 0).iterations ∧
      info.loop = (settings 0).loop ∧
      (∀ settings' : Nat → PassSettings, settings' 0 = settings 0 →
        (∀ i, (settings' i).algorithm = (settings i).algorithm) →
        ∀ w : World, w.InPieces → w.bytes = clear → w.tape = tape → w.drawn = start →
          w.provider (w.asked ++ [(settings 0).questionOf
            (World.tapeBytes tape start Limits.headRandomBytes)]) = .ok answer →
          ∃ (blocks : List Block) (e : Encryptor) (w' : World),
            w.run (Encryptor.encryptEach settings' chunks.length (.start credential readStart))
              = ((.ok blocks, e), w') ∧
            e.stage = .finished ∧ blocks.map Block.toByteArray = written) ∧
      ∀ (v : World) (answer' : Answer), v.InPieces → v.bytes = concat written →
        v.provider (v.asked ++ [info]) = .ok answer' → answer'.password = answer.password →
        ∃ d v₁ d' v₂, v.run (Decryptor.start credential) = (.ok d, v₁) ∧
          d.Runs v₁ (chunks ++ [.empty]) d' v₂ ∧ d'.stage = .finished ∧
          d'.metadata = some info := by
  obtain ⟨first, rest, p, hchunks, hschedule, hp⟩ :=
    exists_sealedChunks_of_clear settings credential hanswer tape start readStart clear
  refine ⟨first :: rest, (p.blocks.map WireBlock.parts).map SealedParts.bytes, _,
    hschedule.concat_eq, hp.length_blocks, rfl, rfl, rfl, rfl, ?_, ?_⟩
  · rintro settings' hfirst hlater w hpieces rfl rfl rfl hreply
    rw [← hfirst] at hreply
    obtain ⟨blocks, e, w', hrun, hfinished, hblocks, -⟩ :=
      (hp.congr hfirst hlater).exists_run hpieces hchunks hreply
    exact ⟨blocks, e, w', hrun, hfinished, map_toByteArray_eq hblocks⟩
  · intro v answer' hpieces hbytes hreply hpassword
    rw [p.concat_parts] at hbytes
    exact hp.exists_runs hpieces hbytes hpassword hreply

/-- Three bytes, in blocks that are given two algorithms, two iteration counts and two loop
indices. -/
theorem roundTrip_of_changing_settings_threeBytes :
    Usable (.ok ⟨"secret", some "usual"⟩) ∧
    ∃ (chunks : List ByteArray) (blocks : List Block) (e : Encryptor) (w' : World)
      (items : List InputItem) (d d' : Decryptor) (v v' : World),
      concat chunks = ofList [1, 2, 3] ∧
      World.run (Encryptor.encryptEach
          (fun i => if i = 0 then
              ⟨.aegis256, Limits.iterationsDefault, ⟨1, 1⟩, by decide, by decide⟩
            else ⟨.aesGcm, Limits.iterationsMin, ⟨2, 3⟩, by decide, by decide⟩)
          chunks.length (.start ⟨.zeros 32⟩ 1))
        { input := [.data (ofList [1]), .data (ofList [2, 3])]
          provider := fun _ => .ok ⟨"secret", some "usual"⟩ } = ((.ok blocks, e), w') ∧
      itemsBytes items = concat (blocks.map Block.toByteArray) ∧
      World.run (Decryptor.start ⟨.zeros 32⟩)
        { input := items, provider := fun _ => .ok ⟨"secret", none⟩ } = (.ok d, v) ∧
      d.Runs v (chunks ++ [.empty]) d' v' ∧ d'.stage = .finished := by
  have hanswer : Usable (.ok ⟨"secret", some "usual"⟩) := ⟨_, rfl, by decide, by decide⟩
  have hpieces : World.InPieces { input := [.data (ofList [1]), .data (ofList [2, 3])] } := by
    decide
  refine ⟨hanswer, ?_⟩
  obtain ⟨chunks, written, info, hconcat, -, -, -, -, -, hencrypt, hdecrypt⟩ :=
    roundTrip_of_changing_settings
      (fun i => if i = 0 then
          ⟨.aegis256, Limits.iterationsDefault, ⟨1, 1⟩, by decide, by decide⟩
        else ⟨.aesGcm, Limits.iterationsMin, ⟨2, 3⟩, by decide, by decide⟩)
      ⟨.zeros 32⟩ 1 (ofList [1, 2, 3]) (fun _ => 0) 0 hanswer
  obtain ⟨blocks, e, w', hrun, -, rfl⟩ := hencrypt _ rfl (fun _ => rfl)
    { input := [.data (ofList [1]), .data (ofList [2, 3])]
      provider := fun _ => .ok ⟨"secret", some "usual"⟩ } hpieces rfl rfl rfl rfl
  obtain ⟨items, hitems, hbytes⟩ := exists_pieces (concat (blocks.map Block.toByteArray))
  obtain ⟨d, v, d', v', hstart, hruns, hfinished, -⟩ := hdecrypt
    { input := items, provider := fun _ => .ok ⟨"secret", none⟩ } ⟨"secret", none⟩ hitems hbytes
    rfl rfl
  exact ⟨chunks, blocks, e, w', items, d, d', v, v', hconcat, hrun, hbytes, hstart, hruns,
    hfinished⟩

end SealedStream
