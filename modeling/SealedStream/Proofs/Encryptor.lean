import SealedStream.Proofs.ChunkReader
import SealedStream.Proofs.FramedPass
import SealedStream.Proofs.Sealing

/-!
# What an encryption session makes

A session that encrypts a source is at the start of its pass (`Fresh`), between two blocks
(`Between`), or at the end (`Done`); `taken` is what it has encrypted.  Each of its steps takes the
next chunk, and makes a block that opens to it (`SealedHead`, `SealedFurther`).  A step between two
blocks cannot fail but for its source, and the chunk of a further block has bytes.

* `meets_encryptHead`, `meets_encryptFurther`: one lemma for each step.
-/

namespace SealedStream

variable {ρ : Type} {read : Source ρ} {Src : Supply ρ} {Src' : PassInfo → Supply ρ}
  {bad : Fault → Prop}

/-! ### Blocks -/

/-- A reply that encryption can go on with. -/
def Usable (reply : Except Fault Answer) : Prop :=
  ∃ answer : Answer, reply = .ok answer ∧ answer.password ≠ "" ∧
    (answer.hint.getD "").length ≤ Limits.hintMaxChars

/-- The question for the password of a pass with the salt and the nonce given. -/
def PassSettings.question (settings : PassSettings) (salt : Bytes 16) (iv : ByteArray) : PassInfo :=
  ⟨Limits.version5, settings.algorithm, settings.iterations, settings.loop, iv, salt, none⟩

/-- A block that was made as the head of a pass, for the clear text `clear`. -/
structure SealedHead (settings : PassSettings) (credential : Credential) (password : String)
    (clear : ByteArray) (h : HeadData) (b : WireBlock) : Prop where
  algorithm : h.algorithm = settings.algorithm
  iterations : h.iterations = settings.iterations
  loop : h.loop = settings.loop
  password_ne : password ≠ ""
  isHead : IsHead .chained credential h b
  hint : ∃ hint, h.openHint credential = .ok hint
  opens : h.algorithm.decrypt (h.keys credential password).cipher h.iv b.text b.associated
    = .ok clear

/-- A block that was made as a further block of a pass, for the clear text `clear`. -/
structure SealedFurther (keys : PassKeys) (previous : Bytes 32) (clear : ByteArray)
    (f : FurtherData) (b : WireBlock) : Prop where
  isFurther : IsFurther .chained keys.signing previous.data f b
  opens : OpensTo keys.cipher (b, f) clear
  clear_ne : clear ≠ .empty

namespace Encryptor

/-! ### Where a session is -/

/-- A session that has read nothing. -/
structure Fresh (Src : Supply ρ) (e : Encryptor) (l : ρ) (w : World) : Prop where
  stage : e.stage = .initialized
  target : 1 ≤ e.readTarget ∧ e.readTarget ≤ Limits.readMax
  reader : Src l w e.reader.buffer e.reader.ended

/-- A session behind a block with the tag given, which has encrypted `taken`. -/
structure Between (Src : Supply ρ) (keys : PassKeys) (tag : Bytes 32) (taken : ByteArray)
    (e : Encryptor) (l : ρ) (w : World) : Prop where
  stage : e.stage = .headDone
  target : 1 ≤ e.readTarget ∧ e.readTarget ≤ Limits.readMax
  keys : e.keys = some keys
  lastTag : e.lastTag = some tag
  reader : Src l w (taken ++ e.reader.buffer) e.reader.ended
  buffer_ne : e.reader.buffer ≠ .empty

/-- A session at its end, which has encrypted all that its source gave. -/
structure Done (Src : Supply ρ) (taken : ByteArray) (e : Encryptor) (l : ρ) (w : World) : Prop where
  stage : e.stage = .finished
  ended : e.reader.ended = true
  buffer : e.reader.buffer = .empty
  reader : Src l w taken true

/-- A session behind a block, which says whether it is the last. -/
def Advanced (Src : Supply ρ) (keys : PassKeys) (taken : ByteArray) (b : WireBlock)
    (e : Encryptor) (l : ρ) (w : World) : Prop :=
  if b.terminal then Done Src taken e l w else Between Src keys b.tag taken e l w

/-! ### Parts of a step -/

variable {e : Encryptor} {l : ρ} {w : World} {taken : ByteArray} {α : Type}

/-- What a session forgets at a fault is not what the fault is. -/
theorem meets_settle {good : α → Encryptor → ρ → World → Prop} (step : Step Encryptor α) :
    Meets read (settle step) e l w good (fun fault _ _ _ => bad fault) ↔
      Meets read step e l w good fun fault _ _ _ => bad fault := by
  unfold settle
  rw [meets_tryCatch]
  simp only [meets_bind, meets_modify, meets_throw]

theorem meets_require {expected : Stage} {operation : String} (h : e.stage = expected)
    {good : Unit → Encryptor → ρ → World → Prop} {fails : Fault → Encryptor → ρ → World → Prop} :
    Meets read (require expected operation) e l w good fails ↔ good ⟨⟩ e l w := by
  unfold require
  rw [meets_bind, meets_get]
  exact meets_except_of_ok (if_pos (by rw [h]; exact List.mem_singleton.2 rfl))

/-- A session that has taken a chunk: what is left of its source, and whether the chunk is the
last. -/
structure Chunked (Src : Supply ρ) (taken : ByteArray) (chunk : Chunk) (e : Encryptor) (l : ρ)
    (w : World) : Prop where
  target : 1 ≤ e.readTarget ∧ e.readTarget ≤ Limits.readMax
  reader : Src l w (taken ++ chunk.bytes ++ e.reader.buffer) e.reader.ended
  size_le : chunk.bytes.size ≤ Limits.readMax
  last : chunk.done = true → e.reader.ended = true ∧ e.reader.buffer = .empty
  goesOn : chunk.done = false → chunk.bytes ≠ .empty ∧ e.reader.buffer ≠ .empty

theorem meets_nextChunk (hs : Supplies read Src bad)
    (htarget : 1 ≤ e.readTarget ∧ e.readTarget ≤ Limits.readMax)
    (h : Src l w (taken ++ e.reader.buffer) e.reader.ended) :
    Meets read nextChunk e l w
      (fun chunk e' l w => Chunked Src taken chunk e' l w ∧
        (e.reader.buffer ≠ .empty → chunk.bytes ≠ .empty) ∧
        chunk.bytes.size ≤ e.readTarget ∧ (chunk.done = false → chunk.bytes.size = e.readTarget) ∧
        ∃ reader, e' = { e with reader, readTarget := min (e.readTarget * 2) Limits.readMax })
      fun fault _ _ _ => bad fault := by
  unfold nextChunk
  simp only [meets_bind, meets_get, meets_onPart, meets_modify, meets_pure]
  refine (ChunkReader.meets_readAvailable hs e.readTarget false h).mono (fun chunk r l w hc => ?_)
    fun _ _ _ _ hb => hb
  obtain ⟨hout, hdone, hmore, hne⟩ := hc
  refine ⟨⟨?_, hout.holds, Nat.le_trans hout.size_le htarget.2, hdone, fun hd => ?_⟩,
    hne htarget.1, hout.size_le, fun hd => (hmore hd).2, _, rfl⟩
  · show 1 ≤ min (e.readTarget * 2) Limits.readMax ∧ min (e.readTarget * 2) Limits.readMax ≤ _
    omega
  · refine ⟨fun hempty => ?_, (hmore hd).1⟩
    have hfull := (hmore hd).2
    rw [hempty] at hfull
    exact absurd htarget.1 (hfull ▸ Nat.not_lt_zero 0)

/-- A chunk was taken from a source that has given bytes or ended. -/
theorem Chunked.given_or_ended {chunk : Chunk} (hc : Chunked Src taken chunk e l w) :
    taken ++ chunk.bytes ++ e.reader.buffer ≠ .empty ∨ e.reader.ended = true := by
  cases hd : chunk.done with
  | true => exact .inr (hc.last hd).1
  | false =>
    refine .inl fun h => (hc.goesOn hd).2 ?_
    rw [← ByteArray.size_eq_zero_iff, ByteArray.size_append] at h
    rw [← ByteArray.size_eq_zero_iff]
    omega

/-- A session behind a block with the tag given, which is the last or not. -/
def Behind (Src : Supply ρ) (keys : PassKeys) (tag : Bytes 32) (taken : ByteArray) (last : Bool)
    (e : Encryptor) (l : ρ) (w : World) : Prop :=
  if last then Done Src taken e l w else Between Src keys tag taken e l w

/-- **A block that was sealed** is handed out, and is the last if its chunk was. -/
theorem meets_finishBlock {chunk : Chunk} {keys : PassKeys} (parts : SealedParts)
    {fails : Fault → Encryptor → ρ → World → Prop} (hc : Chunked Src taken chunk e l w)
    (hstage : e.stage = .initialized ∨ e.stage = .headDone) (hkeys : e.keys = some keys) :
    Meets read (finishBlock parts chunk.done) e l w
      (fun block e' l w =>
        (∃ stage, block = ⟨parts.header, parts.associated, parts.text, stage⟩) ∧
        Behind Src keys parts.tag (taken ++ chunk.bytes) chunk.done e' l w ∧
        e'.readTarget = e.readTarget) fails := by
  have hallows : e.stage.transition (if chunk.done then .finished else .headDone)
      = .ok (if chunk.done then .finished else .headDone) := by
    refine if_pos ?_
    obtain h | h := hstage <;> cases chunk.done <;> rw [h] <;> rfl
  unfold finishBlock
  rw [meets_bind, meets_get, meets_bind, meets_except_of_ok hallows, meets_bind, meets_modify,
    meets_pure]
  refine ⟨⟨_, rfl⟩, ?_⟩
  rw [Behind]
  cases hd : chunk.done with
  | true =>
    obtain ⟨hended, hbuffer⟩ := hc.last hd
    have hreader := hc.reader
    rw [hended, hbuffer, ByteArray.append_empty] at hreader
    exact ⟨⟨rfl, hended, hbuffer, hreader⟩, rfl⟩
  | false => exact ⟨⟨rfl, hc.target, hkeys, rfl, hc.reader, (hc.goesOn hd).2⟩, rfl⟩

/-- The same for the parts of a block on the wire. -/
theorem meets_finishBlock_wireBlock {chunk : Chunk} {keys : PassKeys} {b : WireBlock}
    {fails : Fault → Encryptor → ρ → World → Prop} (hc : Chunked Src taken chunk e l w)
    (hstage : e.stage = .initialized ∨ e.stage = .headDone)
    (hkeys : e.keys = some keys) (hb : b.terminal = chunk.done) :
    Meets read (finishBlock ⟨b.header .chained, b.associated, b.text, b.tag⟩ chunk.done) e l w
      (fun block e' l w => (∃ stage, block = b.block stage) ∧
        Advanced Src keys (taken ++ chunk.bytes) b e' l w) fails := by
  refine (meets_finishBlock _ hc hstage hkeys).mono (fun block e' l w hf => ⟨hf.1, ?_⟩)
    fun _ _ _ _ h => h
  rw [Advanced, hb]
  exact hf.2.1

theorem Advanced.holds {keys : PassKeys} {b : WireBlock} (h : Advanced Src keys taken b e l w) :
    Src l w (taken ++ e.reader.buffer) e.reader.ended ∧
      (taken ++ e.reader.buffer ≠ .empty ∨ e.reader.ended = true) := by
  rw [Advanced] at h
  split at h
  · rw [h.buffer, ByteArray.append_empty, h.ended]
    exact ⟨h.reader, .inr rfl⟩
  · refine ⟨h.reader, .inl fun hempty => h.buffer_ne ?_⟩
    exact (ByteArray.append_eq_empty_iff.1 hempty).2

/-- Where a session is behind a block says of its source what is known of it. -/
theorem Advanced.mono {Src Src' : Supply ρ} {keys : PassKeys} {b : WireBlock} {w' : World}
    (h : Advanced Src keys taken b e l w)
    (hm : Src l w (taken ++ e.reader.buffer) e.reader.ended →
      Src' l w' (taken ++ e.reader.buffer) e.reader.ended) :
    Advanced Src' keys taken b e l w' := by
  have hholds := hm h.holds.1
  rw [Advanced] at h ⊢
  split at h
  next ht =>
    rw [h.buffer, ByteArray.append_empty, h.ended] at hholds
    rw [if_pos ht]
    exact ⟨h.stage, h.ended, h.buffer, hholds⟩
  next ht =>
    rw [if_neg ht]
    exact ⟨h.stage, h.target, h.keys, h.lastTag, hholds, h.buffer_ne⟩

/-! ### The head -/

/-- What is left of encrypting a head when its password has been answered. -/
def sealHead (settings : PassSettings) (chunk : Chunk) (salt : Bytes 16) (iv : ByteArray)
    (answer : Answer) : Step Encryptor Block := do
  let hint := answer.hint.getD ""
  if Limits.hintMaxChars < hint.length then throw .longHint
  let credential := (← get).credential
  let derivation ← Derivation.ofPassword settings.iterations answer.password credential salt.data
  let keys : PassKeys :=
    ⟨← Step.ofProgram (Host.derive derivation), credential.signingKey salt⟩
  let sealedHint ← sealHint settings.algorithm (credential.hintKey salt) iv hint
  let data : AssociatedData :=
    ⟨settings.algorithm, iv, salt, settings.iterations, settings.loop, sealedHint⟩
  let parts ← sealBlock keys .empty data chunk.bytes chunk.done
  modify fun e => { e with keys := some keys }
  finishBlock parts chunk.done

/-- What is left of encrypting a head when its chunk has been taken. -/
def answerHead (settings : PassSettings) (chunk : Chunk) : Step Encryptor Block := do
  let random ← Step.ofProgram (Host.draw Limits.headRandomBytes)
  let (salt, iv) := splitRandom settings.algorithm random
  let answer ← (← Step.ofProgram (Host.password
    ⟨Limits.version5, settings.algorithm, settings.iterations, settings.loop, iv, salt, none⟩))
  sealHead settings chunk salt iv answer

theorem encryptHead_eq (settings : PassSettings) : encryptHead settings = settle (do
    require .initialized "encrypt block0"
    let chunk ← nextChunk
    answerHead settings chunk) := rfl

/-- The head has been sealed for a chunk, and the session has gone on. -/
structure HeadSealed (Src : Supply ρ) (settings : PassSettings) (credential : Credential)
    (answer : Answer) (chunk : ByteArray) (h : HeadData) (b : WireBlock) (block : Block)
    (e : Encryptor) (l : ρ) (w : World) : Prop where
  block : ∃ stage, block = b.block stage
  sealedHead : SealedHead settings credential answer.password chunk h b
  hint : h.openHint credential = .ok (keptHint (answer.hint.getD ""))
  size_le : chunk.size ≤ Limits.readMax
  goesOn : b.terminal = false → chunk ≠ .empty
  advanced : Advanced Src (h.keys credential answer.password) chunk b e l w

/-- **A chunk is sealed in the head**, if the answer can be used. -/
theorem meets_sealHead (hstable : Stable Src) {settings : PassSettings} {chunk : Chunk}
    (hc : Chunked Src .empty chunk e l w) (he : e.stage = .initialized) {salt : Bytes 16}
    {iv : ByteArray} (hiv : iv.size = settings.algorithm.ivBytes) (answer : Answer) :
    Meets read (sealHead settings chunk salt iv answer) e l w
      (fun block e' l w => ∃ (h : HeadData) (b : WireBlock),
        h.info .chained none = settings.question salt iv ∧
        HeadSealed Src settings e.credential answer chunk.bytes h b block e' l w)
      fun _ _ _ _ => ¬ Usable (.ok answer) := by
  unfold sealHead
  by_cases hhint : Limits.hintMaxChars < (answer.hint.getD "").length
  · rw [if_pos hhint]
    rintro ⟨answer', hok, -, hle⟩
    cases hok
    exact absurd hhint (Nat.not_lt.2 hle)
  rw [if_neg hhint]
  simp only [meets_bind, meets_get]
  rw [meets_except]
  refine ⟨fun derivation hder => ?_, fun fault hfault => ?_⟩
  swap
  · -- Stretching fails only for an empty password.
    rintro ⟨answer', hok, hne, -⟩
    cases hok
    rw [(Derivation.ofPassword_eq_ok settings.iterations_mem).2 ⟨hne, rfl⟩] at hfault
    cases hfault
  obtain ⟨hne, rfl⟩ := (Derivation.ofPassword_eq_ok settings.iterations_mem).1 hder
  -- From here on nothing can fail: the hint has been cut, and the chunk has room in the block.
  obtain ⟨sealedHint, hseal, hsize, hopen⟩ :=
    exists_sealHint (e.credential.hintKey salt) hiv (answer.hint.getD "")
  let h : HeadData := ⟨settings.algorithm, iv, salt, settings.iterations, settings.loop,
    sealedHint, hiv, settings.iterations_mem, settings.loop_valid, hsize⟩
  obtain ⟨b, hsealed, hb, hterminal, hrange, htext, hsigned, hdecrypt⟩ :=
    exists_sealBlock (h.keys e.credential answer.password) .empty chunk.done
      (AssociatedData.encode_headData h) hiv
      ⟨h.payloadMin_le _, size_payload_le h.size_toByteArray_le hc.size_le⟩
  rw [meets_derive, meets_except_of_ok hseal]
  refine (meets_except_of_ok hsealed).2 ?_
  rw [meets_modify]
  have hc' : Chunked Src .empty chunk
      { e with keys := some (h.keys e.credential answer.password) } l
      { w with keys := (w.keys.derive (h.derivation e.credential answer.password)).2 } :=
    ⟨hc.target, hstable (w.alike_derive _) hc.reader, hc.size_le, hc.last, hc.goesOn⟩
  refine (meets_finishBlock_wireBlock hc' (.inl he) rfl hterminal).mono (fun block e' l w hf => ?_)
    fun _ _ _ _ h => h
  obtain ⟨hblock, hadvanced⟩ := hf
  rw [ByteArray.empty_append] at hadvanced
  exact ⟨h, b, rfl, hblock, ⟨rfl, rfl, rfl, hne, ⟨hrange, hb, htext, hsigned⟩, ⟨_, hopen⟩,
    hdecrypt⟩, hopen, hc.size_le, fun ht => (hc.goesOn (hterminal.symm.trans ht)).1, hadvanced⟩

/-- **A first chunk is encrypted**, with the answer to the question for the password of its pass. -/
theorem meets_answerHead {R : PassInfo → Except Fault Answer → Prop} (hstable : Stable Src)
    (hask : Asks Src Src' R) (hstable' : ∀ info, Stable (Src' info)) (settings : PassSettings)
    {chunk : Chunk} (hc : Chunked Src .empty chunk e l w) (he : e.stage = .initialized) :
    Meets read (answerHead settings chunk) e l w
      (fun block e' l w => ∃ (h : HeadData) (b : WireBlock) (answer : Answer),
        R (h.info .chained none) (.ok answer) ∧
        HeadSealed (Src' (h.info .chained none)) settings e.credential answer chunk.bytes h b block
          e' l w)
      fun _ _ _ _ => ∃ info reply, R info reply ∧ ¬ Usable reply := by
  unfold answerHead
  simp only [meets_bind, meets_draw]
  generalize World.tapeBytes w.tape w.drawn Limits.headRandomBytes = random
  have hiv := size_splitRandom settings.algorithm random
  generalize splitRandom settings.algorithm random = x at hiv
  obtain ⟨salt, iv⟩ := x
  obtain ⟨hR, hsrc⟩ := hask (settings.question salt iv) hc.given_or_ended
    (hstable (w.alike_draw Limits.headRandomBytes) hc.reader)
  rw [meets_password, meets_except]
  refine ⟨fun answer hanswer => ?_, fun fault hfault => ⟨_, _, hR, ?_⟩⟩
  swap
  · rintro ⟨answer, hok, -⟩
    cases hfault.symm.trans hok
  have hanswered : R (settings.question salt iv) (.ok answer) := by
    rw [← hanswer]
    exact hR
  refine (meets_sealHead (hstable' _) ⟨hc.target, hsrc, hc.size_le, hc.last, hc.goesOn⟩ he hiv
    answer).mono (fun block e' l w hb => ?_) fun _ _ _ _ hb => ⟨_, _, hanswered, hb⟩
  obtain ⟨h, b, hinfo, hsealed⟩ := hb
  rw [← hinfo] at hanswered hsealed
  exact ⟨h, b, answer, hanswered, hsealed⟩

/-- **The head is encrypted** for the first chunk, with the answer to the question for its
password. -/
theorem meets_encryptHead {R : PassInfo → Except Fault Answer → Prop} (hs : Supplies read Src bad)
    (hstable : Stable Src) (hask : Asks Src Src' R) (hstable' : ∀ info, Stable (Src' info))
    (settings : PassSettings) (he : e.Fresh Src l w) :
    Meets read (encryptHead settings) e l w
      (fun block e' l w => ∃ (h : HeadData) (b : WireBlock) (answer : Answer) (chunk : ByteArray),
        R (h.info .chained none) (.ok answer) ∧
        HeadSealed (Src' (h.info .chained none)) settings e.credential answer chunk h b block e' l
          w)
      fun fault _ _ _ => bad fault ∨ ∃ info reply, R info reply ∧ ¬ Usable reply := by
  have hreader : Src l w (.empty ++ e.reader.buffer) e.reader.ended := by
    rw [ByteArray.empty_append]
    exact he.reader
  rw [encryptHead_eq, meets_settle, meets_bind, meets_require he.stage, meets_bind]
  refine (meets_nextChunk hs he.target hreader).mono (fun chunk e' l w hc => ?_)
    fun _ _ _ _ hb => .inl hb
  obtain ⟨hc, -, -, -, reader, rfl⟩ := hc
  refine (meets_answerHead hstable hask hstable' settings hc he.stage).mono
    (fun block e' l w hb => ?_) fun _ _ _ _ hb => .inr hb
  obtain ⟨h, b, answer, hR, hsealed⟩ := hb
  exact ⟨h, b, answer, _, hR, hsealed⟩

/-! ### Further blocks -/

/-- A further block has been sealed for a chunk, and the session has gone on. -/
structure FurtherSealed (Src : Supply ρ) (keys : PassKeys) (previous : Bytes 32)
    (taken chunk : ByteArray) (f : FurtherData) (b : WireBlock) (block : Block) (e : Encryptor)
    (l : ρ) (w : World) : Prop where
  block : ∃ stage, block = b.block stage
  sealedFurther : SealedFurther keys previous chunk f b
  size_le : chunk.size ≤ Limits.readMax
  advanced : Advanced Src keys (taken ++ chunk) b e l w

/-- **A further block is encrypted** for the next chunk. -/
theorem meets_encryptFurther (hs : Supplies read Src bad) (hstable : Stable Src) {keys : PassKeys}
    {tag : Bytes 32} (settings : PassSettings) (he : e.Between Src keys tag taken l w) :
    Meets read (encryptFurther settings) e l w
      (fun block e' l w => ∃ (f : FurtherData) (b : WireBlock) (chunk : ByteArray),
        f.algorithm = settings.algorithm ∧ FurtherSealed Src keys tag taken chunk f b block e' l w)
      fun fault _ _ _ => bad fault := by
  unfold encryptFurther
  rw [meets_settle, meets_bind, meets_require he.stage, meets_bind]
  refine (meets_nextChunk hs he.target he.reader).mono (fun chunk e' l w hc => ?_)
    fun _ _ _ _ hb => hb
  obtain ⟨hc, hne, -, -, reader, rfl⟩ := hc
  simp only [meets_bind, meets_draw, meets_get, he.keys, he.lastTag]
  generalize World.tapeBytes w.tape w.drawn settings.algorithm.ivBytes = iv
  -- The chunk has bytes, without which the payload would be too short.
  let f : FurtherData := ⟨settings.algorithm, iv.data, iv.size_data⟩
  obtain ⟨b, hblock, hb, hterminal, hrange, htext, hsigned, hdecrypt⟩ :=
    exists_sealBlock keys tag.data chunk.done (AssociatedData.encode_furtherData f) iv.size_data
      ⟨f.payloadMin_le (hne he.buffer_ne), size_payload_le f.size_toByteArray_le hc.size_le⟩
  refine (meets_except_of_ok hblock).2 ?_
  have hc' : Chunked Src taken chunk
      { e with
        reader, readTarget := min (e.readTarget * 2) Limits.readMax, keys := some keys,
        lastTag := some tag } l
      { w with drawn := w.drawn + settings.algorithm.ivBytes } :=
    ⟨hc.target, hstable (w.alike_draw _) hc.reader, hc.size_le, hc.last, hc.goesOn⟩
  refine (meets_finishBlock_wireBlock hc' (.inr he.stage) rfl hterminal).mono
    (fun block e' l w hf => ?_) fun _ _ _ _ h => h
  exact ⟨f, b, chunk.bytes, rfl, hf.1, ⟨⟨hrange, hb, htext, hsigned⟩, hdecrypt, hne he.buffer_ne⟩,
    hc.size_le, hf.2⟩

/-! ### The next block -/

section next

variable {settings : PassSettings} {fails : Fault → Encryptor → ρ → World → Prop}
  {good : Block → Encryptor → ρ → World → Prop}

/-- At the start of a pass, the next block is its head. -/
theorem meets_encryptBlock_of_initialized (h : e.stage = .initialized) :
    Meets read (encryptBlock settings) e l w good fails ↔
      Meets read (encryptHead settings) e l w good fails := by
  unfold encryptBlock
  rw [meets_bind, meets_get, h]

theorem meets_encryptBlock_of_headDone (h : e.stage = .headDone) :
    Meets read (encryptBlock settings) e l w good fails ↔
      Meets read (encryptFurther settings) e l w good fails := by
  unfold encryptBlock
  rw [meets_bind, meets_get, h]

theorem meets_encryptBlock_of_finished (h : e.stage = .finished) :
    Meets read (encryptBlock settings) e l w (fun _ _ _ _ => False) fun _ _ _ _ => True := by
  unfold encryptBlock encryptFurther require
  rw [meets_bind, meets_get, h]
  show Meets read (settle _) e l w _ fun _ _ _ _ => True
  rw [meets_settle, meets_bind, meets_bind, meets_get, meets_except, h]
  exact ⟨fun _ hok => (nomatch hok), fun _ _ => trivial⟩

end next

end Encryptor

end SealedStream
