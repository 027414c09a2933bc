import SealedStream.Proofs.Walk

/-!
# What encryption makes of bytes

What a session writes is a function of what it is given: the settings of its pass, the credential,
the answer to its question, the random bytes and the clear text (`PassSettings.sealPass`).  The
clear text is cut into chunks by its size alone (`chunksOf`), each of which is sealed in a block.
How it was delivered does not matter.

* `encryptsPass_of_sealPass`: a session on any input writes what this function says.
* `meets_traced_encryptHead`, `meets_traced_encryptFurther`: each step of a session adds what the
  function says to what has been written.
-/

namespace SealedStream

-- What a step meets is read off the rules for its parts, never off its run.
attribute [local irreducible] Meets

/-! ### Chunks -/

/-- Clear text in chunks: the first has `target` bytes, each of the others twice as many as the one
before, up to a limit; the last has what is left. -/
def chunksOf (target : Nat) (clear : ByteArray) : List ByteArray :=
  if _h : 0 < target ∧ target < clear.size then
    clear.extract 0 target ::
      chunksOf (min (target * 2) Limits.readMax) (clear.extract target clear.size)
  else [clear]
  termination_by clear.size
  decreasing_by
    rw [ByteArray.size_extract]
    omega

section chunks

variable {target : Nat} {clear chunk rest : ByteArray}

theorem chunksOf_of_le (h : clear.size ≤ target) : chunksOf target clear = [clear] := by
  rw [chunksOf, dif_neg (by omega)]

theorem chunksOf_append (ht : 0 < target) (hchunk : chunk.size = target) (hrest : rest ≠ .empty) :
    chunksOf target (chunk ++ rest) = chunk :: chunksOf (min (target * 2) Limits.readMax) rest := by
  have hsize : rest.size ≠ 0 := fun h => hrest (ByteArray.size_eq_zero_iff.1 h)
  have hall : (chunk ++ rest).size = target + rest.size := by
    rw [ByteArray.size_append, hchunk]
  rw [chunksOf, dif_pos (by omega), extract_append_left hchunk, extract_append_right hchunk rfl]

theorem chunksOf_ne_nil : chunksOf target clear ≠ [] := by
  rw [chunksOf]
  split
  · exact List.cons_ne_nil _ _
  · exact List.cons_ne_nil _ _

end chunks

/-! ### Blocks -/

/-- The bytes of a block before it is handed out. -/
def SealedParts.bytes (p : SealedParts) : ByteArray :=
  p.header ++ p.associated ++ p.text

/-- Whether a block that was handed out has these parts. -/
def Block.HasParts (block : Block) (p : SealedParts) : Prop :=
  ∃ stage, block = ⟨p.header, p.associated, p.text, stage⟩

theorem Block.HasParts.toByteArray_eq {block : Block} {p : SealedParts} (h : block.HasParts p) :
    block.toByteArray = p.bytes := by
  rcases h with ⟨stage, rfl⟩
  rfl

namespace PassSettings

variable (settings : PassSettings)

/-- The question for the password of a pass with the random bytes given. -/
def questionOf (random : Bytes Limits.headRandomBytes) : PassInfo :=
  settings.question (Encryptor.splitRandom settings.algorithm random).1
    (Encryptor.splitRandom settings.algorithm random).2

/-- The keys of a pass, and its head for a chunk, which is the last or not. -/
def sealHead (credential : Credential) (salt : Bytes 16) (iv : ByteArray) (answer : Answer)
    (chunk : ByteArray) (last : Bool) : Except Fault (PassKeys × SealedParts) := do
  let hint := answer.hint.getD ""
  if Limits.hintMaxChars < hint.length then throw .longHint
  let derivation ← Derivation.ofPassword settings.iterations answer.password credential salt.data
  let keys : PassKeys := ⟨derivation.key, credential.signingKey salt⟩
  let sealedHint ← Encryptor.sealHint settings.algorithm (credential.hintKey salt) iv hint
  let parts ← sealBlock keys .empty
    ⟨settings.algorithm, iv, salt, settings.iterations, settings.loop, sealedHint⟩ chunk last
  return (keys, parts)

/-- A further block for a chunk, after one with the tag `previous`. -/
def sealFurther (keys : PassKeys) (previous : Bytes 32) (iv : ByteArray) (chunk : ByteArray)
    (last : Bool) : Except Fault SealedParts :=
  sealBlock keys previous.data { algorithm := settings.algorithm, iv } chunk last

/-- The further blocks of a pass for some chunks, with random bytes from `start` on. -/
def sealRest (keys : PassKeys) (tape : Nat → UInt8) :
    (previous : Bytes 32) → (start : Nat) → List ByteArray → Except Fault ByteArray
  | _, _, [] => .ok .empty
  | previous, start, chunk :: rest => do
    let iv := World.tapeBytes tape start settings.algorithm.ivBytes
    let parts ← settings.sealFurther keys previous iv.data chunk rest.isEmpty
    let later ← sealRest keys tape parts.tag (start + settings.algorithm.ivBytes) rest
    return parts.bytes ++ later

/-- **The bytes of a pass** for some clear text, of which the first chunk has at most `readStart`
bytes. -/
def sealPass (credential : Credential) (readStart : Nat) (answer : Answer) (tape : Nat → UInt8)
    (start : Nat) (clear : ByteArray) : Except Fault ByteArray :=
  match chunksOf (clampReadStart readStart) clear with
  | [] => .ok .empty
  | chunk :: rest => do
    let random := World.tapeBytes tape start Limits.headRandomBytes
    let (salt, iv) := Encryptor.splitRandom settings.algorithm random
    let (keys, parts) ← settings.sealHead credential salt iv answer chunk rest.isEmpty
    let later ← settings.sealRest keys tape parts.tag (start + Limits.headRandomBytes) rest
    return parts.bytes ++ later

end PassSettings

/-! ### Traced steps -/

namespace Encryptor

variable {ρ : Type} {read : Source ρ} {Src : Supply ρ} {bad : Fault → Prop} {e : Encryptor}
  {events : List Event} {l : ρ} {w : World} {taken : ByteArray} {settings : PassSettings}

/-- What a session forgets at a fault is none of its events. -/
theorem meets_traced_settle {α : Type} (step : Step Encryptor α) {s : Encryptor × List Event}
    {good : α → Encryptor × List Event → ρ → World → Prop}
    {fails : Fault → List Event → ρ → World → Prop} :
    Meets read (Step.traced (settle step)) s l w good (fun fault s l w => fails fault s.2 l w) ↔
      Meets read (Step.traced step) s l w good fun fault s l w => fails fault s.2 l w := by
  unfold settle
  rw [meets_traced_tryCatch]
  simp only [meets_traced_bind, meets_traced_modify, meets_traced_throw]

theorem meets_traced_require {expected : Stage} {operation : String} (h : e.stage = expected)
    {good : Unit → Encryptor × List Event → ρ → World → Prop}
    {fails : Fault → Encryptor × List Event → ρ → World → Prop} :
    Meets read (Step.traced (require expected operation)) (e, events) l w good fails ↔
      good ⟨⟩ (e, events) l w := by
  unfold require
  rw [meets_traced_bind, meets_traced_get]
  exact meets_traced_except_of_ok (if_pos (by rw [h]; exact List.mem_singleton.2 rfl))

/-- A chunk of at most `target` bytes that was cut from a source behind `taken`: it is shorter only
if it is the last, and if it is not, more bytes are known to follow. -/
structure Cut (Src : Supply ρ) (taken : ByteArray) (target : Nat) (chunk : Chunk) (l : ρ)
    (w : World) : Prop where
  size_le : chunk.bytes.size ≤ target
  full : chunk.done = false → chunk.bytes.size = target
  source : ∃ buffer ended, Src l w (taken ++ chunk.bytes ++ buffer) ended ∧
    (chunk.done = true → ended = true ∧ buffer = .empty) ∧ (chunk.done = false → buffer ≠ .empty)

/-- **The next chunk** of a source whose bytes are known is the first of those ahead. -/
theorem Cut.eq_of_chunksOf {all ahead first : ByteArray} {rest : List ByteArray}
    (ht : Total all Src) {target : Nat} {chunk : Chunk} (hc : Cut Src taken target chunk l w)
    (hpos : 0 < target) (hall : all = taken ++ ahead)
    (hchunks : chunksOf target ahead = first :: rest) :
    chunk.bytes = first ∧ chunk.done = rest.isEmpty ∧ (chunk.done = false →
      ∃ left, ahead = first ++ left ∧ chunksOf (min (target * 2) Limits.readMax) left = rest) := by
  rcases hc.source with ⟨buffer, ended, hsrc, hlast, hmore⟩
  rcases ht hsrc with ⟨left, hleft, hend⟩
  rw [hall, ByteArray.append_assoc, ByteArray.append_assoc] at hleft
  have hahead : ahead = chunk.bytes ++ (buffer ++ left) := (append_inj hleft rfl).2
  cases hd : chunk.done with
  | true =>
    have hchunk : ahead = chunk.bytes := by
      rw [hahead, (hlast hd).2, hend (hlast hd).1, ByteArray.append_empty, ByteArray.append_empty]
    rw [hchunk, chunksOf_of_le hc.size_le] at hchunks
    cases hchunks
    exact ⟨rfl, rfl, nofun⟩
  | false =>
    have hne : buffer ++ left ≠ .empty := by
      intro hempty
      exact hmore hd (ByteArray.append_eq_empty_iff.1 hempty).1
    rw [hahead, chunksOf_append hpos (hc.full hd) hne] at hchunks
    cases hchunks
    exact ⟨rfl, (List.isEmpty_eq_false_iff.2 chunksOf_ne_nil).symm, fun _ => ⟨_, hahead, rfl⟩⟩

/-- A session that has taken its next chunk. -/
theorem Chunked.cut {chunk : Chunk} {target : Nat} (hc : Chunked Src taken chunk e l w)
    (hsize : chunk.bytes.size ≤ target) (hfull : chunk.done = false → chunk.bytes.size = target) :
    Cut Src taken target chunk l w :=
  ⟨hsize, hfull, _, _, hc.reader, hc.last, fun hd => (hc.goesOn hd).2⟩

/-- A session `e` that has sealed a chunk in a block, and has gone on to `e'`. -/
structure ChunkSealed (Src : Supply ρ) (keys : PassKeys) (taken : ByteArray) (e : Encryptor)
    (chunk : Chunk) (parts : SealedParts) (block : Block) (e' : Encryptor) (l : ρ) (w : World) :
    Prop where
  block : block.HasParts parts
  cut : Cut Src taken e.readTarget chunk l w
  behind : Behind Src keys parts.tag (taken ++ chunk.bytes) chunk.done e' l w
  target : e'.readTarget = min (e.readTarget * 2) Limits.readMax

/-- What a session has taken up to a block is what its source has given, but for what it holds. -/
theorem Behind.cut {chunk : Chunk} {keys : PassKeys} {tag : Bytes 32} {target : Nat}
    (h : Behind Src keys tag (taken ++ chunk.bytes) chunk.done e l w)
    (hsize : chunk.bytes.size ≤ target) (hfull : chunk.done = false → chunk.bytes.size = target) :
    Cut Src taken target chunk l w := by
  refine ⟨hsize, hfull, ?_⟩
  rw [Behind] at h
  cases hd : chunk.done with
  | true =>
    rw [hd, if_pos rfl] at h
    refine ⟨.empty, true, ?_, fun _ => ⟨rfl, rfl⟩, fun hf => absurd hf.symm Bool.false_ne_true⟩
    rw [ByteArray.append_empty]
    exact h.reader
  | false =>
    rw [hd, if_neg Bool.false_ne_true] at h
    exact ⟨_, _, h.reader, fun hf => absurd hf Bool.false_ne_true, fun _ => h.buffer_ne⟩

/-- Where a session is that has sealed the first chunk ahead: at its end, or in front of the
others. -/
theorem ChunkSealed.of_chunksOf {all ahead first : ByteArray} {rest : List ByteArray}
    (ht : Total all Src) {keys : PassKeys} {chunk : Chunk} {parts : SealedParts} {block : Block}
    {e' : Encryptor} (h : ChunkSealed Src keys taken e chunk parts block e' l w)
    (hpos : 0 < e.readTarget) (hall : all = taken ++ ahead)
    (hchunks : chunksOf e.readTarget ahead = first :: rest) :
    block.HasParts parts ∧ ((rest = [] ∧ e'.stage = .finished) ∨
      ∃ left, ahead = first ++ left ∧ chunksOf e'.readTarget left = rest ∧
        e'.Between Src keys parts.tag (taken ++ first) l w) := by
  rcases h.cut.eq_of_chunksOf ht hpos hall hchunks with ⟨rfl, hdone, hmore⟩
  have hbehind := h.behind
  rw [Behind] at hbehind
  refine ⟨h.block, ?_⟩
  cases hd : chunk.done with
  | true =>
    rw [hd, if_pos rfl] at hbehind
    rw [hd] at hdone
    exact .inl ⟨List.isEmpty_iff.1 hdone.symm, hbehind.stage⟩
  | false =>
    rw [hd, if_neg Bool.false_ne_true] at hbehind
    rcases hmore hd with ⟨left, hahead, hrest⟩
    rw [← h.target] at hrest
    exact .inr ⟨left, hahead, hrest, hbehind⟩

/-- The events of a step that draws some random bytes and asks some questions. -/
structure Happened (events : List Event) (random : ByteArray)
    (asked : List (PassInfo × Except Fault Answer)) (events' : List Event) : Prop where
  drawn : drawnBytes events' = drawnBytes events ++ random
  asked : questions events' = questions events ++ asked

theorem Happened.drawAndAsk (events : List Event) {reads : List Event} (hr : Plain reads) {n : Nat}
    (random : Bytes n) (info : PassInfo) (reply : Except Fault Answer) :
    Happened events random.data [(info, reply)]
      (events ++ reads ++ [⟨.draw n, random⟩] ++ [⟨.password info, reply⟩]) where
  drawn := by
    have hinfo : drawnBytes [⟨.password info, reply⟩] = .empty := rfl
    rw [drawnBytes_append, drawnBytes_append, drawnBytes_append, hr.drawn, drawnBytes_draw, hinfo,
      ByteArray.append_empty, ByteArray.append_empty]
  asked := by
    have hdraw : questions [⟨.draw n, random⟩] = [] := rfl
    rw [questions_append, questions_append, questions_append, hr.asked, hdraw, List.append_nil,
      List.append_nil]
    rfl

theorem Happened.draw (events : List Event) {reads : List Event} (hr : Plain reads) {n : Nat}
    (random : Bytes n) :
    Happened events random.data [] (events ++ reads ++ [⟨.draw n, random⟩]) where
  drawn := by
    rw [drawnBytes_append, drawnBytes_append, hr.drawn, drawnBytes_draw, ByteArray.append_empty]
  asked := by
    rw [questions_append, questions_append, hr.asked, List.append_nil]
    exact List.append_nil _

theorem Happened.append_plain {random : ByteArray}
    {asked : List (PassInfo × Except Fault Answer)} {events' later : List Event}
    (h : Happened events random asked events') (hl : Plain later) :
    Happened events random asked (events' ++ later) where
  drawn := by rw [drawnBytes_append, hl.drawn, ByteArray.append_empty, h.drawn]
  asked := by rw [questions_append, hl.asked, List.append_nil, h.asked]

theorem meets_traced_finishBlock {chunk : Chunk} {keys : PassKeys} (parts : SealedParts)
    {fails : Fault → Encryptor × List Event → ρ → World → Prop}
    (hc : Chunked Src taken chunk e l w) (hstage : e.stage = .initialized ∨ e.stage = .headDone)
    (hkeys : e.keys = some keys) :
    Meets read (Step.traced (finishBlock parts chunk.done)) (e, events) l w
      (fun block s l w =>
        (∃ stage, block = ⟨parts.header, parts.associated, parts.text, stage⟩) ∧
        Behind Src keys parts.tag (taken ++ chunk.bytes) chunk.done s.1 l w ∧
        s.1.readTarget = e.readTarget ∧ ∃ later, Plain later ∧ s.2 = events ++ later) fails := by
  have hfinish : Meets read (finishBlock parts chunk.done) e l w _ fun _ _ _ _ => False :=
    meets_finishBlock parts hc hstage hkeys
  refine (hfinish.traced_of_readsOnly (closed_readsOnly.finishBlock _ _)).mono ?_ ?_
  · intro block s l w hf
    exact ⟨hf.1.1, hf.1.2.1, hf.1.2.2, hf.2⟩
  · intro fault s l w hf
    exact hf.1.elim

/-- **A chunk is sealed in the head** as the function says, or fails to be. -/
theorem meets_traced_sealHead (hinput : InputOnly Src) {chunk : Chunk}
    (hc : Chunked Src .empty chunk e l w) (he : e.stage = .initialized) (salt : Bytes 16)
    (iv : ByteArray) (answer : Answer) :
    Meets read (Step.traced (sealHead settings chunk salt iv answer)) (e, events) l w
      (fun block s l w => ∃ keys parts later,
        settings.sealHead e.credential salt iv answer chunk.bytes chunk.done = .ok (keys, parts) ∧
        (∃ stage, block = ⟨parts.header, parts.associated, parts.text, stage⟩) ∧
        Behind Src keys parts.tag chunk.bytes chunk.done s.1 l w ∧
        s.1.readTarget = e.readTarget ∧ s.2 = events ++ later ∧ Plain later)
      fun fault s l' w' => ∃ later,
        settings.sealHead e.credential salt iv answer chunk.bytes chunk.done = .error fault ∧
        s.2 = events ++ later ∧ Plain later ∧ l' = l ∧ w'.input = w.input := by
  unfold sealHead PassSettings.sealHead
  by_cases hhint : Limits.hintMaxChars < (answer.hint.getD "").length
  · rw [if_pos hhint, if_pos hhint, meets_traced_bind, meets_traced_throw]
    exact ⟨[], rfl, (List.append_nil _).symm, .nil, rfl, rfl⟩
  rw [if_neg hhint, if_neg hhint]
  simp only [meets_traced_bind, meets_traced_get, meets_traced_except, meets_traced_derive,
    meets_traced_modify]
  refine ⟨fun derivation hder => ⟨fun sealedHint hsealed => ⟨fun parts hparts => ?_,
    fun fault hf => ?_⟩, fun fault hf => ?_⟩, fun fault hf => ?_⟩
  · have hc' : Chunked Src .empty chunk
        { e with keys := some ⟨derivation.key, e.credential.signingKey salt⟩ } l
        { w with keys := (w.keys.derive derivation).2 } :=
      ⟨hc.target, hinput hc.reader _ rfl, hc.size_le, hc.last, hc.goesOn⟩
    refine (meets_traced_finishBlock parts hc' (.inl he) rfl).mono (fun block s l w hf => ?_)
      fun _ _ _ _ hf => hf
    obtain ⟨hblock, hbehind, htarget, later, hplain, hevents⟩ := hf
    rw [ByteArray.empty_append] at hbehind
    refine ⟨_, parts, _, bind_eq_ok.2 ⟨derivation, hder, ?_⟩, hblock, hbehind, htarget, ?_,
      (Plain.derive derivation derivation.key).append hplain⟩
    · exact bind_eq_ok.2 ⟨sealedHint, hsealed, bind_eq_ok.2 ⟨parts, hparts, rfl⟩⟩
    · rw [hevents, List.append_assoc]
  · refine ⟨_, bind_eq_error.2 (.inr ⟨derivation, hder, ?_⟩), rfl, .derive _ _, trivial, trivial⟩
    exact bind_eq_error.2 (.inr ⟨sealedHint, hsealed, bind_eq_error.2 (.inl hf)⟩)
  · refine ⟨_, bind_eq_error.2 (.inr ⟨derivation, hder, ?_⟩), rfl, .derive _ _, trivial, trivial⟩
    exact bind_eq_error.2 (.inl hf)
  · exact ⟨[], bind_eq_error.2 (.inl hf), (List.append_nil _).symm, .nil, trivial, trivial⟩

/-- Why a step that encrypts a head fails: its source does, or the answer cannot be used for the
chunk. -/
def HeadFails (Src : Supply ρ) (bad : Fault → Prop) (settings : PassSettings) (e : Encryptor)
    (events : List Event) (fault : Fault) (events' : List Event) (l : ρ) (w : World) : Prop :=
  bad fault ∨ ∃ chunk random salt iv reply, splitRandom settings.algorithm random = (salt, iv) ∧
    (reply >>= fun answer =>
      settings.sealHead e.credential salt iv answer chunk.bytes chunk.done) = .error fault ∧
    Cut Src .empty e.readTarget chunk l w ∧
    Happened events random.data [(settings.question salt iv, reply)] events'

/-- **A step that encrypts a head** writes what the function says, of a chunk, random bytes and an
answer. -/
theorem meets_traced_encryptHead (hs : Supplies read Src bad) (hinput : InputOnly Src)
    (he : e.Fresh Src l w) :
    Meets read (Step.traced (encryptHead settings)) (e, events) l w
      (fun block s l w => ∃ chunk random salt iv answer keys parts,
        splitRandom settings.algorithm random = (salt, iv) ∧
        settings.sealHead e.credential salt iv answer chunk.bytes chunk.done = .ok (keys, parts) ∧
        ChunkSealed Src keys .empty e chunk parts block s.1 l w ∧
        Happened events random.data [(settings.question salt iv, .ok answer)] s.2)
      fun fault s l w => HeadFails Src bad settings e events fault s.2 l w := by
  have hreader : Src l w (.empty ++ e.reader.buffer) e.reader.ended := by
    rw [ByteArray.empty_append]
    exact he.reader
  rw [encryptHead_eq, meets_traced_settle, meets_traced_bind, meets_traced_require he.stage,
    meets_traced_bind]
  refine ((meets_nextChunk hs he.target hreader).traced_of_readsOnly readsOnly_nextChunk).mono ?_ ?_
  · rintro chunk ⟨e', events'⟩ l w ⟨⟨hc, -, hsize, hfull, reader, rfl⟩, reads, hplain, rfl⟩
    unfold answerHead
    rw [meets_traced_bind, meets_traced_draw]
    generalize World.tapeBytes w.tape w.drawn Limits.headRandomBytes = random
    rcases hsplit : splitRandom settings.algorithm random with ⟨salt, iv⟩
    have hquestion : (⟨Limits.version5, settings.algorithm, settings.iterations, settings.loop, iv,
        salt, none⟩ : PassInfo) = settings.question salt iv := rfl
    simp only [meets_traced_bind, meets_traced_password, meets_traced_except, hquestion]
    generalize w.provider (w.asked ++ [settings.question salt iv]) = reply
    have hhappened := Happened.drawAndAsk events hplain random (settings.question salt iv) reply
    have hcut : ∀ w' : World, w'.input = w.input → Cut Src .empty e.readTarget chunk l w' := by
      intro w' hw'
      exact Chunked.cut ⟨hc.target, hinput hc.reader w' hw', hc.size_le, hc.last, hc.goesOn⟩
        hsize hfull
    constructor
    · rintro answer rfl
      have hc' : Chunked Src .empty chunk
          { e with reader, readTarget := min (e.readTarget * 2) Limits.readMax } l
          { w with
            drawn := w.drawn + Limits.headRandomBytes
            asked := w.asked ++ [settings.question salt iv] } :=
        ⟨hc.target, hinput hc.reader _ rfl, hc.size_le, hc.last, hc.goesOn⟩
      refine (meets_traced_sealHead hinput hc' he.stage salt iv answer).mono ?_ ?_
      · rintro block s l w ⟨keys, parts, later, hsealed, hblock, hbehind, htarget, hevents, hl⟩
        refine ⟨chunk, random, salt, iv, answer, keys, parts, hsplit, hsealed, ?_, ?_⟩
        · rw [← ByteArray.empty_append (b := chunk.bytes)] at hbehind
          exact ⟨hblock, hbehind.cut hsize hfull, hbehind, htarget⟩
        · rw [hevents]
          exact hhappened.append_plain hl
      · rintro fault s l w ⟨later, hfault, hevents, hl, rfl, hw⟩
        refine .inr ⟨chunk, random, salt, iv, .ok answer, hsplit, hfault, hcut w hw, ?_⟩
        rw [hevents]
        exact hhappened.append_plain hl
    · intro fault hfault
      refine .inr ⟨chunk, random, salt, iv, reply, hsplit, ?_, hcut _ rfl, hhappened⟩
      exact bind_eq_error.2 (.inl hfault)
  · rintro fault ⟨e', events'⟩ l w ⟨hb, -⟩
    exact .inl hb

/-- Why a step that encrypts a further block fails: its source does, or the chunk cannot be
sealed. -/
def FurtherFails (Src : Supply ρ) (bad : Fault → Prop) (settings : PassSettings) (keys : PassKeys)
    (tag : Bytes 32) (taken : ByteArray) (e : Encryptor) (events : List Event) (fault : Fault)
    (events' : List Event) (l : ρ) (w : World) : Prop :=
  bad fault ∨ ∃ (chunk : Chunk) (iv : Bytes settings.algorithm.ivBytes),
    settings.sealFurther keys tag iv.data chunk.bytes chunk.done = .error fault ∧
    Cut Src taken e.readTarget chunk l w ∧ Happened events iv.data [] events'

/-- **A step that encrypts a further block** writes what the function says, of a chunk that is not
empty and random bytes. -/
theorem meets_traced_encryptFurther (hs : Supplies read Src bad) (hinput : InputOnly Src)
    {keys : PassKeys} {tag : Bytes 32} (he : e.Between Src keys tag taken l w) :
    Meets read (Step.traced (encryptFurther settings)) (e, events) l w
      (fun block s l w => ∃ (chunk : Chunk) (iv : Bytes settings.algorithm.ivBytes)
        (parts : SealedParts),
        settings.sealFurther keys tag iv.data chunk.bytes chunk.done = .ok parts ∧
        ChunkSealed Src keys taken e chunk parts block s.1 l w ∧ chunk.bytes ≠ .empty ∧
        Happened events iv.data [] s.2)
      fun fault s l w => FurtherFails Src bad settings keys tag taken e events fault s.2 l w := by
  unfold encryptFurther
  rw [meets_traced_settle, meets_traced_bind, meets_traced_require he.stage, meets_traced_bind]
  refine ((meets_nextChunk hs he.target he.reader).traced_of_readsOnly
    readsOnly_nextChunk).mono ?_ ?_
  · rintro chunk ⟨e', events'⟩ l w ⟨⟨hc, hne, hsize, hfull, reader, rfl⟩, reads, hplain, rfl⟩
    simp only [meets_traced_bind, meets_traced_draw, meets_traced_get, he.keys, he.lastTag]
    generalize World.tapeBytes w.tape w.drawn settings.algorithm.ivBytes = iv
    have hhappened := Happened.draw events hplain iv
    have hc' : Chunked Src taken chunk
        { e with
          reader, readTarget := min (e.readTarget * 2) Limits.readMax, keys := some keys,
          lastTag := some tag } l
        { w with drawn := w.drawn + settings.algorithm.ivBytes } :=
      ⟨hc.target, hinput hc.reader _ rfl, hc.size_le, hc.last, hc.goesOn⟩
    rw [meets_traced_except]
    constructor
    · intro parts hparts
      refine (meets_traced_finishBlock parts hc' (.inr he.stage) rfl).mono ?_ fun _ _ _ _ h => h
      rintro block s l w ⟨hblock, hbehind, htarget, later, hl, hevents⟩
      refine ⟨chunk, iv, parts, hparts, ⟨hblock, hbehind.cut hsize hfull, hbehind, htarget⟩,
        hne he.buffer_ne, ?_⟩
      rw [hevents]
      exact hhappened.append_plain hl
    · intro fault hfault
      exact .inr ⟨chunk, iv, hfault, hc'.cut hsize hfull, hhappened⟩
  · rintro fault ⟨e', events'⟩ l w ⟨hb, -⟩
    exact .inl hb

section next

variable {good : Block → Encryptor × List Event → ρ → World → Prop}
  {fails : Fault → Encryptor × List Event → ρ → World → Prop}

theorem meets_traced_encryptBlock_of_initialized (h : e.stage = .initialized) :
    Meets read (Step.traced (encryptBlock settings)) (e, events) l w good fails ↔
      Meets read (Step.traced (encryptHead settings)) (e, events) l w good fails := by
  unfold encryptBlock
  rw [meets_traced_bind, meets_traced_get, h]

theorem meets_traced_encryptBlock_of_headDone (h : e.stage = .headDone) :
    Meets read (Step.traced (encryptBlock settings)) (e, events) l w good fails ↔
      Meets read (Step.traced (encryptFurther settings)) (e, events) l w good fails := by
  unfold encryptBlock
  rw [meets_traced_bind, meets_traced_get, h]

end next

/-! ### A session on its own -/

/-- Some steps of a session on a source, one after another, and the blocks that they gave. -/
inductive Writes (read : Source ρ) (settings : PassSettings) :
    Encryptor → ρ → World → List Block → Encryptor → ρ → World → Prop
  | nil {e : Encryptor} {l : ρ} {w : World} : Writes read settings e l w [] e l w
  | step {e e' e'' : Encryptor} {l l' l'' : ρ} {w w' w'' : World} {block : Block}
      {blocks : List Block} :
    read.run (encryptBlock settings e) l w = (((.ok block, e'), l'), w') →
      Writes read settings e' l' w' blocks e'' l'' w'' →
      Writes read settings e l w (block :: blocks) e'' l'' w''

theorem Writes.step_host {e e' e'' : Encryptor} {w w' w'' : World} {block : Block}
    {blocks : List Block} (hrun : w.run (encryptBlock settings e) = ((.ok block, e'), w'))
    (h : Writes .host settings e' () w' blocks e'' () w'') :
    Writes .host settings e () w (block :: blocks) e'' () w'' := by
  refine .step ?_ h
  rw [Source.run_host, hrun]

end Encryptor

/-- The next block of a pass, as bytes, with the events of its step. -/
theorem EncryptedPass.meets_traced_next {ρ : Type} {read : Source ρ} {settings : PassSettings}
    {e : Encryptor} {events : List Event} {l : ρ} {w : World}
    {good : ByteArray → EncryptedPass × List Event → ρ → World → Prop}
    {fails : Fault → EncryptedPass × List Event → ρ → World → Prop} :
    Meets read (Step.traced engine.next) (⟨e, settings⟩, events) l w good fails ↔
      Meets read (Step.traced (Encryptor.encryptBlock settings)) (e, events) l w
        (fun block t l w => good block.toByteArray (⟨t.1, settings⟩, t.2) l w)
        fun fault t l w => fails fault (⟨t.1, settings⟩, t.2) l w := by
  show Meets read (Step.traced next) _ l w _ _ ↔ _
  unfold next
  simp only [meets_traced_bind, meets_traced_get, meets_traced_onPart, meets_traced_pure]

/-- A session on the input of a world encrypts one pass to its end, and has written `out` by
then. -/
def World.EncryptsPass (w : World) (settings : PassSettings) (credential : Credential)
    (readStart : Nat) (out : ByteArray) : Prop :=
  ∃ (e : Encryptor) (w' : World) (blocks : List Block),
    Encryptor.Writes .host settings (.start credential readStart) () w blocks e () w' ∧
      e.stage = .finished ∧
      out = concat (blocks.map Block.toByteArray)

section alone

variable {settings : PassSettings} {all : ByteArray}

open Encryptor

/-- What was drawn in a step is what the tape has next. -/
theorem eq_tapeBytes_of_happened {α : Type} {p : Program Host α} {w : World} {n : Nat}
    {random : Bytes n} {asked : List (PassInfo × Except Fault Answer)}
    (h : Happened [] random.data asked (w.eventsOf p)) :
    random = World.tapeBytes w.tape w.drawn n ∧ (w.run p).2.tape = w.tape ∧
      (w.run p).2.drawn = w.drawn + n := by
  rcases World.onTape_eventsOf p w with ⟨htape, hsame, hcount⟩
  have hdrawn : drawnBytes (w.eventsOf p) = random.data := by
    rw [h.drawn]
    exact ByteArray.empty_append
  rw [hdrawn] at htape hcount
  rw [random.size_data] at hcount
  exact ⟨htape.eq_tapeBytes, hsame, hcount⟩

/-- **A further block that a session writes on its own** is told by what is ahead. -/
theorem run_encryptBlock_of_between {keys : PassKeys} {e : Encryptor} {w : World} {tag : Bytes 32}
    {taken ahead : ByteArray} (he : e.Between (hostSupply all) keys tag taken () w)
    (hall : all = taken ++ ahead) {parts : SealedParts} {chunk : ByteArray} {rest : List ByteArray}
    (hchunks : chunksOf e.readTarget ahead = chunk :: rest)
    (hparts : settings.sealFurther keys tag
      (World.tapeBytes w.tape w.drawn settings.algorithm.ivBytes).data chunk rest.isEmpty
        = .ok parts) :
    ∃ block e' w', w.run (encryptBlock settings e) = ((.ok block, e'), w') ∧
      block.HasParts parts ∧ w'.tape = w.tape ∧
      w'.drawn = w.drawn + settings.algorithm.ivBytes ∧
      ((rest = [] ∧ e'.stage = .finished) ∨ ∃ ahead', ahead = chunk ++ ahead' ∧
        chunksOf e'.readTarget ahead' = rest ∧
        e'.Between (hostSupply all) keys parts.tag (taken ++ chunk) () w') := by
  have hm : Meets Source.host (Step.traced (encryptBlock settings)) (e, []) () w _ _ :=
    (meets_traced_encryptBlock_of_headDone he.stage).2
      (meets_traced_encryptFurther (supplies_host all) (inputOnly_hostSupply all) he)
  have hrun := hm.of_run_traced
  rcases hresult : w.run (encryptBlock settings e) with ⟨⟨fault | block, e'⟩, w'⟩
  · rw [hresult] at hrun
    rcases hrun with hbad | ⟨c, iv, hfault, hcut, hhappened⟩
    · exact hbad.elim
    · -- The chunk can be sealed with what the tape has next.
      rcases hcut.eq_of_chunksOf (total_hostSupply all) he.target.1 hall hchunks with
        ⟨rfl, hdone, -⟩
      rcases eq_tapeBytes_of_happened hhappened with ⟨rfl, -⟩
      rw [hdone, hparts] at hfault
      cases hfault
  · rw [hresult] at hrun
    rcases hrun with ⟨c, iv, parts', hparts', hsealed, -, hhappened⟩
    have hnext := hsealed.of_chunksOf (total_hostSupply all) he.target.1 hall hchunks
    rcases hsealed.cut.eq_of_chunksOf (total_hostSupply all) he.target.1 hall hchunks with
      ⟨rfl, hdone, -⟩
    rcases eq_tapeBytes_of_happened hhappened with ⟨rfl, htape, hdrawn⟩
    rw [hresult] at htape hdrawn
    rw [hdone, hparts] at hparts'
    cases hparts'
    exact ⟨_, e', w', rfl, hnext.1, htape, hdrawn, hnext.2⟩

/-- **The further blocks** that a session writes on its own.  The induction is on the chunks that
are ahead. -/
theorem exists_writes_of_sealRest {keys : PassKeys} (chunks : List ByteArray) :
    ∀ {e : Encryptor} {w : World} {tag : Bytes 32} {taken ahead out : ByteArray},
      e.Between (hostSupply all) keys tag taken () w → all = taken ++ ahead →
      chunksOf e.readTarget ahead = chunks →
      settings.sealRest keys w.tape tag w.drawn chunks = .ok out →
      ∃ e' w' blocks, Writes .host settings e () w blocks e' () w' ∧ e'.stage = .finished ∧
        out = concat (blocks.map Block.toByteArray) := by
  induction chunks with
  | nil =>
    intro e w tag taken ahead out _ _ hchunks _
    exact absurd hchunks chunksOf_ne_nil
  | cons chunk rest ih =>
    intro e w tag taken ahead out he hall hchunks hout
    rcases bind_eq_ok.1 hout with ⟨parts, hparts, hlater⟩
    rcases bind_eq_ok.1 hlater with ⟨later, hrest, hbytes⟩
    rcases run_encryptBlock_of_between he hall hchunks hparts with
      ⟨block, e', w', hrun, hblock, htape, hdrawn, ⟨rfl, hfinished⟩ | ⟨ahead', rfl, hchunks', he'⟩⟩
    · refine ⟨e', w', [block], .step_host hrun .nil, hfinished, ?_⟩
      cases hrest
      cases hbytes
      simp [hblock.toByteArray_eq]
    · rw [← htape, ← hdrawn] at hrest
      rw [← ByteArray.append_assoc] at hall
      rcases ih he' hall hchunks' hrest with ⟨e'', w'', blocks, hwrites, hfinished, rfl⟩
      refine ⟨e'', w'', block :: blocks, .step_host hrun hwrites, hfinished, ?_⟩
      cases hbytes
      simp [hblock.toByteArray_eq]

/-- The question of a head is the one of which the answer is known. -/
theorem answer_eq_of_happened {e : Encryptor} {w : World} {answer : Answer} {salt salt' : Bytes 16}
    {iv iv' : ByteArray} {random : Bytes Limits.headRandomBytes} {reply : Except Fault Answer}
    (hsplit : splitRandom settings.algorithm
      (World.tapeBytes w.tape w.drawn Limits.headRandomBytes) = (salt, iv))
    (hanswer : w.provider (w.asked ++ [settings.question salt iv]) = .ok answer)
    (hsplit' : splitRandom settings.algorithm random = (salt', iv'))
    (h : Happened [] random.data [(settings.question salt' iv', reply)]
      (w.eventsOf (encryptBlock settings e))) :
    salt' = salt ∧ iv' = iv ∧ reply = .ok answer := by
  rcases eq_tapeBytes_of_happened h with ⟨rfl, -⟩
  rcases Prod.mk.inj (hsplit'.symm.trans hsplit) with ⟨rfl, rfl⟩
  have hanswers := (World.answers_eventsOf (encryptBlock settings e) w).1
  rw [h.asked] at hanswers
  exact ⟨rfl, rfl, hanswers.1.symm.trans hanswer⟩

/-- **The head that a session writes on its own.** -/
theorem run_encryptBlock_of_fresh {e : Encryptor} {w : World} (he : e.Fresh (hostSupply all) () w)
    {answer : Answer} {salt : Bytes 16} {iv : ByteArray}
    (hsplit : splitRandom settings.algorithm
      (World.tapeBytes w.tape w.drawn Limits.headRandomBytes) = (salt, iv))
    (hanswer : w.provider (w.asked ++ [settings.question salt iv]) = .ok answer)
    {keys : PassKeys} {parts : SealedParts} {chunk : ByteArray} {rest : List ByteArray}
    (hchunks : chunksOf e.readTarget all = chunk :: rest)
    (hparts : settings.sealHead e.credential salt iv answer chunk rest.isEmpty
      = .ok (keys, parts)) :
    ∃ block e' w', w.run (encryptBlock settings e) = ((.ok block, e'), w') ∧
      block.HasParts parts ∧ w'.tape = w.tape ∧
      w'.drawn = w.drawn + Limits.headRandomBytes ∧
      ((rest = [] ∧ e'.stage = .finished) ∨ ∃ ahead, all = chunk ++ ahead ∧
        chunksOf e'.readTarget ahead = rest ∧
        e'.Between (hostSupply all) keys parts.tag chunk () w') := by
  have hm : Meets Source.host (Step.traced (encryptBlock settings)) (e, []) () w _ _ :=
    (meets_traced_encryptBlock_of_initialized he.stage).2
      (meets_traced_encryptHead (supplies_host all) (inputOnly_hostSupply all) he)
  have hrun := hm.of_run_traced
  have hall : all = .empty ++ all := ByteArray.empty_append.symm
  rcases hresult : w.run (encryptBlock settings e) with ⟨⟨fault | block, e'⟩, w'⟩
  · rw [hresult] at hrun
    rcases hrun with hbad | ⟨c, random, salt', iv', reply, hsplit', hfault, hcut, hhappened⟩
    · exact hbad.elim
    · rcases hcut.eq_of_chunksOf (total_hostSupply all) he.target.1 hall hchunks with
        ⟨rfl, hdone, -⟩
      rcases answer_eq_of_happened hsplit hanswer hsplit' hhappened with ⟨rfl, rfl, rfl⟩
      have hrefused : settings.sealHead e.credential salt' iv' answer c.bytes c.done
          = .error fault := hfault
      rw [hdone, hparts] at hrefused
      cases hrefused
  · rw [hresult] at hrun
    rcases hrun with ⟨c, random, salt', iv', answer', keys', parts', hsplit', hparts', hsealed,
      hhappened⟩
    have hnext := hsealed.of_chunksOf (total_hostSupply all) he.target.1 hall hchunks
    rcases hsealed.cut.eq_of_chunksOf (total_hostSupply all) he.target.1 hall hchunks with
      ⟨rfl, hdone, -⟩
    rcases eq_tapeBytes_of_happened hhappened with ⟨-, htape, hdrawn⟩
    rcases answer_eq_of_happened hsplit hanswer hsplit' hhappened with ⟨rfl, rfl, hsame⟩
    cases hsame
    rw [hresult] at htape hdrawn
    rw [hdone, hparts] at hparts'
    cases hparts'
    rw [ByteArray.empty_append] at hnext
    exact ⟨_, e', w', rfl, hnext.1, htape, hdrawn, hnext.2⟩

/-- **A session on its own** writes what the function says, whatever pieces its input comes in. -/
theorem encryptsPass_of_sealPass {w : World} (hp : w.InPieces) {credential : Credential}
    {readStart : Nat} {answer : Answer} {out : ByteArray}
    (hanswer : w.provider (w.asked ++ [settings.questionOf
      (World.tapeBytes w.tape w.drawn Limits.headRandomBytes)]) = .ok answer)
    (hout : settings.sealPass credential readStart answer w.tape w.drawn w.bytes = .ok out) :
    w.EncryptsPass settings credential readStart out := by
  have hsrc : hostSupply w.bytes () w .empty false := ⟨ByteArray.empty_append, hp, nofun⟩
  have he : (Encryptor.start credential readStart).Fresh (hostSupply w.bytes) () w :=
    ⟨rfl, clampReadStart_mem readStart, hsrc⟩
  rw [PassSettings.sealPass] at hout
  rcases hchunks : chunksOf (clampReadStart readStart) w.bytes with _ | ⟨chunk, rest⟩
  · exact absurd hchunks chunksOf_ne_nil
  rw [hchunks] at hout
  rcases bind_eq_ok.1 hout with ⟨⟨keys, parts⟩, hparts, hlater⟩
  rcases bind_eq_ok.1 hlater with ⟨later, hrest, hbytes⟩
  rcases run_encryptBlock_of_fresh he rfl hanswer hchunks hparts with
    ⟨block, e', w', hrun, hblock, htape, hdrawn, ⟨rfl, hfinished⟩ | ⟨ahead, hall, hchunks', he'⟩⟩
  · refine ⟨e', w', [block], .step_host hrun .nil, hfinished, ?_⟩
    cases hrest
    cases hbytes
    simp [hblock.toByteArray_eq]
  · rw [← htape, ← hdrawn] at hrest
    rcases exists_writes_of_sealRest rest he' hall hchunks' hrest with
      ⟨e'', w'', blocks, hwrites, hfinished, rfl⟩
    refine ⟨e'', w'', block :: blocks, .step_host hrun hwrites, hfinished, ?_⟩
    cases hbytes
    simp [hblock.toByteArray_eq]

end alone

end SealedStream
