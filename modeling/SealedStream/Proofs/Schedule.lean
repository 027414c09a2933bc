import SealedStream.Proofs.PassOutput

/-!
# The schedule of blocks

Each step of a session can have settings of its own (`Encryptor.encryptEach`), of which the first
block takes all, and every other only the algorithm (`sealEach_congr`).  What the session writes is
known in advance: its input is cut into chunks on a schedule (`OnSchedule`), and of each chunk is
made one block (`SealedChunks`), which is laid out in a header, associated data and the sealed chunk
(`Block.Carries`).

* `encrypts_on_schedule`: a session writes these blocks, whatever pieces its input comes in.
-/

namespace SealedStream

attribute [local instance (2000)] instPowNat

/-! ### Chunks on schedule -/

/-- Clear text in chunks on schedule: chunk `i` has `target * 2 ^ i` bytes, but not more than a
limit, and the last has what is left. -/
structure OnSchedule (target : Nat) (clear : ByteArray) (chunks : List ByteArray) : Prop where
  concat_eq : concat chunks = clear
  size_eq : ∀ i chunk, chunks[i]? = some chunk →
    chunk.size = min (clear.size - (concat (chunks.take i)).size)
      (min (target * 2 ^ i) Limits.readMax)
  ne_nil : chunks ≠ []
  /-- There are no more chunks than are needed for all of the text. -/
  length_le_iff : ∀ i, chunks.length ≤ i + 1 ↔ concat (chunks.take (i + 1)) = clear
  eq_zero_of_empty : ∀ i, chunks[i]? = some .empty → i = 0 ∧ clear = .empty

section schedule

variable {target : Nat} {clear first rest : ByteArray} {chunks : List ByteArray}

/-- A text that is short enough is one chunk. -/
theorem OnSchedule.single (hsize : clear.size ≤ target) (ht : target ≤ Limits.readMax) :
    OnSchedule target clear [clear] where
  concat_eq := ByteArray.append_empty
  size_eq i chunk h := by
    obtain ⟨rfl, rfl⟩ : i = 0 ∧ chunk = clear := by
      cases i with
      | zero => exact ⟨rfl, (Option.some.inj h).symm⟩
      | succ i => cases h
    rw [List.take_zero, concat_nil, ByteArray.size_empty, Nat.pow_zero]
    omega
  ne_nil := List.cons_ne_nil _ _
  length_le_iff i := by
    simp
  eq_zero_of_empty i h := by
    cases i with
    | zero => exact ⟨rfl, Option.some.inj h⟩
    | succ i => cases h

/-- Doubling a target that is limited is limiting the target doubled. -/
theorem min_target_succ (i : Nat) :
    min (min (target * 2) Limits.readMax * 2 ^ i) Limits.readMax
      = min (target * 2 ^ (i + 1)) Limits.readMax := by
  have hpow : 0 < 2 ^ i := Nat.two_pow_pos i
  have hdouble : target * 2 ^ (i + 1) = target * 2 * 2 ^ i := by
    rw [Nat.pow_succ, Nat.mul_assoc, Nat.mul_comm 2]
  rw [hdouble]
  by_cases hle : target * 2 ≤ Limits.readMax
  · rw [Nat.min_eq_left hle]
  · -- Both sides have reached the limit.
    have hleft := Nat.le_mul_of_pos_right Limits.readMax hpow
    have hright := Nat.le_mul_of_pos_right (target * 2) hpow
    rw [Nat.min_eq_right (by omega : Limits.readMax ≤ target * 2), Nat.min_eq_right hleft,
      Nat.min_eq_right (by omega)]

/-- A chunk of full size goes in front of chunks for what is left. -/
theorem OnSchedule.cons (hpos : 0 < target) (ht : target ≤ Limits.readMax)
    (hfirst : first.size = target) (hrest : rest ≠ .empty)
    (h : OnSchedule (min (target * 2) Limits.readMax) rest chunks) :
    OnSchedule target (first ++ rest) (first :: chunks) where
  concat_eq := by rw [concat_cons, h.concat_eq]
  size_eq i chunk hi := by
    cases i with
    | zero =>
      cases hi
      rw [List.take_zero, concat_nil, ByteArray.size_append, ByteArray.size_empty, Nat.pow_zero]
      omega
    | succ i =>
      rw [List.getElem?_cons_succ] at hi
      rw [h.size_eq i chunk hi, min_target_succ, List.take_succ_cons, concat_cons,
        ByteArray.size_append, ByteArray.size_append]
      omega
  ne_nil := List.cons_ne_nil _ _
  length_le_iff i := by
    rw [List.take_succ_cons, concat_cons, List.length_cons, Nat.add_le_add_iff_right,
      ByteArray.append_right_inj]
    cases i with
    | zero =>
      rw [List.take_zero, concat_nil]
      refine ⟨fun hle => absurd ?_ h.ne_nil, fun hempty => absurd hempty.symm hrest⟩
      exact List.length_eq_zero_iff.1 (Nat.le_zero.1 hle)
    | succ i => exact h.length_le_iff i
  eq_zero_of_empty i hi := by
    cases i with
    | zero =>
      rw [List.getElem?_cons_zero, Option.some.injEq] at hi
      rw [hi, ByteArray.size_empty] at hfirst
      omega
    | succ i =>
      rw [List.getElem?_cons_succ] at hi
      exact absurd (h.eq_zero_of_empty i hi).2 hrest

/-- **The chunks of a session are on schedule.** -/
theorem onSchedule_chunksOf (ht : 1 ≤ target ∧ target ≤ Limits.readMax) (clear : ByteArray) :
    OnSchedule target clear (chunksOf target clear) := by
  fun_induction chunksOf target clear with
  | case1 target clear h ih =>
    have hsize : (clear.extract 0 target).size = target := by
      rw [ByteArray.size_extract]
      omega
    have hrest : clear.extract target clear.size ≠ .empty := by
      rw [ne_eq, ← ByteArray.size_eq_zero_iff, ByteArray.size_extract]
      omega
    have hsplit : clear = clear.extract 0 target ++ clear.extract target clear.size := by
      rw [← ByteArray.extract_eq_extract_append_extract target (Nat.zero_le _) (by omega),
        ByteArray.extract_zero_size]
    have hcons := (ih (by omega)).cons h.1 ht.2 hsize hrest
    rwa [← hsplit] at hcons
  | case2 target clear h => exact .single (by omega) ht.2

/-- No chunk is longer than the limit. -/
theorem OnSchedule.size_le (h : OnSchedule target clear chunks) :
    ∀ chunk ∈ chunks, chunk.size ≤ Limits.readMax := by
  intro chunk hchunk
  obtain ⟨i, hi⟩ := List.mem_iff_getElem?.1 hchunk
  rw [h.size_eq i chunk hi]
  omega

/-- Only the first chunk can have no bytes. -/
theorem OnSchedule.ne_empty_of_mem_tail (h : OnSchedule target clear (first :: chunks)) :
    ∀ chunk ∈ chunks, chunk ≠ .empty := by
  rintro chunk hchunk rfl
  obtain ⟨i, hi⟩ := List.mem_iff_getElem?.1 hchunk
  exact absurd (h.eq_zero_of_empty (i + 1) hi).1 (Nat.succ_ne_zero i)

end schedule

/-! ### Blocks as they are laid out -/

/-- A block as it is laid out for a chunk, which is the last or not: a header with the size of what
follows, associated data, and the sealed chunk. -/
structure Block.Carries (b : Block) (algorithm : Algorithm) (cipher : Key) (chunk : ByteArray)
    (last : Bool) : Prop where
  size_header : b.header.size = 38
  payload : readLE (b.header.extract 34 37)
    = b.associated.size + chunk.size + algorithm.tagBytes
  flags : readLE (b.header.extract 37 38) = if last then Limits.flagTerminal else 0
  size_text : b.text.size = chunk.size + algorithm.tagBytes
  sealed : ∃ data : AssociatedData, data.algorithm = algorithm ∧ data.encode = .ok b.associated ∧
    algorithm.encrypt cipher data.iv chunk b.associated = .ok b.text

/-- **A block that was sealed** is laid out for its chunk. -/
theorem WireBlock.carries {keys : PassKeys} {previous : ByteArray} {data : AssociatedData}
    {clear : ByteArray} {last : Bool} {b : WireBlock}
    (h : sealBlock keys previous data clear last = .ok b.parts) (hb : b.InRange .chained)
    (hlast : b.terminal = last)
    (hopen : data.algorithm.decrypt keys.cipher data.iv b.text b.associated = .ok clear)
    {block : Block} (hblock : block.HasParts b.parts) :
    block.Carries data.algorithm keys.cipher clear last := by
  obtain ⟨stage, rfl⟩ := hblock
  obtain ⟨hencode, hencrypt⟩ := encrypt_of_sealBlock h
  obtain ⟨hpayload, hflags⟩ := readLE_header hb
  have htext := Algorithm.size_of_decrypt hopen
  refine ⟨b.size_header .chained, ?_, ?_, htext.symm, data, rfl, hencode, hencrypt⟩
  · refine hpayload.trans ?_
    rw [payload, ByteArray.size_append, ← htext, Nat.add_assoc]
    rfl
  · refine hflags.trans ?_
    rw [WireBlock.flags, hlast]

/-! ### Sealing chunk by chunk -/

namespace PassSettings

/-- **A chunk with bytes is sealed** in a further block, which opens to it. -/
theorem exists_sealFurther (settings : PassSettings) (keys : PassKeys) (previous : Bytes 32)
    (iv : Bytes settings.algorithm.ivBytes) {chunk : ByteArray} (hne : chunk ≠ .empty)
    (hsize : chunk.size ≤ Limits.readMax) (last : Bool) :
    ∃ (f : FurtherData) (b : WireBlock),
      settings.sealFurther keys previous iv.data chunk last = .ok b.parts ∧ b.terminal = last ∧
      SealedFurther keys previous chunk f b ∧
      ∀ block : Block, block.HasParts b.parts →
        block.Carries settings.algorithm keys.cipher chunk last := by
  let f : FurtherData := ⟨settings.algorithm, iv.data, iv.size_data⟩
  obtain ⟨b, hsealed, hb, hterminal, hrange, htext, hsigned, hopen⟩ :=
    exists_sealBlock keys previous.data last (AssociatedData.encode_furtherData f) iv.size_data
      ⟨f.payloadMin_le hne, size_payload_le f.size_toByteArray_le hsize⟩
  exact ⟨f, b, hsealed, hterminal, ⟨⟨hrange, hb, htext, hsigned⟩, hopen, hne⟩,
    fun block hblock => WireBlock.carries hsealed hrange hterminal hopen hblock⟩

/-- **A first chunk is sealed** in the head, with an answer that can be used. -/
theorem exists_sealHead (settings : PassSettings) (credential : Credential) (salt : Bytes 16)
    {iv : ByteArray} (hiv : iv.size = settings.algorithm.ivBytes) {answer : Answer}
    (hanswer : Usable (.ok answer)) {chunk : ByteArray} (hsize : chunk.size ≤ Limits.readMax)
    (last : Bool) :
    ∃ (h : HeadData) (b : WireBlock),
      settings.sealHead credential salt iv answer chunk last
        = .ok (h.keys credential answer.password, b.parts) ∧ b.terminal = last ∧
      h.info .chained none = settings.question salt iv ∧
      SealedHead settings credential answer.password chunk h b ∧
      h.openHint credential = .ok (keptHint (answer.hint.getD "")) ∧
      ∀ block : Block, block.HasParts b.parts →
        block.Carries settings.algorithm (h.keys credential answer.password).cipher chunk last := by
  obtain ⟨answer', hsame, hne, hhint⟩ := hanswer
  cases hsame
  obtain ⟨sealedHint, hseal, hsealedHint, hopenHint⟩ :=
    exists_sealHint (credential.hintKey salt) hiv (answer.hint.getD "")
  let h : HeadData := ⟨settings.algorithm, iv, salt, settings.iterations, settings.loop,
    sealedHint, hiv, settings.iterations_mem, settings.loop_valid, hsealedHint⟩
  obtain ⟨b, hsealed, hb, hterminal, hrange, htext, hsigned, hopen⟩ :=
    exists_sealBlock (h.keys credential answer.password) .empty last
      (AssociatedData.encode_headData h) hiv
      ⟨h.payloadMin_le _, size_payload_le h.size_toByteArray_le hsize⟩
  refine ⟨h, b, ?_, hterminal, rfl, ⟨rfl, rfl, rfl, hne, ⟨hrange, hb, htext, hsigned⟩,
    ⟨_, hopenHint⟩, hopen⟩, hopenHint,
    fun block hblock => WireBlock.carries hsealed hrange hterminal hopen hblock⟩
  rw [sealHead, if_neg (Nat.not_lt.2 hhint)]
  refine bind_eq_ok.2 ⟨_, (Derivation.ofPassword_eq_ok settings.iterations_mem).2 ⟨hne, rfl⟩, ?_⟩
  exact bind_eq_ok.2 ⟨sealedHint, hseal, bind_eq_ok.2 ⟨b.parts, hsealed, rfl⟩⟩

end PassSettings

/-! ### Rows of blocks -/

/-- The further blocks of a session for some chunks, each with settings of its own, behind a block
with the tag `previous`, with random bytes from `start` on. -/
def sealEach (keys : PassKeys) (tape : Nat → UInt8) (settings : Nat → PassSettings) :
    (previous : Bytes 32) → (start : Nat) → List ByteArray → Except Fault (List SealedParts)
  | _, _, [] => .ok []
  | previous, start, chunk :: rest => do
    let iv := World.tapeBytes tape start (settings 0).algorithm.ivBytes
    let parts ← (settings 0).sealFurther keys previous iv.data chunk rest.isEmpty
    let later ← sealEach keys tape (fun i => settings (i + 1)) parts.tag
      (start + (settings 0).algorithm.ivBytes) rest
    return parts :: later

/-- Of the settings of further blocks, only the algorithms matter. -/
theorem sealEach_congr {keys : PassKeys} {tape : Nat → UInt8}
    {settings settings' : Nat → PassSettings}
    (h : ∀ i, (settings' i).algorithm = (settings i).algorithm) (previous : Bytes 32) (start : Nat)
    (chunks : List ByteArray) :
    sealEach keys tape settings' previous start chunks
      = sealEach keys tape settings previous start chunks := by
  induction chunks generalizing settings settings' previous start with
  | nil => rfl
  | cons chunk rest ih =>
    rw [sealEach, sealEach, PassSettings.sealFurther, PassSettings.sealFurther, h 0]
    refine bind_congr fun parts => ?_
    rw [ih fun i => h (i + 1)]

/-- The first chunk is the last if there are no others. -/
theorem beq_length_cons (chunk : ByteArray) (rest : List ByteArray) :
    (0 + 1 == (chunk :: rest).length) = rest.isEmpty := by
  cases rest <;> rfl

/-- Further blocks that were made for some chunks: how they come about, that they are a row of
blocks each of which opens to its chunk, and how each is laid out. -/
structure SealedRow (settings : Nat → PassSettings) (keys : PassKeys) (tape : Nat → UInt8)
    (previous : Bytes 32) (start : Nat) (chunks : List ByteArray)
    (further : List (WireBlock × FurtherData)) : Prop where
  sealed : sealEach keys tape settings previous start chunks
    = .ok (further.map fun block => block.1.parts)
  linked : Linked .chained keys.signing previous further
  opens : List.Forall₂ (OpensTo keys.cipher) further chunks
  /-- The last block says that it is, even if it is the one before them. -/
  terminal : chunks.isEmpty :: further.map (fun block => block.1.terminal)
    = List.replicate further.length false ++ [true]
  carries : ∀ i chunk, chunks[i]? = some chunk → ∃ block, further[i]? = some block ∧
    ∀ b : Block, b.HasParts block.1.parts →
      b.Carries (settings i).algorithm keys.cipher chunk (i + 1 == chunks.length)

/-- **Chunks with bytes are sealed** one after another.  The induction is on the chunks. -/
theorem exists_sealedRow (keys : PassKeys) (tape : Nat → UInt8) {chunks : List ByteArray}
    (hne : ∀ chunk ∈ chunks, chunk ≠ .empty) (hsize : ∀ chunk ∈ chunks, chunk.size ≤ Limits.readMax)
    (settings : Nat → PassSettings) (previous : Bytes 32) (start : Nat) :
    ∃ further, SealedRow settings keys tape previous start chunks further := by
  induction chunks generalizing settings previous start with
  | nil => exact ⟨[], rfl, trivial, .nil, rfl, fun i chunk h => nomatch h⟩
  | cons chunk rest ih =>
    obtain ⟨f, b, hsealed, hterminal, hfurther, hcarries⟩ :=
      (settings 0).exists_sealFurther keys previous
        (World.tapeBytes tape start (settings 0).algorithm.ivBytes) (hne _ List.mem_cons_self)
        (hsize _ List.mem_cons_self) rest.isEmpty
    obtain ⟨further, hrow⟩ := ih (fun c hc => hne c (List.mem_cons_of_mem _ hc))
      (fun c hc => hsize c (List.mem_cons_of_mem _ hc)) (fun i => settings (i + 1)) b.tag
      (start + (settings 0).algorithm.ivBytes)
    refine ⟨(b, f) :: further, ?_, ⟨hfurther.isFurther, hrow.linked⟩,
      .cons hfurther.opens hrow.opens, ?_, ?_⟩
    · exact bind_eq_ok.2 ⟨_, hsealed, bind_eq_ok.2 ⟨_, hrow.sealed, rfl⟩⟩
    · rw [List.map_cons, hterminal, hrow.terminal]
      rfl
    · intro i c hi
      cases i with
      | zero =>
        cases hi
        refine ⟨(b, f), rfl, fun block hblock => ?_⟩
        rw [beq_length_cons]
        exact hcarries block hblock
      | succ i =>
        obtain ⟨block, hblock, hcarries⟩ := hrow.carries i c hi
        exact ⟨block, hblock, fun b hb => by simpa using hcarries b hb⟩

/-- A pass that was made for some chunks, each with settings of its own, with random bytes from
`start` on: a head for the first chunk, and further blocks for the others. -/
structure SealedChunks (settings : Nat → PassSettings) (credential : Credential) (answer : Answer)
    (tape : Nat → UInt8) (start : Nat) (first : ByteArray) (rest : List ByteArray)
    (p : FramedPass) : Prop where
  sealed : (settings 0).sealHead credential p.data.salt p.data.iv answer first rest.isEmpty
    = .ok (p.data.keys credential answer.password, p.head.parts)
  split : Encryptor.splitRandom (settings 0).algorithm
    (World.tapeBytes tape start Limits.headRandomBytes) = (p.data.salt, p.data.iv)
  info : p.data.info .chained none = (settings 0).questionOf
    (World.tapeBytes tape start Limits.headRandomBytes)
  hint : p.data.openHint credential = .ok (keptHint (answer.hint.getD ""))
  sealedHead : SealedHead (settings 0) credential answer.password first p.data p.head
  terminal : p.head.terminal = rest.isEmpty
  carries : ∀ b : Block, b.HasParts p.head.parts → b.Carries (settings 0).algorithm
    (p.data.keys credential answer.password).cipher first rest.isEmpty
  row : SealedRow (fun i => settings (i + 1)) (p.data.keys credential answer.password) tape
    p.head.tag (start + Limits.headRandomBytes) rest p.further

/-- **Chunks are sealed** in a pass, with an answer that can be used. -/
theorem exists_sealedChunks (settings : Nat → PassSettings) (credential : Credential)
    {answer : Answer} (hanswer : Usable (.ok answer)) (tape : Nat → UInt8) (start : Nat)
    {first : ByteArray} {rest : List ByteArray}
    (hsize : ∀ chunk ∈ first :: rest, chunk.size ≤ Limits.readMax)
    (hne : ∀ chunk ∈ rest, chunk ≠ .empty) :
    ∃ p, SealedChunks settings credential answer tape start first rest p := by
  have hiv := size_splitRandom (settings 0).algorithm
    (World.tapeBytes tape start Limits.headRandomBytes)
  rcases hsplit : Encryptor.splitRandom (settings 0).algorithm
    (World.tapeBytes tape start Limits.headRandomBytes) with ⟨salt, iv⟩
  rw [hsplit] at hiv
  obtain ⟨h, b, hsealed, hterminal, hinfo, hhead, hhint, hcarries⟩ :=
    (settings 0).exists_sealHead credential salt hiv hanswer (hsize _ List.mem_cons_self)
      rest.isEmpty
  obtain ⟨hsalt, hnonce⟩ : h.salt = salt ∧ h.iv = iv :=
    ⟨congrArg PassInfo.salt hinfo, congrArg PassInfo.iv hinfo⟩
  obtain ⟨further, hrow⟩ := exists_sealedRow (h.keys credential answer.password) tape hne
    (fun c hc => hsize c (List.mem_cons_of_mem _ hc)) (fun i => settings (i + 1)) b.tag
    (start + Limits.headRandomBytes)
  refine ⟨⟨b, h, further⟩, ?_, ?_, ?_, hhint, hhead, hterminal, hcarries, hrow⟩
  · rw [hsalt, hnonce]
    exact hsealed
  · rw [hsalt, hnonce, hsplit]
  · rw [PassSettings.questionOf, hsplit]
    exact hinfo

/-- **Any clear text is sealed** in a pass, in chunks on schedule. -/
theorem exists_sealedChunks_of_clear (settings : Nat → PassSettings) (credential : Credential)
    {answer : Answer} (hanswer : Usable (.ok answer)) (tape : Nat → UInt8) (start readStart : Nat)
    (clear : ByteArray) :
    ∃ first rest p, chunksOf (clampReadStart readStart) clear = first :: rest ∧
      OnSchedule (clampReadStart readStart) clear (first :: rest) ∧
      SealedChunks settings credential answer tape start first rest p := by
  have hschedule := onSchedule_chunksOf (clampReadStart_mem readStart) clear
  rcases hchunks : chunksOf (clampReadStart readStart) clear with _ | ⟨first, rest⟩
  · exact absurd hchunks chunksOf_ne_nil
  rw [hchunks] at hschedule
  obtain ⟨p, hp⟩ := exists_sealedChunks settings credential hanswer tape start
    hschedule.size_le hschedule.ne_empty_of_mem_tail
  exact ⟨first, rest, p, rfl, hschedule, hp⟩

/-! ### Sessions with changing settings -/

namespace Encryptor

/-- Encrypts some blocks, each with settings of its own. -/
def encryptEach (settings : Nat → PassSettings) : Nat → Step Encryptor (List Block)
  | 0 => return []
  | n + 1 => do
    let block ← encryptBlock (settings 0)
    let blocks ← encryptEach (fun i => settings (i + 1)) n
    return block :: blocks

theorem run_encryptEach_succ {settings : Nat → PassSettings} {n : Nat} {e e' e'' : Encryptor}
    {w w' w'' : World} {block : Block} {blocks : List Block}
    (hrun : w.run (encryptBlock (settings 0) e) = ((.ok block, e'), w'))
    (hlater : w'.run (encryptEach (fun i => settings (i + 1)) n e') = ((.ok blocks, e''), w'')) :
    w.run (encryptEach settings (n + 1) e) = ((.ok (block :: blocks), e''), w'') := by
  have hbind : encryptEach settings (n + 1) e = encryptBlock (settings 0) e >>= fun x =>
      match x with
      | (.ok block, e') => encryptEach (fun i => settings (i + 1)) n e' >>= fun y =>
        pure (y.1.map (block :: ·), y.2)
      | (.error fault, e') => pure (.error fault, e') := by
    refine congrArg (Program.bind (encryptBlock (settings 0) e)) (funext fun x => ?_)
    obtain ⟨fault | block, e'⟩ := x
    · rfl
    · refine congrArg (Program.bind (encryptEach (fun i => settings (i + 1)) n e'))
        (funext fun y => ?_)
      obtain ⟨fault | blocks, e''⟩ := y <;> rfl
  rw [hbind, World.run_bind, hrun, World.run_bind, hlater]
  rfl

/-- How many random bytes some further blocks draw. -/
def ivBytes (settings : Nat → PassSettings) : Nat → Nat
  | 0 => 0
  | n + 1 => (settings 0).algorithm.ivBytes + ivBytes (fun i => settings (i + 1)) n

/-- **The further blocks that a session writes on its own**, each with settings of its own.  The
induction is on the chunks that are ahead. -/
theorem exists_run_encryptEach {all : ByteArray} {keys : PassKeys} (chunks : List ByteArray) :
    ∀ {settings : Nat → PassSettings} {e : Encryptor} {w : World} {tag : Bytes 32}
      {taken ahead : ByteArray} {out : List SealedParts},
      e.Between (hostSupply all) keys tag taken () w → all = taken ++ ahead →
      chunksOf e.readTarget ahead = chunks →
      sealEach keys w.tape settings tag w.drawn chunks = .ok out →
      ∃ blocks e' w', w.run (encryptEach settings chunks.length e) = ((.ok blocks, e'), w') ∧
        e'.stage = .finished ∧ List.Forall₂ Block.HasParts blocks out ∧
        w'.drawn = w.drawn + ivBytes settings chunks.length := by
  induction chunks with
  | nil =>
    intro settings e w tag taken ahead out _ _ hchunks _
    exact absurd hchunks chunksOf_ne_nil
  | cons chunk rest ih =>
    intro settings e w tag taken ahead out he hall hchunks hout
    rcases bind_eq_ok.1 hout with ⟨parts, hparts, hlater⟩
    rcases bind_eq_ok.1 hlater with ⟨later, hrest, hlist⟩
    cases hlist
    rw [List.length_cons, ivBytes]
    rcases run_encryptBlock_of_between he hall hchunks hparts with
      ⟨block, e', w', hrun, hblock, htape, hdrawn, ⟨rfl, hfinished⟩ | ⟨ahead', rfl, hchunks', he'⟩⟩
    · cases hrest
      exact ⟨[block], e', w', run_encryptEach_succ hrun rfl, hfinished, .cons hblock .nil, hdrawn⟩
    · rw [← htape, ← hdrawn] at hrest
      rw [← ByteArray.append_assoc] at hall
      rcases ih he' hall hchunks' hrest with ⟨blocks, e'', w'', hruns, hfinished, hblocks, hdrawn'⟩
      refine ⟨block :: blocks, e'', w'', run_encryptEach_succ hrun hruns, hfinished,
        .cons hblock hblocks, ?_⟩
      rw [hdrawn', hdrawn, Nat.add_assoc]

end Encryptor

section session

open Encryptor

variable {settings : Nat → PassSettings} {credential : Credential} {readStart : Nat}
  {answer : Answer}

/-- **A session on its own** writes the blocks that are made of the chunks of its input, whatever
pieces the input comes in. -/
theorem SealedChunks.exists_run {w : World} (hpieces : w.InPieces) {first : ByteArray}
    {rest : List ByteArray} (hchunks : chunksOf (clampReadStart readStart) w.bytes = first :: rest)
    {p : FramedPass} (hp : SealedChunks settings credential answer w.tape w.drawn first rest p)
    (hanswer : w.provider (w.asked ++ [(settings 0).questionOf
      (World.tapeBytes w.tape w.drawn Limits.headRandomBytes)]) = .ok answer) :
    ∃ blocks e w',
      w.run (encryptEach settings (rest.length + 1) (.start credential readStart))
        = ((.ok blocks, e), w') ∧
      e.stage = .finished ∧ List.Forall₂ Block.HasParts blocks (p.blocks.map WireBlock.parts) ∧
      w'.drawn = w.drawn + Limits.headRandomBytes
        + ivBytes (fun i => settings (i + 1)) rest.length := by
  have hsrc : hostSupply w.bytes () w .empty false := ⟨ByteArray.empty_append, hpieces, nofun⟩
  have he : (Encryptor.start credential readStart).Fresh (hostSupply w.bytes) () w :=
    ⟨rfl, clampReadStart_mem readStart, hsrc⟩
  have hanswer' : w.provider (w.asked ++ [(settings 0).question p.data.salt p.data.iv])
      = .ok answer := by
    rw [← hanswer, PassSettings.questionOf, hp.split]
  have hblocks : p.blocks.map WireBlock.parts
      = p.head.parts :: p.further.map fun block => block.1.parts := by
    rw [FramedPass.blocks, List.map_cons, List.map_map]
    rfl
  rw [hblocks]
  rcases run_encryptBlock_of_fresh he hp.split hanswer' hchunks hp.sealed with
    ⟨block, e', w', hrun, hblock, htape, hdrawn, ⟨rfl, hfinished⟩ | ⟨ahead, hall, hchunks', he'⟩⟩
  · have hnone := hp.row.opens
    rw [List.forall₂_nil_right_iff] at hnone
    rw [hnone]
    exact ⟨[block], e', w', run_encryptEach_succ hrun rfl, hfinished, .cons hblock .nil, hdrawn⟩
  · have hrow := hp.row.sealed
    rw [← htape, ← hdrawn] at hrow
    rcases exists_run_encryptEach rest he' hall hchunks' hrow with
      ⟨blocks, e'', w'', hruns, hfinished, hblocks, hdrawn'⟩
    refine ⟨block :: blocks, e'', w'', run_encryptEach_succ hrun hruns, hfinished,
      .cons hblock hblocks, ?_⟩
    rw [hdrawn', hdrawn]

/-- There are as many blocks as chunks. -/
theorem SealedChunks.length_blocks {tape : Nat → UInt8} {start : Nat} {first : ByteArray}
    {rest : List ByteArray} {p : FramedPass}
    (hp : SealedChunks settings credential answer tape start first rest p) :
    ((p.blocks.map WireBlock.parts).map SealedParts.bytes).length = (first :: rest).length := by
  have hlength := hp.row.opens.length_eq
  simpa [FramedPass.blocks] using hlength

theorem map_toByteArray_eq {blocks : List Block} {parts : List SealedParts}
    (h : List.Forall₂ Block.HasParts blocks parts) :
    blocks.map Block.toByteArray = parts.map SealedParts.bytes := by
  rw [← List.forall₂_eq_eq_eq, List.forall₂_map_left_iff, List.forall₂_map_right_iff]
  exact h.imp fun _ _ hparts => hparts.toByteArray_eq

/-- What stands at a place of one list is related to what stands there in the other. -/
theorem exists_getElem?_of_forall₂ {α β : Type} {R : α → β → Prop} {as : List α} {bs : List β}
    (h : List.Forall₂ R as bs) {i : Nat} {b : β} (hi : bs[i]? = some b) :
    ∃ a, as[i]? = some a ∧ R a b := by
  induction h generalizing i with
  | nil => cases hi
  | cons hab _ ih =>
    cases i with
    | zero =>
      cases hi
      exact ⟨_, rfl, hab⟩
    | succ i => exact ih hi

/-- Each of the blocks that a session writes is laid out for its chunk. -/
theorem SealedChunks.carries_getElem? {tape : Nat → UInt8} {start : Nat} {first : ByteArray}
    {rest : List ByteArray} {p : FramedPass}
    (hp : SealedChunks settings credential answer tape start first rest p) {blocks : List Block}
    (hblocks : List.Forall₂ Block.HasParts blocks (p.blocks.map WireBlock.parts)) (i : Nat)
    (chunk : ByteArray) (hi : (first :: rest)[i]? = some chunk) :
    ∃ block, blocks[i]? = some block ∧ block.Carries (settings i).algorithm
      (p.data.keys credential answer.password).cipher chunk (i + 1 == (first :: rest).length) := by
  cases hblocks with
  | cons hhead hfurther =>
    cases i with
    | zero =>
      cases hi
      rw [beq_length_cons]
      exact ⟨_, rfl, hp.carries _ hhead⟩
    | succ i =>
      obtain ⟨b, hb, hcarries⟩ := hp.row.carries i chunk hi
      have hparts : ((p.further.map Prod.fst).map WireBlock.parts)[i]? = some b.1.parts := by
        rw [List.getElem?_map, List.getElem?_map, hb]
        rfl
      obtain ⟨block, hblock, hfor⟩ := exists_getElem?_of_forall₂ hfurther hparts
      exact ⟨block, hblock, by simpa using hcarries block hfor⟩

/-- **The schedule of blocks.**  Some clear text is cut into chunks by its size alone, on schedule,
and a session writes one block for each of them, laid out with the algorithm of the settings that
the block was given; only the last says that it is.  What it writes, and how many random bytes it
draws, is the same whatever pieces the clear text comes in. -/
theorem encrypts_on_schedule (settings : Nat → PassSettings) (credential : Credential)
    (readStart : Nat) (clear : ByteArray) (tape : Nat → UInt8) (start : Nat) {answer : Answer}
    (hanswer : Usable (.ok answer)) :
    ∃ (chunks written : List ByteArray) (cipher : Key),
      OnSchedule (clampReadStart readStart) clear chunks ∧ written.length = chunks.length ∧
      ∀ w : World, w.InPieces → w.bytes = clear → w.tape = tape → w.drawn = start →
        w.provider (w.asked ++ [(settings 0).questionOf
          (World.tapeBytes tape start Limits.headRandomBytes)]) = .ok answer →
        ∃ (blocks : List Block) (e : Encryptor) (w' : World),
          w.run (encryptEach settings chunks.length (.start credential readStart))
            = ((.ok blocks, e), w') ∧
          e.stage = .finished ∧ blocks.map Block.toByteArray = written ∧
          (∀ i chunk, chunks[i]? = some chunk → ∃ block : Block, blocks[i]? = some block ∧
            block.Carries (settings i).algorithm cipher chunk (i + 1 == chunks.length)) ∧
          w'.drawn = start + Limits.headRandomBytes
            + ivBytes (fun i => settings (i + 1)) (chunks.length - 1) := by
  obtain ⟨first, rest, p, hchunks, hschedule, hp⟩ :=
    exists_sealedChunks_of_clear settings credential hanswer tape start readStart clear
  refine ⟨first :: rest, (p.blocks.map WireBlock.parts).map SealedParts.bytes,
    (p.data.keys credential answer.password).cipher, hschedule, hp.length_blocks, ?_⟩
  rintro w hpieces rfl rfl rfl hreply
  obtain ⟨blocks, e, w', hrun, hfinished, hblocks, hdrawn⟩ := hp.exists_run hpieces hchunks hreply
  exact ⟨blocks, e, w', hrun, hfinished, map_toByteArray_eq hblocks, hp.carries_getElem? hblocks,
    hdrawn⟩

/-- Three bytes in two pieces or in one, under an algorithm for the head and another for what
follows. -/
theorem encrypts_on_schedule_threeBytes :
    Usable (.ok ⟨"secret", some "usual"⟩) ∧
    ∃ chunks written : List ByteArray, OnSchedule 1 (ofList [1, 2, 3]) chunks ∧
      ∀ items ∈ [[InputItem.data (ofList [1]), .data (ofList [2, 3])], [.data (ofList [1, 2, 3])]],
        ∃ (blocks : List Block) (e : Encryptor) (w' : World),
          World.run (encryptEach (fun i => ⟨if i = 0 then .aegis256 else .aesGcm,
              Limits.iterationsDefault, ⟨1, 1⟩, by decide, by decide⟩) chunks.length
              (.start ⟨.zeros 32⟩ 1))
            { input := items, provider := fun _ => .ok ⟨"secret", some "usual"⟩ }
            = ((.ok blocks, e), w') ∧
          e.stage = .finished ∧ blocks.map Block.toByteArray = written := by
  have hanswer : Usable (.ok ⟨"secret", some "usual"⟩) := ⟨_, rfl, by decide, by decide⟩
  refine ⟨hanswer, ?_⟩
  obtain ⟨chunks, written, cipher, hschedule, -, hruns⟩ :=
    encrypts_on_schedule (fun i => ⟨if i = 0 then .aegis256 else .aesGcm,
      Limits.iterationsDefault, ⟨1, 1⟩, by decide, by decide⟩) ⟨.zeros 32⟩ 1 (ofList [1, 2, 3])
      (fun _ => 0) 0 hanswer
  refine ⟨chunks, written, hschedule, fun items hitems => ?_⟩
  obtain ⟨hpieces, hbytes⟩ : Pieces items ∧ itemsBytes items = ofList [1, 2, 3] := by
    simp only [List.mem_cons, List.not_mem_nil, or_false] at hitems
    rcases hitems with rfl | rfl
    · exact ⟨by decide, rfl⟩
    · exact ⟨by decide, rfl⟩
  obtain ⟨blocks, e, w', hrun, hfinished, hwritten, -⟩ := hruns
    { input := items, provider := fun _ => .ok ⟨"secret", some "usual"⟩ } hpieces hbytes rfl rfl rfl
  exact ⟨blocks, e, w', hrun, hfinished, hwritten⟩

end session

end SealedStream
