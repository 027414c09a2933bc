import SealedStream.Proofs.ChunkReader
import SealedStream.Proofs.Opening

/-!
# What a decryption session computes

A session that decrypts a source whose bytes are known is at the start of a pass (`Fresh`), behind a
head that has been verified (`Decoded`), between two blocks (`Between`), or at the end.  Each of its
steps leads from one of these to the next, with the result of `headOf`, `VerifiedHead.decrypt` or
`nextOf` on the bytes ahead, and with the same fault when it fails.

* `ends_start`, `meets_info`, `meets_decryptHead`, `meets_decryptFurther`: one lemma for each step.
-/

namespace SealedStream

variable {ρ : Type} {read : Source ρ} {Src : Supply ρ} {Src' : PassInfo → Supply ρ}
  {bad : Fault → Prop}

theorem ChunkReader.Before.mono {Src Src' : Supply ρ} {all ahead : ByteArray} {r : ChunkReader}
    {l : ρ} {w w' : World} (h : r.Before Src all ahead l w)
    (hm : ∀ given ended, Src l w given ended → Src' l w' given ended) :
    r.Before Src' all ahead l w' := by
  obtain ⟨taken, hsrc, hall⟩ := h
  exact ⟨taken, hm _ _ hsrc, hall⟩

namespace Decryptor

/-! ### Where a session is -/

/-- A session that has read no more than the first header. -/
structure Fresh (Src : Supply ρ) (all : ByteArray) (d : Decryptor) (l : ρ) (w : World) : Prop where
  stage : d.stage = .initialized
  metadata : d.metadata = none
  header : ∃ header rest, d.header = some header ∧ header.size = Limits.headerBytes ∧
    all = header ++ rest ∧ d.reader.Before Src all rest l w

/-- A session with a verified head that has not been decrypted, and the bytes ahead. -/
structure Decoded (Src : Supply ρ) (all : ByteArray) (head : VerifiedHead) (ahead : ByteArray)
    (d : Decryptor) (l : ρ) (w : World) : Prop where
  stage : d.stage = .headDecoded
  metadata : d.metadata = some head.info
  head : d.head = some head
  reader : d.reader.Before Src all ahead l w
  /-- The head has been read. -/
  shorter : ahead.size + 2 ≤ all.size
  /-- A message is read up to the end of the input. -/
  atEnd : d.format = .message → d.reader.ended = true ∧ ahead = .empty

/-- A session behind a block with the tag and flags given, and the bytes ahead. -/
structure Between (Src : Supply ρ) (all : ByteArray) (keys : PassKeys) (tag : Bytes 32)
    (flags : Nat) (ahead : ByteArray) (d : Decryptor) (l : ρ) (w : World) : Prop where
  stage : d.stage = .headDone
  keys : d.keys = some keys
  lastTag : d.lastTag = some tag
  lastFlags : d.lastFlags = flags
  reader : d.reader.Before Src all ahead l w
  /-- Nothing follows a message. -/
  atEnd : d.format = .message → d.reader.ended = true ∧ ahead = .empty

theorem Fresh.not_finished {Src : Supply ρ} {all : ByteArray} {d : Decryptor} {l : ρ} {w : World}
    (h : d.Fresh Src all l w) : d.stage ≠ .finished := by
  rw [h.stage]
  decide

theorem Between.not_finished {Src : Supply ρ} {all ahead : ByteArray} {keys : PassKeys}
    {tag : Bytes 32} {flags : Nat} {d : Decryptor} {l : ρ} {w : World}
    (h : d.Between Src all keys tag flags ahead l w) : d.stage ≠ .finished := by
  rw [h.stage]
  decide

/-- What stays as it is while a pass is decrypted. -/
structure SamePass (d d' : Decryptor) : Prop where
  format : d'.format = d.format
  credential : d'.credential = d.credential
  metadata : d'.metadata = d.metadata

theorem SamePass.trans {d d' d'' : Decryptor} (h : d.SamePass d') (h' : d'.SamePass d'') :
    d.SamePass d'' :=
  ⟨h'.format.trans h.format, h'.credential.trans h.credential, h'.metadata.trans h.metadata⟩

/-- A step fails as `x` does.  How many bytes a message has that is too long depends on how they
were delivered, so that its fault may be another. -/
def FailsAs {α : Type} (format : WireFormat) (x : Except Fault α) (fault : Fault) : Prop :=
  ∃ fault', x = .error fault' ∧ (format ≠ .message → fault' = fault)

theorem FailsAs.of_eq {α : Type} {format : WireFormat} {x : Except Fault α} {fault : Fault}
    (h : x = .error fault) : FailsAs format x fault :=
  ⟨fault, h, fun _ => rfl⟩

/-! ### Parts of a step -/

variable {d : Decryptor} {l : ρ} {w : World} {all ahead : ByteArray} {α : Type}
  {good : α → Decryptor → ρ → World → Prop}

/-- A fault ends the session, but what the session forgets is not what the fault is. -/
theorem meets_settle (step : Step Decryptor α) {fails : Fault → ρ → World → Prop} :
    Meets read (settle step) d l w good (fun fault _ l w => fails fault l w) ↔
      Meets read step d l w good fun fault _ l w => fails fault l w := by
  unfold settle
  rw [meets_tryCatch]
  simp only [meets_bind, meets_modify, meets_throw]

theorem meets_require {expected : List Stage} {operation : String} (h : d.stage ∈ expected)
    {good : Unit → Decryptor → ρ → World → Prop} {fails : Fault → Decryptor → ρ → World → Prop} :
    Meets read (require expected operation) d l w good fails ↔ good ⟨⟩ d l w := by
  unfold require
  rw [meets_bind, meets_get]
  exact meets_except_of_ok (if_pos h)

theorem meets_enter {next : Stage} (h : d.stage.allows next = true)
    {good : Unit → Decryptor → ρ → World → Prop} {fails : Fault → Decryptor → ρ → World → Prop} :
    Meets read (enter next) d l w good fails ↔ good ⟨⟩ { d with stage := next } l w := by
  unfold enter
  simp only [meets_bind, meets_get, meets_except, Stage.transition, if_pos h, meets_modify]
  simp

theorem meets_finish (h : d.stage = .headDone) {good : ByteArray → Decryptor → ρ → World → Prop}
    {fails : Fault → Decryptor → ρ → World → Prop} :
    Meets read finish d l w good fails ↔
      good .empty { d with stage := .finished }.dropKeys l w := by
  have hallows : d.stage.allows .finished = true := by
    rw [h]
    rfl
  unfold finish
  rw [meets_bind, meets_enter hallows, meets_bind, meets_modify, meets_pure]

theorem meets_readPayload (hs : Supplies read Src bad) (ht : Total all Src) (size : Nat)
    (hb : d.reader.Before Src all ahead l w) :
    Meets read (readPayload size) d l w
      (fun payload d' l w => ¬ ahead.size < size ∧ payload = ahead.extract 0 size ∧
        ∃ r : ChunkReader, d' = { d with reader := r } ∧
          r.Before Src all (ahead.extract size ahead.size) l w)
      fun fault _ l w => bad fault ∨ (ahead.size < size ∧
        fault = .sizeMismatch "cipher data payload" size ahead.size) ∧ Held Src l w := by
  unfold readPayload onReader
  simp only [meets_bind, meets_onPart]
  refine (ChunkReader.meets_readFill_before hs ht size true hb).mono (fun chunk r l w hc => ?_)
    fun _ _ _ _ hb => .inl hb
  have hsize : chunk.bytes.size = min size ahead.size := by
    rw [hc.1, ByteArray.size_extract, Nat.sub_zero]
  by_cases hlt : ahead.size < size
  · rw [if_pos (by omega)]
    refine .inr ⟨⟨hlt, ?_⟩, hc.2.1.held⟩
    rw [hsize, Nat.min_eq_right (Nat.le_of_lt hlt)]
  · rw [if_neg (by omega)]
    exact ⟨hlt, hc.1, r, rfl, hc.2.1⟩

/-! ### The start -/

/-- **A session starts** if the first header tells a format. -/
theorem ends_start (hs : Supplies read Src bad) (ht : Total all Src) (credential : Credential)
    (h : Src l w .empty false) :
    Ends read (start credential) l w
      (fun d l w => WireFormat.ofHeader (all.extract 0 Limits.headerBytes) = .ok d.format ∧
        d.credential = credential ∧ d.Fresh Src all l w)
      fun fault => bad fault ∨
        WireFormat.ofHeader (all.extract 0 Limits.headerBytes) = .error fault := by
  have hb : ({} : ChunkReader).Before Src all all l w :=
    ⟨.empty, by rwa [ByteArray.empty_append], by rw [ByteArray.empty_append]⟩
  have hm := ChunkReader.meets_readFill_before hs ht Limits.headerBytes false hb
  have hstart : start credential
      = ChunkReader.readFill Limits.headerBytes false {} >>= fun x => pure (do
        let chunk ← x.1
        let format ← WireFormat.ofHeader chunk.bytes
        return { format, credential, reader := x.2, header := chunk.bytes }) := rfl
  unfold Ends
  rw [hstart, Source.run_bind]
  unfold Meets at hm
  generalize read.run (ChunkReader.readFill Limits.headerBytes false {}) l w = r at hm
  obtain ⟨⟨⟨fault | chunk, reader⟩, l⟩, w⟩ := r
  · exact .inl hm
  obtain ⟨hchunk, hr, -⟩ := hm
  have hmin : chunk.bytes.size = min Limits.headerBytes all.size := by
    rw [hchunk, ByteArray.size_extract, Nat.sub_zero]
  rw [← hchunk]
  show Ends read (pure (do
    let format ← WireFormat.ofHeader chunk.bytes
    return { format, credential, reader, header := chunk.bytes } : Except Fault Decryptor)) l w _ _
  cases hformat : WireFormat.ofHeader chunk.bytes with
  | error fault => exact .inr rfl
  | ok format =>
    -- A header that tells a format is whole.
    have hsize : chunk.bytes.size = Limits.headerBytes := by
      have hle : ¬ chunk.bytes.size < Limits.headerBytes := fun hlt => by
        rw [WireFormat.ofHeader, if_pos hlt] at hformat
        cases hformat
      omega
    have hall : all = chunk.bytes ++ all.extract Limits.headerBytes all.size := by
      rw [hchunk, ← ByteArray.extract_eq_extract_append_extract _ (Nat.zero_le _) (by omega),
        ByteArray.extract_zero_size]
    exact ⟨rfl, rfl, rfl, rfl, chunk.bytes, _, rfl, hsize, hall, hr⟩

/-! ### The head -/

/-- A message that has been read whole is verified as `headOf` has it. -/
theorem headOf_message_append {credential : Credential} {header rest : ByteArray}
    (hheader : header.size = Limits.headerBytes) (hrest : rest.size ≤ Limits.payloadMax) :
    headOf .message credential (header ++ rest) = (do
      let head ← Message.verify (header ++ rest) credential
      return (head, .empty)) := by
  have hsize : ¬ Limits.payloadMax < (header ++ rest).size - Limits.headerBytes := by
    rw [ByteArray.size_append, hheader]
    omega
  show (do
    let head ← Message.verify (header ++ rest) credential
    if Limits.payloadMax < (header ++ rest).size - Limits.headerBytes then _
    return (head, .empty) : Except Fault (VerifiedHead × ByteArray)) = _
  simp only [if_neg hsize]

/-- A message that is too long is refused. -/
theorem exists_headOf_message_of_long (credential : Credential) {header rest : ByteArray}
    (hheader : header.size = Limits.headerBytes) (hrest : Limits.payloadMax < rest.size) :
    ∃ fault, headOf .message credential (header ++ rest) = .error fault := by
  cases hok : headOf .message credential (header ++ rest) with
  | error fault => exact ⟨fault, rfl⟩
  | ok opened =>
    obtain ⟨-, -, -, -, -, hsize, -⟩ := headOf_message_eq_ok.1 hok
    rw [ByteArray.size_append, hheader] at hsize
    omega

/-- **The head is verified** as `headOf` has it. -/
theorem meets_verifyHead (hs : Supplies read Src bad) (ht : Total all Src) {s : Decryptor}
    {header rest : ByteArray} (hheader : header.size = Limits.headerBytes)
    (hb : s.reader.Before Src all rest l w) :
    Meets read (verifyHead d header) s l w
      (fun head s' l w => ∃ (after : ByteArray) (r : ChunkReader),
        headOf d.format d.credential (header ++ rest) = .ok (head, after) ∧
        s' = { s with reader := r } ∧ r.Before Src all after l w ∧
        (d.format = .message → r.ended = true ∧ after = .empty))
      fun fault _ l w => bad fault ∨
        FailsAs d.format (headOf d.format d.credential (header ++ rest)) fault ∧
          Held Src l w := by
  unfold verifyHead
  split
  next hf =>
    -- A message is all that is left, or more than a message may have.
    unfold onReader
    simp only [meets_bind, meets_onPart, meets_except]
    obtain ⟨taken, hsrc, hall⟩ := hb
    refine (ChunkReader.meets_readToLimit hs _ true hsrc).mono (fun chunk r l w hc => ?_)
      fun fault r l w hb => ?_
    · obtain ⟨hsrc, hsize, hended, hbuffer⟩ := hc
      obtain ⟨left, hleft, hend⟩ := ht hsrc
      rw [hend rfl, ByteArray.append_empty] at hleft
      obtain rfl := (append_inj (hall.symm.trans hleft) rfl).2
      rw [hf, headOf_message_append hheader hsize]
      refine ⟨fun head hhead => ⟨.empty, r, ?_, rfl, ⟨taken ++ chunk.bytes, ?_, ?_⟩,
        fun _ => ⟨hended, rfl⟩⟩, fun fault hfault => .inr ⟨.of_eq ?_, _, _, hsrc⟩⟩
      · exact bind_eq_ok.2 ⟨head, hhead, rfl⟩
      · rw [hended, hbuffer, ByteArray.append_empty]
        exact hsrc
      · rw [ByteArray.append_empty]
        exact hall
      · exact bind_eq_error.2 (.inl hfault)
    · rcases hb with hb | ⟨hsrc, hlong⟩
      · exact .inl hb
      right
      obtain ⟨left, hleft, -⟩ := ht hsrc
      rw [ByteArray.append_assoc] at hleft
      obtain rfl := (append_inj (hall.symm.trans hleft) rfl).2
      have hrest : Limits.payloadMax < (r.buffer ++ left).size := by
        rw [ByteArray.size_append]
        omega
      obtain ⟨fault', hfault⟩ :=
        exists_headOf_message_of_long d.credential hheader hrest
      rw [hf]
      exact ⟨⟨fault', hfault, fun h => absurd rfl h⟩, _, _, hsrc⟩
  next hf =>
    simp only [meets_bind, meets_except]
    rw [headOf_append hf hheader]
    -- Both sides take the same checks in the same order: the header, the size, and the tag.
    refine ⟨fun fields hfields => ?_,
      fun fault hfault => .inr ⟨.of_eq (bind_eq_error.2 (.inl hfault)), hb.held⟩⟩
    refine (meets_readPayload hs ht fields.size hb).mono (fun payload s' l w hp => ?_)
      fun fault _ _ _ hb => ?_
    · obtain ⟨hsize, rfl, r, rfl, hr⟩ := hp
      refine ⟨fun head hhead => ⟨_, r, ?_, rfl, hr, fun h => absurd h hf⟩,
        fun fault hfault => .inr ⟨.of_eq ?_, hr.held⟩⟩
      · refine bind_eq_ok.2 ⟨fields, hfields, unless_eq_ok.2 ⟨hsize, ?_⟩⟩
        exact bind_eq_ok.2 ⟨head, hhead, rfl⟩
      · refine bind_eq_error.2 (.inr ⟨fields, hfields, unless_eq_error.2 (.inr ⟨hsize, ?_⟩)⟩)
        exact bind_eq_error.2 (.inl hfault)
    · refine hb.imp_right fun hb => ⟨.of_eq ?_, hb.2⟩
      exact bind_eq_error.2 (.inr ⟨fields, hfields, unless_eq_error.2 (.inl hb.1)⟩)

/-- A step that begins a pass ends where `headOf` says, or fails as it does. -/
theorem meets_decodeHead (hs : Supplies read Src bad) (ht : Total all Src)
    (hd : d.Fresh Src all l w) :
    Meets read decodeHead d l w
      (fun info d' l w => ∃ (head : VerifiedHead) (after : ByteArray),
        headOf d.format d.credential all = .ok (head, after) ∧ info = head.info ∧
        d'.format = d.format ∧ d'.credential = d.credential ∧
        d'.Decoded Src all head after l w)
      fun fault _ l w => bad fault ∨
        FailsAs d.format (headOf d.format d.credential all) fault ∧ Held Src l w := by
  obtain ⟨header, rest, hheader, hsize, hall, hr⟩ := hd.header
  unfold decodeHead
  simp only [meets_bind, meets_get, hd.metadata]
  rw [meets_require (by rw [hd.stage]; decide)]
  simp only [hheader, meets_bind, meets_modify, meets_pure]
  refine (meets_verifyHead (s := { d with header := none }) hs ht hsize hr).mono
    (fun head s' l w hh => ?_) fun fault _ _ _ hb => ?_
  · obtain ⟨after, r, hok, rfl, hb, hend⟩ := hh
    have hallows : d.stage.allows .headDecoded = true := by
      rw [hd.stage]
      rfl
    refine (meets_enter (by exact hallows)).2 ?_
    exact ⟨head, after, hall ▸ hok, rfl, rfl, rfl, rfl, rfl, rfl, hb, hall ▸ size_lt_of_headOf hok,
      hend⟩
  · rw [hall]
    exact hb

theorem meets_info (hs : Supplies read Src bad) (ht : Total all Src) (hd : d.Fresh Src all l w) :
    Meets read info d l w
      (fun info d' l w => ∃ (head : VerifiedHead) (after : ByteArray),
        headOf d.format d.credential all = .ok (head, after) ∧ info = head.info ∧
        d'.format = d.format ∧ d'.credential = d.credential ∧
        d'.Decoded Src all head after l w)
      fun fault _ l w => bad fault ∨
        FailsAs d.format (headOf d.format d.credential all) fault ∧ Held Src l w :=
  (meets_settle _).2 (meets_decodeHead hs ht hd)

/-- What is left of decrypting a head when it has been verified. -/
def openHead (info : PassInfo) : Step Decryptor ByteArray := do
  let d ← get
  match d.head with
  | none => throw (.stageViolation d.stage "decrypt block0 twice")
  | some head =>
    modify ({ · with head := none })
    let answer ← (← Step.ofProgram (Host.password info))
    let derivation ←
      Derivation.ofPassword info.iterations answer.password d.credential info.salt.data
    let cipher ← Step.ofProgram (Host.derive derivation)
    let clear ← info.algorithm.decrypt cipher info.iv head.text head.associated
    enter .headDone
    modify ({ · with
      keys := some ⟨cipher, head.signingKey⟩, lastTag := some head.tag, lastFlags := head.flags })
    return clear

theorem decryptHead_eq : decryptHead = settle (do
    require [.initialized, .headDecoded] "decrypt block0"
    let info ← decodeHead
    openHead info) := rfl

/-- What a decrypted head leads to, with a reply of which `R` holds. -/
structure HeadOpened (Src : PassInfo → Supply ρ) (all : ByteArray)
    (R : PassInfo → Except Fault Answer → Prop) (head : VerifiedHead) (ahead : ByteArray)
    (d : Decryptor) (clear : ByteArray) (d' : Decryptor) (l : ρ) (w : World) : Prop where
  format : d'.format = d.format
  credential : d'.credential = d.credential
  metadata : d'.metadata = some head.info
  opened : ∃ (answer : Answer) (keys : PassKeys), R head.info (.ok answer) ∧
    head.decrypt d.credential answer = .ok (keys, clear) ∧
    d'.Between (Src head.info) all keys head.tag head.flags ahead l w

/-- **A verified head is opened** with the answer to the question for its password. -/
theorem meets_openHead {R : PassInfo → Except Fault Answer → Prop} (hask : Asks Src Src' R)
    (hstable : ∀ info, Stable (Src' info)) {head : VerifiedHead}
    (hd : d.Decoded Src all head ahead l w) :
    Meets read (openHead head.info) d l w
      (fun clear d' l w => HeadOpened Src' all R head ahead d clear d' l w)
      fun fault _ l w => ∃ reply, R head.info reply ∧
        (reply >>= head.decrypt d.credential) = .error fault ∧ Held (Src' head.info) l w := by
  obtain ⟨taken, hsrc, hall⟩ := hd.reader
  have hgiven : taken ++ d.reader.buffer ≠ .empty := by
    have hshorter := hd.shorter
    rw [hall, ByteArray.size_append] at hshorter
    rw [ne_eq, ← ByteArray.size_eq_zero_iff, ByteArray.size_append]
    omega
  obtain ⟨hR, hsrc'⟩ := hask head.info (.inl hgiven) hsrc
  unfold openHead
  simp only [meets_bind, meets_get, hd.head, meets_modify, meets_password, meets_except,
    meets_derive, meets_pure]
  generalize w.provider (w.asked ++ [head.info]) = reply at hR
  -- The answer, the key and the clear text may each be refused.
  refine ⟨fun answer hanswer => ⟨fun derivation hder => ⟨fun clear hclear => ?_,
    fun fault hf => ?_⟩, fun fault hf => ?_⟩, fun fault hf => ?_⟩
  · have hallows : d.stage.allows .headDone = true := by
      rw [hd.stage]
      rfl
    refine (meets_enter (by exact hallows)).2 ?_
    refine ⟨rfl, rfl, hd.metadata, answer, ⟨derivation.key, head.signingKey⟩, hanswer ▸ hR, ?_,
      rfl, rfl, rfl, rfl, ⟨taken, hstable _ (World.alike_derive _ _) hsrc', hall⟩, hd.atEnd⟩
    rw [VerifiedHead.decrypt]
    exact bind_eq_ok.2 ⟨_, hder, bind_eq_ok.2 ⟨_, hclear, rfl⟩⟩
  · refine ⟨reply, hR, bind_eq_error.2 (.inr ⟨answer, hanswer, ?_⟩), _, _,
      hstable _ (World.alike_derive _ _) hsrc'⟩
    rw [VerifiedHead.decrypt]
    exact bind_eq_error.2 (.inr ⟨derivation, hder, bind_eq_error.2 (.inl hf)⟩)
  · refine ⟨reply, hR, bind_eq_error.2 (.inr ⟨answer, hanswer, ?_⟩), _, _, hsrc'⟩
    rw [VerifiedHead.decrypt]
    exact bind_eq_error.2 (.inl hf)
  · exact ⟨reply, hR, bind_eq_error.2 (.inl hf), _, _, hsrc'⟩

/-- **Decrypting a head** that has been verified before. -/
theorem meets_decryptHead_of_decoded {R : PassInfo → Except Fault Answer → Prop}
    (hask : Asks Src Src' R) (hstable : ∀ info, Stable (Src' info)) {head : VerifiedHead}
    (hd : d.Decoded Src all head ahead l w) :
    Meets read decryptHead d l w
      (fun clear d' l w => HeadOpened Src' all R head ahead d clear d' l w)
      fun fault _ l w => ∃ reply, R head.info reply ∧
        (reply >>= head.decrypt d.credential) = .error fault ∧ Held (Src' head.info) l w := by
  have hdecode : Meets read decodeHead d l w
      (fun info d' l' w' => info = head.info ∧ d' = d ∧ l' = l ∧ w' = w) fun _ _ _ _ => False := by
    unfold decodeHead
    simp only [meets_bind, meets_get, hd.metadata]
    rw [if_pos (by rw [hd.stage]; decide)]
    exact ⟨rfl, rfl, rfl, rfl⟩
  rw [decryptHead_eq, meets_settle, meets_bind, meets_require (by rw [hd.stage]; decide),
    meets_bind]
  refine hdecode.mono (fun info d' l' w' h => ?_) fun _ _ _ _ h => h.elim
  obtain ⟨rfl, rfl, rfl, rfl⟩ := h
  exact meets_openHead hask hstable hd

/-- **Decrypting the head** at the start of a pass. -/
theorem meets_decryptHead {R : PassInfo → Except Fault Answer → Prop} (hs : Supplies read Src bad)
    (ht : Total all Src) (hask : Asks Src Src' R) (hstable : ∀ info, Stable (Src' info))
    (hd : d.Fresh Src all l w) :
    Meets read decryptHead d l w
      (fun clear d' l w => ∃ (head : VerifiedHead) (ahead : ByteArray),
        headOf d.format d.credential all = .ok (head, ahead) ∧
        HeadOpened Src' all R head ahead d clear d' l w)
      fun fault _ l w => bad fault ∨
        (FailsAs d.format (headOf d.format d.credential all) fault ∧ Held Src l w) ∨
        ∃ head ahead reply, headOf d.format d.credential all = .ok (head, ahead) ∧
          R head.info reply ∧ (reply >>= head.decrypt d.credential) = .error fault ∧
          Held (Src' head.info) l w := by
  rw [decryptHead_eq, meets_settle, meets_bind, meets_require (by rw [hd.stage]; decide),
    meets_bind]
  refine (meets_decodeHead hs ht hd).mono (fun info d' l w h => ?_) fun fault _ _ _ hb => ?_
  · obtain ⟨head, after, hok, rfl, hformat, hcredential, hd'⟩ := h
    refine (meets_openHead hask hstable hd').mono (fun clear d'' l w ho => ?_)
      fun fault _ _ _ hb => ?_
    · refine ⟨head, after, hok, ho.format.trans hformat, ho.credential.trans hcredential,
        ho.metadata, ?_⟩
      rw [← hcredential]
      exact ho.opened
    · obtain ⟨reply, hR, hfault, hheld⟩ := hb
      rw [hcredential] at hfault
      exact .inr (.inr ⟨head, after, reply, hok, hR, hfault, hheld⟩)
  · exact hb.imp_right .inl

/-! ### Further blocks -/

/-- What the step after a block leads to: another block, or the end. -/
def Advanced (Src : Supply ρ) (all : ByteArray) (keys : PassKeys) (clear : ByteArray)
    (d' : Decryptor) (l : ρ) (w : World) : Option OpenedBlock → Prop
  | some opened => clear = opened.clear ∧
    d'.Between Src all keys opened.tag opened.flags opened.after l w
  | none => clear = .empty ∧ d'.stage = .finished ∧ d'.reader.ended = true ∧
    d'.reader.Before Src all .empty l w

/-- A block of which the header has been read. -/
theorem meets_decryptFrame (hs : Supplies read Src bad) (ht : Total all Src)
    (hf : d.format ≠ .message) {keys : PassKeys} {tag : Bytes 32} {flags : Nat}
    {header rest : ByteArray} (hheader : header.size = Limits.headerBytes)
    (hd : d.Between Src all keys tag flags rest l w) :
    Meets read (decryptFrame header) d l w
      (fun clear d' l w => d.SamePass d' ∧
        ∃ next, nextOf d.format keys tag flags (header ++ rest) = .ok next ∧
          Advanced Src all keys clear d' l w next)
      fun fault _ l w => bad fault ∨
        nextOf d.format keys tag flags (header ++ rest) = .error fault ∧ Held Src l w := by
  rw [nextOf_append hheader]
  unfold decryptFrame
  simp only [meets_bind, meets_get, meets_except]
  refine ⟨fun fields hfields => ?_,
    fun fault hfault => .inr ⟨bind_eq_error.2 (.inl hfault), hd.reader.held⟩⟩
  refine (meets_readPayload hs ht fields.size hd.reader).mono (fun payload s l w hp => ?_)
    fun fault _ _ _ hb => hb.imp_right fun hb => ⟨?_, hb.2⟩
  · obtain ⟨hsize, rfl, r, rfl, hr⟩ := hp
    have hprevious :
        (if d.format.isChained = true then d.lastTag.elim .empty Bytes.data else .empty)
          = d.format.previous tag := by
      rw [hd.lastTag]
      rfl
    simp only [hd.keys, hprevious, meets_bind, meets_except]
    refine ⟨fun block hblock => ?_, fun fault hfault => .inr ⟨?_, hr.held⟩⟩
    · by_cases hlast : d.format.requiresTerminal = true ∧ d.lastFlags = Limits.flagTerminal
      · -- The tag is checked before the flags of the block before are.
        rw [if_pos hlast]
        refine .inr ⟨bind_eq_error.2 (.inr ⟨fields, hfields,
          unless_eq_error.2 (.inr ⟨hsize, ?_⟩)⟩), hr.held⟩
        refine bind_eq_error.2 (.inr ⟨block, hblock, unless_eq_error.2 (.inl ⟨?_, rfl⟩)⟩)
        exact hd.lastFlags ▸ hlast
      · rw [if_neg hlast]
        simp only [meets_bind, meets_except, meets_modify, meets_pure]
        refine ⟨fun clear hclear => ?_, fun fault hfault => .inr ⟨?_, hr.held⟩⟩
        · have hallows : d.stage.allows .headDone = true := by
            rw [hd.stage]
            rfl
          refine (meets_enter (by exact hallows)).2 ?_
          refine ⟨⟨rfl, rfl, rfl⟩, _, bind_eq_ok.2 ⟨fields, hfields, unless_eq_ok.2 ⟨hsize,
            bind_eq_ok.2 ⟨block, hblock, unless_eq_ok.2 ⟨hd.lastFlags ▸ hlast, bind_eq_ok.2
              ⟨clear, hclear, rfl⟩⟩⟩⟩⟩, rfl, ?_⟩
          exact ⟨rfl, rfl, rfl, rfl, hr, fun h => absurd h hf⟩
        · refine bind_eq_error.2 (.inr ⟨fields, hfields, unless_eq_error.2 (.inr ⟨hsize, ?_⟩)⟩)
          refine bind_eq_error.2 (.inr ⟨block, hblock, unless_eq_error.2 (.inr ⟨?_, ?_⟩)⟩)
          · exact hd.lastFlags ▸ hlast
          · exact bind_eq_error.2 (.inl hfault)
    · refine bind_eq_error.2 (.inr ⟨fields, hfields, unless_eq_error.2 (.inr ⟨hsize, ?_⟩)⟩)
      exact bind_eq_error.2 (.inl hfault)
  · exact bind_eq_error.2 (.inr ⟨fields, hfields, unless_eq_error.2 (.inl hb.1)⟩)

/-- **A further block is opened** as `nextOf` has it. -/
theorem meets_decryptFurther (hs : Supplies read Src bad) (ht : Total all Src) {keys : PassKeys}
    {tag : Bytes 32} {flags : Nat} (hd : d.Between Src all keys tag flags ahead l w) :
    Meets read decryptFurther d l w
      (fun clear d' l w => d.SamePass d' ∧
        ∃ next, nextOf d.format keys tag flags ahead = .ok next ∧
          Advanced Src all keys clear d' l w next)
      fun fault _ l w => bad fault ∨
        nextOf d.format keys tag flags ahead = .error fault ∧ Held Src l w := by
  unfold decryptFurther
  rw [meets_settle, meets_bind, meets_require (by rw [hd.stage]; decide), meets_bind, meets_get]
  split
  next hm =>
    -- A message is over behind its only block.
    obtain ⟨hended, rfl⟩ := hd.atEnd hm
    refine (meets_finish hd.stage).2 ⟨⟨rfl, rfl, rfl⟩, none, ?_, rfl, rfl, hended, hd.reader⟩
    exact nextOf_eq_none.2 ⟨rfl, fun h => by rw [hm] at h; cases h⟩
  rename_i hf
  unfold onReader
  rw [meets_bind, meets_onPart]
  refine (ChunkReader.meets_readFill_before hs ht _ false hd.reader).mono (fun chunk r l w hc => ?_)
    fun _ _ _ _ hb => .inl hb
  obtain ⟨hchunk, hr, hexhausted⟩ := hc
  have hsize : chunk.bytes.size = min Limits.headerBytes ahead.size := by
    rw [hchunk, ByteArray.size_extract, Nat.sub_zero]
  have h38 : Limits.headerBytes = 38 := rfl
  by_cases hend : chunk.bytes.isEmpty = true
  · -- The input ends here: the pass does too, if it may.
    have hempty : ahead = .empty := by
      rw [← ByteArray.size_eq_zero_iff]
      rw [isEmpty_iff, ← ByteArray.size_eq_zero_iff] at hend
      omega
    subst hempty
    rw [if_pos hend]
    by_cases hlast : d.format.requiresTerminal = true ∧ d.lastFlags ≠ Limits.flagTerminal
    · rw [if_pos hlast]
      refine .inr ⟨?_, hr.held⟩
      rw [nextOf, if_pos (isEmpty_iff.2 rfl), if_pos (hd.lastFlags ▸ hlast)]
    · rw [if_neg hlast]
      refine (meets_finish (d := { d with reader := r }) hd.stage).2 ?_
      refine ⟨⟨rfl, rfl, rfl⟩, none, ?_, rfl, rfl, hexhausted ?_, hr⟩
      · rw [nextOf, if_pos (isEmpty_iff.2 rfl), if_neg (hd.lastFlags ▸ hlast)]
      · rw [hsize, ByteArray.size_empty]
        decide
  rw [if_neg hend]
  have hne : ¬ ahead.isEmpty = true := by
    rw [isEmpty_iff, ← ByteArray.size_eq_zero_iff] at hend ⊢
    omega
  by_cases hshort : chunk.bytes.size < Limits.headerBytes
  · -- The input ends within a header.
    rw [if_pos hshort]
    refine .inr ⟨?_, hr.held⟩
    rw [nextOf, if_neg hne, Frame.ofBytes, if_pos (by omega), hsize, Nat.min_eq_right (by omega)]
    rfl
  · rw [if_neg hshort]
    have hahead : ahead = chunk.bytes ++ ahead.extract Limits.headerBytes ahead.size := by
      rw [hchunk, ← ByteArray.extract_eq_extract_append_extract _ (Nat.zero_le _) (by omega),
        ByteArray.extract_zero_size]
    rw [hahead]
    have h : Between Src all keys tag flags _ { d with reader := r } l w :=
      ⟨hd.stage, hd.keys, hd.lastTag, hd.lastFlags, hr, fun h => absurd h hf⟩
    have hheader : chunk.bytes.size = Limits.headerBytes := by omega
    refine (meets_decryptFrame (d := { d with reader := r }) hs ht hf hheader h).mono
      (fun _ _ _ _ hn => ⟨?_, hn.2⟩) fun _ _ _ _ hb => hb
    exact ⟨hn.1.format, hn.1.credential, hn.1.metadata⟩

/-! ### The next block -/

section next

variable {fails : Fault → Decryptor → ρ → World → Prop}
  {good : ByteArray → Decryptor → ρ → World → Prop}

/-- At the start of a pass, the next block is its head. -/
theorem meets_decryptBlock_of_initialized (h : d.stage = .initialized) :
    Meets read decryptBlock d l w good fails ↔ Meets read decryptHead d l w good fails := by
  unfold decryptBlock
  rw [meets_bind, meets_get, h]

theorem meets_decryptBlock_of_headDecoded (h : d.stage = .headDecoded) :
    Meets read decryptBlock d l w good fails ↔ Meets read decryptHead d l w good fails := by
  unfold decryptBlock
  rw [meets_bind, meets_get, h]

theorem meets_decryptBlock_of_headDone (h : d.stage = .headDone) :
    Meets read decryptBlock d l w good fails ↔ Meets read decryptFurther d l w good fails := by
  unfold decryptBlock
  rw [meets_bind, meets_get, h]

theorem meets_decryptBlock_of_finished (h : d.stage = .finished) :
    Meets read decryptBlock d l w (fun _ _ _ _ => False) fun _ _ _ _ => True := by
  unfold decryptBlock decryptFurther require
  rw [meets_bind, meets_get, h]
  show Meets read (settle _) d l w _ fun _ _ _ _ => True
  rw [meets_settle, meets_bind, meets_bind, meets_get, meets_except, h]
  exact ⟨fun _ hok => (nomatch hok), fun _ _ => trivial⟩

end next

end Decryptor

end SealedStream
