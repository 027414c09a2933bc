import Mathlib.Logic.Function.Iterate
import SealedStream.Proofs.Encryptor
import SealedStream.Proofs.Pipeline
import SealedStream.Stream

/-!
# Encryption in nested passes

The blocks that a session has made are a pass that opens to what it has taken (`SealedPass`), and
its outlet supplies the bytes of that pass.  Since passes nest, what comes out at the end is a pass
around a pass, and so on down to the input (`EncryptedThrough`).

* `encrypt_through`: encryption makes such bytes, or fails with one of the faults that can arise.
* `exists_encrypt_of_calm`: it succeeds wherever no read fails and all questions are answered.

Here the innermost pass asks first.  A source is described by the questions that have been put up to
its own, and by those that have been put behind it (`Flow`); before it has given a byte, not even
its own has been put.  Those up to its own are the questions of its plan (`Plan.Questions`).
-/

namespace SealedStream

variable {settings : PassSettings} {credential : Credential} {answer : Answer}

/-! ### Passes in the making -/

namespace FramedPass

/-- The last block of a pass. -/
def last (p : FramedPass) : WireBlock :=
  p.further.foldl (fun _ block => block.1) p.head

/-- A pass with one more block. -/
def snoc (p : FramedPass) (b : WireBlock) (f : FurtherData) : FramedPass :=
  { p with further := p.further ++ [(b, f)] }

variable (p : FramedPass) (b : WireBlock) (f : FurtherData)

@[simp] theorem last_snoc : (p.snoc b f).last = b := by
  rw [last, snoc, List.foldl_append]
  rfl

theorem blocks_snoc : (p.snoc b f).blocks = p.blocks ++ [b] := by
  simp [blocks, snoc]

theorem toByteArray_snoc (format : WireFormat) :
    (p.snoc b f).toByteArray format = p.toByteArray format ++ b.toByteArray format := by
  simp only [toByteArray, snoc, furtherBytes, List.map_append, List.map_cons, List.map_nil,
    concat_append, concat_singleton, ByteArray.append_assoc]

end FramedPass

/-- A row of further blocks stays linked with one more that is signed after its last. -/
theorem Linked.snoc {format : WireFormat} {key : Key} {further : List (WireBlock × FurtherData)}
    {head b : WireBlock} {f : FurtherData} (h : Linked format key head.tag further)
    (hb : IsFurther format key
      (format.previous (further.foldl (fun _ block => block.1) head).tag) f b) :
    Linked format key head.tag (further ++ [(b, f)]) := by
  induction further generalizing head with
  | nil => exact ⟨hb, trivial⟩
  | cons block further ih =>
    obtain ⟨hblock, hlinked⟩ := h
    exact ⟨hblock, ih hlinked hb⟩

/-- The blocks that have been made of a pass for the clear text `clear`, with the answer to its
question.  Only the last may say that it is. -/
structure SealedPass (settings : PassSettings) (credential : Credential) (answer : Answer)
    (p : FramedPass) (clear : ByteArray) : Prop where
  clears : ∃ first rest, clear = concat (first :: rest) ∧
    SealedHead settings credential answer.password first p.data p.head ∧
    List.Forall₂ (OpensTo (p.data.keys credential answer.password).cipher) p.further rest ∧
    ∀ clear ∈ rest, clear ≠ .empty
  hint : p.data.openHint credential = .ok (keptHint (answer.hint.getD ""))
  linked : Linked .chained (credential.signingKey p.data.salt) p.head.tag p.further
  terminal : p.blocks.map WireBlock.terminal
    = List.replicate p.further.length false ++ [p.last.terminal]

namespace SealedPass

variable {p : FramedPass} {clear chunk : ByteArray}

/-- A head is the first of its pass. -/
theorem ofHead {h : HeadData} {b : WireBlock}
    (hb : SealedHead settings credential answer.password chunk h b)
    (hhint : h.openHint credential = .ok (keptHint (answer.hint.getD ""))) :
    SealedPass settings credential answer ⟨b, h, []⟩ chunk where
  clears := ⟨chunk, [], ByteArray.append_empty.symm, hb, .nil,
    fun clear hclear => (by cases hclear)⟩
  hint := hhint
  linked := trivial
  terminal := rfl

/-- A further block goes on behind one that does not say that it is the last. -/
theorem snoc (hp : SealedPass settings credential answer p clear)
    (hlast : p.last.terminal = false) {f : FurtherData} {b : WireBlock}
    (hb : SealedFurther (p.data.keys credential answer.password) p.last.tag chunk f b) :
    SealedPass settings credential answer (p.snoc b f) (clear ++ chunk) where
  clears := by
    obtain ⟨first, rest, rfl, hhead, hrest, hne⟩ := hp.clears
    refine ⟨first, rest ++ [chunk], ?_, hhead, List.rel_append hrest (.cons hb.opens .nil), ?_⟩
    · simp only [concat_cons, concat_append, concat_nil, ByteArray.append_empty,
        ByteArray.append_assoc]
    · intro c hc
      rcases List.mem_append.1 hc with hc | hc
      · exact hne c hc
      · rw [List.mem_singleton.1 hc]
        exact hb.clear_ne
  hint := hp.hint
  linked := hp.linked.snoc hb.isFurther
  terminal := by
    -- What was the last flag is now one of those before it.
    have hterminal := hp.terminal
    rw [hlast, ← List.replicate_succ'] at hterminal
    rw [FramedPass.blocks_snoc, FramedPass.last_snoc, List.map_append, hterminal]
    have hlength : (p.snoc b f).further.length = p.further.length + 1 := List.length_append
    rw [hlength]
    rfl

theorem wellFormed (hp : SealedPass settings credential answer p clear)
    (hlast : p.last.terminal = true) : p.WellFormed .chained credential where
  head := by
    obtain ⟨first, rest, -, hhead, -⟩ := hp.clears
    exact hhead.isHead
  linked := hp.linked
  terminal := by
    rw [hp.terminal, hlast]
    rfl

/-- The head of a pass has the metadata of the question for its password. -/
theorem info_eq (hp : SealedPass settings credential answer p clear) :
    p.data.info .chained none = settings.question p.data.salt p.data.iv := by
  obtain ⟨first, rest, -, hhead, -⟩ := hp.clears
  rw [HeadData.info, PassSettings.question, hhead.algorithm, hhead.iterations, hhead.loop]
  rfl

end SealedPass

/-! ### How much longer a pass is than its clear text -/

/-- A block has at most 381 bytes besides its clear text. -/
theorem WireBlock.size_toByteArray_le {format : WireFormat} {b : WireBlock} {a : Algorithm}
    {key : Key} {iv clear : ByteArray} (hb : b.associated.size ≤ Limits.associatedDataMax)
    (h : a.decrypt key iv b.text b.associated = .ok clear) :
    (b.toByteArray format).size ≤ clear.size + 381 := by
  have htext := Algorithm.size_of_decrypt h
  have htag : a.tagBytes ≤ Limits.tagMax := by cases a <;> decide
  have hsum : Limits.headerBytes + Limits.associatedDataMax + Limits.tagMax = 381 := rfl
  rw [size_toByteArray, payload, ByteArray.size_append]
  omega

/-- Further blocks, each of which has clear text. -/
theorem size_furtherBytes_le {key cipher : Key} {tag : Bytes 32}
    {further : List (WireBlock × FurtherData)} {clears : List ByteArray}
    (hlinked : Linked .chained key tag further)
    (hopens : List.Forall₂ (OpensTo cipher) further clears)
    (hne : ∀ clear ∈ clears, clear ≠ .empty) :
    (furtherBytes .chained further).size ≤ 382 * (concat clears).size := by
  induction hopens generalizing tag with
  | nil => exact Nat.le_refl 0
  | @cons block clear further clears hopen _ ih =>
    obtain ⟨hb, hlinked⟩ := hlinked
    have hblock : (block.1.toByteArray .chained).size ≤ clear.size + 381 := by
      refine WireBlock.size_toByteArray_le ?_ hopen
      rw [hb.associated]
      exact block.2.size_toByteArray_le
    have hrest := ih hlinked fun c hc => hne c (List.mem_cons_of_mem _ hc)
    -- The 381 bytes are paid for by at least one byte of clear text.
    have hclear : clear.size ≠ 0 := fun h =>
      hne clear List.mem_cons_self (ByteArray.size_eq_zero_iff.1 h)
    have hbytes : furtherBytes .chained (block :: further)
        = block.1.toByteArray .chained ++ furtherBytes .chained further := rfl
    rw [hbytes, concat_cons, ByteArray.size_append, ByteArray.size_append]
    omega

/-- **A pass is at most so much longer** than its clear text. -/
theorem SealedPass.size_le {p : FramedPass} {clear : ByteArray}
    (hp : SealedPass settings credential answer p clear) :
    (p.toByteArray .chained).size ≤ 382 * clear.size + 381 := by
  obtain ⟨first, rest, rfl, hhead, hrest, hne⟩ := hp.clears
  have hfurther := size_furtherBytes_le hp.linked hrest hne
  have hfirst : (p.head.toByteArray .chained).size ≤ first.size + 381 := by
    refine WireBlock.size_toByteArray_le ?_ hhead.opens
    rw [hhead.isHead.associated]
    exact p.data.size_toByteArray_le
  rw [FramedPass.toByteArray, concat_cons, ByteArray.size_append, ByteArray.size_append]
  omega

/-! ### Sources that ask first -/

/-- How far a source has come: it has given nothing, or the questions `before` have been put up to
its own, and `later` since. -/
inductive Phase
  | start
  | asked (before later : List PassInfo)

/-- A source that gives fewer than `limit` bytes, or fails with a fault in `bad`.  Before its first
byte, all questions up to its own have been put. -/
structure Flow {ρ : Type} (read : Source ρ) (provider : List PassInfo → Except Fault Answer)
    (limit : Nat) (bad : Fault → Prop) (S : Phase → Supply ρ) : Prop where
  supplies : ∀ phase, Supplies read (S phase) bad
  stable : ∀ phase, Stable (S phase)
  size_lt : ∀ phase l w given ended, S phase l w given ended → given.size < limit
  begun : ∀ l w given ended, S .start l w given ended → given ≠ .empty ∨ ended = true →
    ∃ before, S (.asked before []) l w given ended
  asked : ∀ before later l w given ended, S (.asked before later) l w given ended →
    w.asked = before ++ later
  asks : ∀ before later, Asks (S (.asked before later))
    (fun info => S (.asked before (later ++ [info])))
    fun info reply => reply = provider (before ++ (later ++ [info]))

/-- Each question is answered with what can be used, unless any fault is in `bad`. -/
def AnswersOr (bad : Fault → Prop) (provider : List PassInfo → Except Fault Answer) : Prop :=
  ∀ before info, Usable (provider (before ++ [info])) ∨ ∀ fault, bad fault

variable {ρ : Type} {read : Source ρ} {provider : List PassInfo → Except Fault Answer} {limit : Nat}
  {bad : Fault → Prop} {S : Phase → Supply ρ}

/-- The input of a world, in which `asked` has been asked before. -/
def inputFlow (Src : Supply Unit) (asked : List PassInfo)
    (provider : List PassInfo → Except Fault Answer) : Phase → Supply Unit
  | .start => Unasked Src asked provider
  | .asked before later => fun l w given ended =>
    before = asked ∧ Unasked Src (asked ++ later) provider l w given ended

theorem flow_input {Src : Supply Unit} {all : ByteArray}
    (hs : Supplies Source.host Src bad) (hinput : InputOnly Src) (ht : Total all Src)
    (asked : List PassInfo) (provider : List PassInfo → Except Fault Answer) :
    Flow Source.host provider (all.size + 1) bad (inputFlow Src asked provider) where
  supplies phase := by
    cases phase with
    | start => exact hs.unasked asked provider
    | asked before later =>
      intro n l w given hn h
      have hg := hs.unasked (asked ++ later) provider hn h.2
      generalize w.run (Source.host n l) = x at hg ⊢
      obtain ⟨⟨e | bytes, l'⟩, w'⟩ := x
      · exact hg
      · exact ⟨h.1, hg⟩
  stable phase := by
    cases phase with
    | start => exact hinput.stable_unasked asked provider
    | asked before later =>
      intro l w w' given ended ha h
      exact ⟨h.1, hinput.stable_unasked (asked ++ later) provider ha h.2⟩
  size_lt phase l w given ended h := by
    have htotal : ∃ rest, all = given ++ rest ∧ (ended = true → rest = .empty) := by
      cases phase with
      | start => exact ht h.1
      | asked before later => exact ht h.2.1
    obtain ⟨rest, rfl, -⟩ := htotal
    rw [ByteArray.size_append]
    omega
  begun l w given ended h _ := by
    refine ⟨asked, rfl, ?_⟩
    rw [List.append_nil]
    exact h
  asked before later l w given ended h := by
    rw [h.1]
    exact h.2.2.1
  asks before later := by
    intro l w given ended info hgiven h
    obtain ⟨rfl, h⟩ := h
    obtain ⟨hreply, hsrc⟩ := hinput.asks_unasked_since before later provider info hgiven h
    exact ⟨hreply, rfl, hsrc⟩

/-! ### What a session has made -/

namespace EncryptedPass

/-- A session that encrypts a pass: it has made nothing, or the blocks of a pass for what it has
taken, with the answer to its question. -/
inductive Progress (S : Phase → Supply ρ) (provider : List PassInfo → Except Fault Answer)
    (settings : PassSettings) (credential : Credential) : Phase → Given EncryptedPass ρ
  | fresh {e : Encryptor} {l : ρ} {w : World} : e.Fresh (S .start) l w → e.credential = credential →
    Progress S provider settings credential .start 0 ⟨e, settings⟩ l w .empty
  | made {before later : List PassInfo} {p : FramedPass} {answer : Answer} {clear : ByteArray}
      {e : Encryptor} {l : ρ} {w : World} :
    provider (before ++ [p.data.info .chained none]) = .ok answer →
    SealedPass settings credential answer p clear →
    Encryptor.Advanced (S (.asked before (p.data.info .chained none :: later)))
      (p.data.keys credential answer.password) clear p.last e l w →
    Progress S provider settings credential (.asked (before ++ [p.data.info .chained none]) later) 0
      ⟨e, settings⟩ l w (p.toByteArray .chained)
  | begun {before : List PassInfo} {k : Nat} {p : EncryptedPass} {l : ρ} {w : World}
      {given : ByteArray} :
    Progress S provider settings credential (.asked before []) k p l w given →
    Progress S provider settings credential .start k p l w given

/-- The next block of a pass, as bytes. -/
theorem meets_next {e : Encryptor} {l : ρ} {w : World}
    {good : ByteArray → EncryptedPass → ρ → World → Prop}
    {bad : Fault → EncryptedPass → ρ → World → Prop} :
    Meets read next ⟨e, settings⟩ l w good bad ↔
      Meets read (Encryptor.encryptBlock settings) e l w
        (fun block e l w => good block.toByteArray ⟨e, settings⟩ l w)
        fun fault e l w => bad fault ⟨e, settings⟩ l w := by
  unfold next
  simp only [meets_bind, meets_get, meets_onPart, meets_pure]

theorem toByteArray_block_ne {block : Block} {b : WireBlock} (h : ∃ stage, block = b.block stage) :
    block.toByteArray ≠ .empty := by
  obtain ⟨stage, rfl⟩ := h
  rw [b.toByteArray_block, ne_eq, ← ByteArray.size_eq_zero_iff, WireBlock.size_toByteArray]
  have h38 : Limits.headerBytes = 38 := rfl
  omega

/-- **A further block** goes on with a pass. -/
theorem meets_next_made (hflow : Flow read provider limit bad S) {before later : List PassInfo}
    {p : FramedPass} {answer : Answer} {clear : ByteArray} {e : Encryptor} {l : ρ} {w : World}
    (hanswer : provider (before ++ [p.data.info .chained none]) = .ok answer)
    (hp : SealedPass settings credential answer p clear)
    (he : Encryptor.Advanced (S (.asked before (p.data.info .chained none :: later)))
      (p.data.keys credential answer.password) clear p.last e l w) (hstage : e.stage ≠ .finished) :
    Meets read next ⟨e, settings⟩ l w
      (fun bytes e' l w => Progress S provider settings credential
        (.asked (before ++ [p.data.info .chained none]) later) 0 e' l w
        (p.toByteArray .chained ++ bytes) ∧ bytes ≠ .empty)
      fun fault _ _ _ => bad fault := by
  have hlast : p.last.terminal = false := by
    by_contra hne
    rw [Encryptor.Advanced, if_pos (by simpa using hne)] at he
    exact hstage he.stage
  have hbetween : e.Between (S (.asked before (p.data.info .chained none :: later)))
      (p.data.keys credential answer.password) p.last.tag clear l w := by
    rw [Encryptor.Advanced, hlast] at he
    exact he
  rw [meets_next, Encryptor.meets_encryptBlock_of_headDone hbetween.stage]
  refine (Encryptor.meets_encryptFurther (hflow.supplies _) (hflow.stable _) settings hbetween).mono
    (fun block e' l w hs => ?_) fun _ _ _ _ hb => hb
  obtain ⟨f, b, chunk, -, hs⟩ := hs
  refine ⟨?_, toByteArray_block_ne hs.block⟩
  obtain ⟨stage, rfl⟩ := hs.block
  rw [b.toByteArray_block, ← FramedPass.toByteArray_snoc p b f]
  have hadvanced := hs.advanced
  rw [← p.last_snoc b f] at hadvanced
  exact .made (p := p.snoc b f) hanswer (hp.snoc hlast hs.sealedFurther) hadvanced

/-- **The head** begins a pass.  Its chunk is taken before its question is put, and by then all
passes that it is taken from have put theirs. -/
theorem meets_next_fresh (hflow : Flow read provider limit bad S)
    (hanswers : AnswersOr bad provider) {e : Encryptor} {l : ρ}
    {w : World} (he : e.Fresh (S .start) l w) :
    Meets read next ⟨e, settings⟩ l w
      (fun bytes e' l w => ∃ before, Progress S provider settings e.credential (.asked before []) 0
        e' l w bytes ∧ bytes ≠ .empty)
      fun fault _ _ _ => bad fault := by
  have hreader : S .start l w (.empty ++ e.reader.buffer) e.reader.ended := by
    rw [ByteArray.empty_append]
    exact he.reader
  rw [meets_next, Encryptor.meets_encryptBlock_of_initialized he.stage, Encryptor.encryptHead_eq,
    Encryptor.meets_settle, meets_bind, Encryptor.meets_require he.stage, meets_bind]
  refine (Encryptor.meets_nextChunk (hflow.supplies .start) he.target hreader).mono
    (fun chunk e' l w hc => ?_) fun _ _ _ _ hb => hb
  obtain ⟨hc, -, -, -, reader, rfl⟩ := hc
  -- A source that has given a chunk, or none to its end, has put its question.
  obtain ⟨before, hbefore⟩ := hflow.begun _ _ _ _ hc.reader hc.given_or_ended
  have hasks := hflow.asks before []
  refine (Encryptor.meets_answerHead (hflow.stable _) hasks (fun _ => hflow.stable _) settings
    ⟨hc.target, hbefore, hc.size_le, hc.last, hc.goesOn⟩ he.stage).mono (fun block e' l w hs => ?_)
    fun fault _ _ _ hb => ?_
  · obtain ⟨h, b, answer, hanswer, hs⟩ := hs
    refine ⟨before ++ [h.info .chained none], ?_, toByteArray_block_ne hs.block⟩
    obtain ⟨stage, rfl⟩ := hs.block
    have hbytes : (b.block stage).toByteArray = FramedPass.toByteArray .chained ⟨b, h, []⟩ := by
      rw [b.toByteArray_block, FramedPass.toByteArray, furtherBytes, List.map_nil, concat_nil,
        ByteArray.append_empty]
    rw [hbytes]
    exact .made (p := ⟨b, h, []⟩) hanswer.symm (.ofHead hs.sealedHead hs.hint) hs.advanced
  · obtain ⟨info, reply, rfl, hnot⟩ := hb
    exact (hanswers _ _).elim (fun h => absurd h hnot) fun h => h fault

/-- **Each block goes on with the pass**, and none is without bytes. -/
theorem keeps_progress (hflow : Flow read provider limit bad S)
    (hanswers : AnswersOr bad provider) {bound : Nat}
    (hbound : 2 ≤ bound) (phase : Phase) :
    engine.Keeps read bound (Progress S provider settings credential phase) bad where
  next k p l w given h hfinished := by
    have hstage : p.encryptor.stage ≠ .finished := of_decide_eq_false hfinished
    show Meets read next p l w _ _
    induction h with
    | fresh he hcredential =>
      subst hcredential
      refine (meets_next_fresh hflow hanswers he).mono (fun bytes e' l w hs => ?_)
        fun _ _ _ _ hb => hb
      obtain ⟨before, hp, hne⟩ := hs
      rw [ByteArray.empty_append]
      exact ⟨0, .begun hp, fun h => absurd h hne⟩
    | made hanswer hp he =>
      refine (meets_next_made hflow hanswer hp he hstage).mono (fun bytes e' l w hs => ?_)
        fun _ _ _ _ hb => hb
      exact ⟨0, hs.1, fun h => absurd h hs.2⟩
    | begun _ ih =>
      refine (ih hfinished hstage).mono (fun bytes e' l w hs => ?_) fun _ _ _ _ hb => hb
      obtain ⟨k', hp, hless⟩ := hs
      exact ⟨k', .begun hp, hless⟩
  bounded k p l w given h := by
    have hk : k = 0 := by
      induction h with
      | fresh => rfl
      | made => rfl
      | begun _ ih => exact ih
    exact .inl (by omega)

namespace Progress

variable {phase : Phase} {k : Nat} {p : EncryptedPass} {l : ρ} {w : World} {given : ByteArray}

theorem alike (hflow : Flow read provider limit bad S) {w' : World} (ha : w.Alike w')
    (h : Progress S provider settings credential phase k p l w given) :
    Progress S provider settings credential phase k p l w' given := by
  induction h with
  | fresh he hcredential =>
    exact .fresh ⟨he.stage, he.target, hflow.stable _ ha he.reader⟩ hcredential
  | made hanswer hp he => exact .made hanswer hp (he.mono fun h => hflow.stable _ ha h)
  | begun _ ih => exact .begun (ih ha)

/-- What a session has made is not much longer than what it has read. -/
theorem size_lt (hflow : Flow read provider limit bad S)
    (h : Progress S provider settings credential phase k p l w given) :
    given.size < 400 * (limit + 1) := by
  induction h with
  | fresh =>
    rw [ByteArray.size_empty]
    omega
  | made _ hp he =>
    have hread := hflow.size_lt _ _ _ _ _ he.holds.1
    have hsize := hp.size_le
    rw [ByteArray.size_append] at hread
    omega
  | begun _ ih => exact ih

/-- A session that has given bytes, or is over, has put its question. -/
theorem exists_begun (h : Progress S provider settings credential .start k p l w given)
    (hgiven : given ≠ .empty ∨ p.encryptor.stage = .finished) :
    ∃ before, Progress S provider settings credential (.asked before []) k p l w given := by
  cases h with
  | fresh he =>
    refine absurd hgiven (not_or.2 ⟨fun h => h rfl, fun h => ?_⟩)
    rw [he.stage] at h
    cases h
  | begun h => exact ⟨_, h⟩

variable {before later : List PassInfo}

/-- The questions that have been put, up to that of a session and behind it. -/
theorem asked_eq (hflow : Flow read provider limit bad S)
    (h : Progress S provider settings credential (.asked before later) k p l w given) :
    w.asked = before ++ later := by
  cases h with
  | made _ _ he =>
    rw [hflow.asked _ _ _ _ _ _ he.holds.1, List.append_assoc]
    rfl

/-- A question that is put behind that of a session. -/
theorem ask (hflow : Flow read provider limit bad S) (info : PassInfo)
    (h : Progress S provider settings credential (.asked before later) k p l w given) :
    w.provider (w.asked ++ [info]) = provider (before ++ (later ++ [info])) ∧
      Progress S provider settings credential (.asked before (later ++ [info])) k p l
        { w with asked := w.asked ++ [info] } given := by
  cases h with
  | @made before' _ p' answer clear e _ _ hanswer hp he =>
    obtain ⟨hreply, hsrc⟩ := hflow.asks _ _ info he.holds.2 he.holds.1
    have happend : before' ++ [p'.data.info .chained none] ++ (later ++ [info])
        = before' ++ (p'.data.info .chained none :: later ++ [info]) :=
      List.append_assoc before' [p'.data.info .chained none] (later ++ [info])
    rw [happend]
    exact ⟨hreply, .made hanswer hp (he.mono fun _ => hsrc)⟩

end Progress

/-- **The outlet of a session that encrypts** is a source again, of more bytes. -/
theorem flow_outlet (hflow : Flow read provider limit bad S)
    (hanswers : AnswersOr bad provider) {bound : Nat}
    (hbound : 2 ≤ bound) :
    Flow (Source.outlet engine bound read) provider (400 * (limit + 1)) bad
      fun phase => Outlet.Supply engine (Progress S provider settings credential phase) where
  supplies phase := supplies_outlet (keeps_progress hflow hanswers hbound phase)
  stable phase := by
    rintro ⟨o, l⟩ w w' given ended ha ⟨⟨⟨k, hk⟩, hend⟩, hended⟩
    exact ⟨⟨⟨k, hk.alike hflow ha⟩, hend⟩, hended⟩
  size_lt phase := by
    rintro ⟨o, l⟩ w given ended ⟨⟨⟨k, hk⟩, -⟩, -⟩
    have hsize := hk.size_lt hflow
    rw [ByteArray.size_append] at hsize
    omega
  begun := by
    rintro ⟨o, l⟩ w given ended ⟨⟨⟨k, hk⟩, hend⟩, hended⟩ hgiven
    obtain ⟨before, hbefore⟩ := hk.exists_begun (by
      refine hgiven.imp (fun h he => ?_) fun he => of_decide_eq_true (hend (hended he)).1
      exact h (ByteArray.append_eq_empty_iff.1 he).1)
    exact ⟨before, ⟨⟨k, hbefore⟩, hend⟩, hended⟩
  asked before later := by
    rintro ⟨o, l⟩ w given ended ⟨⟨⟨k, hk⟩, -⟩, -⟩
    exact hk.asked_eq hflow
  asks before later := by
    rintro ⟨o, l⟩ w given ended info - ⟨⟨⟨k, hk⟩, hend⟩, hended⟩
    obtain ⟨hreply, hk'⟩ := hk.ask hflow info
    exact ⟨hreply, ⟨⟨k, hk'⟩, hend⟩, hended⟩

end EncryptedPass

/-! ### The questions of a plan -/

namespace Plan

theorem length_passes (plan : Plan) : plan.passes.length = plan.count := by
  simp [passes]

theorem passes_getElem (plan : Plan) {i : Nat} (h : i < plan.passes.length) :
    plan.passes[i] = plan.pass ⟨i, plan.length_passes ▸ h⟩ := by
  simp [passes]

theorem take_passes (plan : Plan) : plan.passes.take plan.count = plan.passes := by
  rw [← plan.length_passes, List.take_length]

/-- The questions `made` are those for the passwords of the first `n` passes of a plan, one for each
and in their order. -/
def Questions (plan : Plan) (n : Nat) (made : List PassInfo) : Prop :=
  List.Forall₂ (fun settings info => ∃ salt iv, info = settings.question salt iv)
    (plan.passes.take n) made

theorem questions_zero (plan : Plan) : plan.Questions 0 [] :=
  .nil

theorem Questions.snoc {plan : Plan} {n : Nat} {made : List PassInfo} (h : plan.Questions n made)
    (hn : n < plan.count) (salt : Bytes 16) (iv : ByteArray) :
    plan.Questions (n + 1) (made ++ [(plan.pass ⟨n, hn⟩).question salt iv]) := by
  have hn' : n < plan.passes.length := by rwa [plan.length_passes]
  rw [Questions, List.take_succ_eq_append_getElem hn', plan.passes_getElem hn']
  exact List.rel_append h (.cons ⟨salt, iv, rfl⟩ .nil)

/-- Each pass has its question. -/
theorem Questions.exists_mem {plan : Plan} {made : List PassInfo}
    (h : plan.Questions plan.count made) (i : Fin plan.count) :
    ∃ salt iv, (plan.pass i).question salt iv ∈ made := by
  rw [Questions, plan.take_passes] at h
  have hi : (i : Nat) < plan.passes.length := by
    rw [plan.length_passes]
    exact i.isLt
  have hi' : (i : Nat) < made.length := h.length_eq ▸ hi
  obtain ⟨salt, iv, hquestion⟩ := h.get hi hi'
  refine ⟨salt, iv, ?_⟩
  rw [List.get_eq_getElem, List.get_eq_getElem, plan.passes_getElem hi] at hquestion
  rw [← hquestion]
  exact List.getElem_mem hi'

end Plan

/-! ### Passes around passes -/

/-- The bytes `cipher` are the first `n` passes of a plan around the input `clear`, each a pass of
the bytes inside it.  They have put the questions `before`, the innermost first. -/
inductive EncryptedThrough (plan : Plan) (credential : Credential)
    (provider : List PassInfo → Except Fault Answer) (asked : List PassInfo) (clear : ByteArray) :
    (n : Nat) → (before : List PassInfo) → (cipher : ByteArray) → Prop
  | input : EncryptedThrough plan credential provider asked clear 0 asked clear
  | pass {n : Nat} {before : List PassInfo} {mid : ByteArray} {p : FramedPass} {answer : Answer}
      (hn : n < plan.count) :
    EncryptedThrough plan credential provider asked clear n before mid →
    SealedPass (plan.pass ⟨n, hn⟩) credential answer p mid → p.last.terminal = true →
    provider (before ++ [p.data.info .chained none]) = .ok answer →
    EncryptedThrough plan credential provider asked clear (n + 1)
      (before ++ [p.data.info .chained none]) (p.toByteArray .chained)

variable {plan : Plan} {asked : List PassInfo} {all : ByteArray} {n : Nat}

/-- What so many passes have asked. -/
theorem EncryptedThrough.exists_questions {before : List PassInfo} {cipher : ByteArray}
    (h : EncryptedThrough plan credential provider asked all n before cipher) :
    ∃ made, before = asked ++ made ∧ plan.Questions n made := by
  induction h with
  | input => exact ⟨[], (List.append_nil asked).symm, plan.questions_zero⟩
  | pass hn _ hp _ _ ih =>
    obtain ⟨made, rfl, hmade⟩ := ih
    rw [hp.info_eq, List.append_assoc]
    exact ⟨_, rfl, hmade.snoc hn _ _⟩

/-- A source that asks what so many passes of a plan ask, and at its end has given so many passes
around the input. -/
structure Through (plan : Plan) (credential : Credential)
    (provider : List PassInfo → Except Fault Answer) (asked : List PassInfo) (all : ByteArray)
    (n : Nat) (S : Phase → Supply ρ) : Prop where
  questions : ∀ before later l w given ended, S (.asked before later) l w given ended →
    ∃ made, before = asked ++ made ∧ plan.Questions n made
  ended : ∀ before later l w given, S (.asked before later) l w given true →
    EncryptedThrough plan credential provider asked all n before given

theorem through_input {Src : Supply Unit} (ht : Total all Src) :
    Through plan credential provider asked all 0 (inputFlow Src asked provider) where
  questions before later l w given ended h :=
    ⟨[], h.1.trans (List.append_nil asked).symm, plan.questions_zero⟩
  ended before later l w given h := by
    obtain ⟨rfl, hsrc⟩ := h
    obtain ⟨rest, rfl, hrest⟩ := ht hsrc.1
    rw [hrest rfl, ByteArray.append_empty]
    exact .input

/-- A session that encrypts puts one more pass around what it has read. -/
theorem through_outlet (hthrough : Through plan credential provider asked all n S)
    (hn : n < plan.count) :
    Through plan credential provider asked all (n + 1) fun phase =>
      Outlet.Supply EncryptedPass.engine
        (EncryptedPass.Progress S provider (plan.pass ⟨n, hn⟩) credential phase) where
  questions before later l w given ended h := by
    obtain ⟨⟨⟨k, hk⟩, -⟩, -⟩ := h
    generalize l.1.engine = p, given ++ l.1.pending = bytes at hk
    cases hk with
    | made hanswer hp he =>
      obtain ⟨made, rfl, hmade⟩ := hthrough.questions _ _ _ _ _ _ he.holds.1
      rw [hp.info_eq, List.append_assoc]
      exact ⟨_, rfl, hmade.snoc hn _ _⟩
  ended before later l w given h := by
    obtain ⟨k, hk, hfinished⟩ := h.finished
    generalize l.1.engine = p at hk hfinished
    have hstage : p.encryptor.stage = .finished := of_decide_eq_true hfinished
    cases hk with
    | @made _ _ p' _ _ _ _ _ hanswer hp he =>
      -- At its end, the session has made a block that says that it is the last.
      cases hlast : p'.last.terminal with
      | true =>
        rw [Encryptor.Advanced, hlast] at he
        exact .pass hn (hthrough.ended _ _ _ _ _ he.reader) hp hlast hanswer
      | false =>
        rw [Encryptor.Advanced, hlast] at he
        have hgoes : Stage.headDone = .finished := he.stage.symm.trans hstage
        cases hgoes

/-- **Passes pushed one around the other** are a source of so many passes around the input.  The
induction is on the passes that are still to be pushed. -/
theorem exists_flow_foldl (readStart : Nat) {bound : Nat} (hbound : 2 ≤ bound)
    (hanswers : AnswersOr bad provider) (passes : List PassSettings) :
    ∀ {depth n limit : Nat} {l : Layers EncryptedPass depth} {w : World}
      {S : Phase → Supply (Layers EncryptedPass depth)},
      Flow (Layers.read EncryptedPass.engine bound depth) provider limit bad S →
      Through plan credential provider asked all n S → S .start l w .empty false →
      (∀ i (h : i < passes.length), ∃ hi : n + i < plan.count, passes[i] = plan.pass ⟨n + i, hi⟩) →
      ∃ (p : Pipeline EncryptedPass) (S' : Phase → Supply (Layers EncryptedPass p.depth)),
        passes.foldl (fun p settings => p.push ⟨.start credential readStart, settings⟩) ⟨depth, l⟩
          = p ∧
        Flow (Layers.read EncryptedPass.engine bound p.depth) provider
          (passes.foldl (fun n _ => 400 * (n + 1)) limit) bad S' ∧
        Through plan credential provider asked all (n + passes.length) S' ∧
        S' .start p.layers w .empty false := by
  induction passes with
  | nil =>
    intro depth n limit l w S hflow hthrough hsrc _
    exact ⟨⟨depth, l⟩, S, rfl, hflow, hthrough, hsrc⟩
  | cons settings passes ih =>
    intro depth n limit l w S hflow hthrough hsrc hpasses
    have hfresh : (Encryptor.start credential readStart).Fresh (S .start) l w :=
      ⟨rfl, clampReadStart_mem readStart, hsrc⟩
    obtain ⟨hn, hsettings⟩ := hpasses 0 (Nat.zero_lt_succ _)
    rw [List.getElem_cons_zero] at hsettings
    subst hsettings
    have hflow₁ : Flow (Layers.read EncryptedPass.engine bound (depth + 1)) provider
        (400 * (limit + 1)) bad fun phase => Outlet.Supply EncryptedPass.engine
          (EncryptedPass.Progress S provider (plan.pass ⟨n, hn⟩) credential phase) :=
      EncryptedPass.flow_outlet hflow hanswers hbound
    have hthrough₁ := through_outlet hthrough hn
    obtain ⟨p, S', hp, hflow', hthrough', hsrc'⟩ :=
      ih hflow₁ hthrough₁ (Outlet.supply_start (.fresh hfresh rfl)) fun i h => by
        have hi := hpasses (i + 1) (Nat.succ_lt_succ h)
        rwa [List.getElem_cons_succ, ← Nat.add_assoc, Nat.add_right_comm] at hi
    refine ⟨p, S', hp, hflow', ?_, hsrc'⟩
    rwa [Nat.add_assoc, Nat.add_comm 1] at hthrough'

/-! ### Whole streams -/

namespace Plan

theorem outputBound_eq (plan : Plan) (n : Nat) :
    plan.outputBound n = plan.passes.foldl (fun n _ => 400 * (n + 1)) n := by
  rw [outputBound, List.foldl_const, List.foldl_const, length_passes]
  rfl

theorem passes_ne_nil (plan : Plan) : plan.passes ≠ [] := by
  rw [ne_eq, ← List.length_eq_zero_iff, length_passes]
  exact Nat.ne_of_gt plan.length_mem.1

theorem le_outputBound (plan : Plan) (n : Nat) : 2 ≤ plan.outputBound n := by
  rw [outputBound_eq, ← List.dropLast_append_getLast plan.passes_ne_nil, List.foldl_append]
  show 2 ≤ 400 * (_ + 1)
  omega

/-- A plan has passes. -/
theorem depth_pipeline (plan : Plan) (credential : Credential) :
    (plan.pipeline credential).depth ≠ 0 := by
  rw [pipeline, ← List.dropLast_append_getLast plan.passes_ne_nil, List.foldl_append]
  exact Nat.succ_ne_zero _

end Plan

theorem foldl_bound_mono (passes : List PassSettings) {m n : Nat} (h : m ≤ n) :
    passes.foldl (fun n _ => 400 * (n + 1)) m ≤ passes.foldl (fun n _ => 400 * (n + 1)) n := by
  induction passes generalizing m n with
  | nil => exact h
  | cons settings passes ih => exact ih (by omega : 400 * (m + 1) ≤ 400 * (n + 1))

/-- **The passes of a plan** are a source of so many passes around what the input delivers, wherever
faults in `bad` are the only ones. -/
theorem Plan.exists_flow (bad : Fault → Prop) (plan : Plan) (credential : Credential) {w : World}
    (hinput : ∀ e, InputItem.failure e ∈ w.input → bad (.ofIoFault e))
    (hanswers : AnswersOr bad w.provider) :
    ∃ (limit : Nat) (S : Phase → Supply (Layers EncryptedPass (plan.pipeline credential).depth)),
      limit ≤ plan.outputBound w.inputBound ∧
      Flow (Layers.read EncryptedPass.engine (plan.outputBound w.inputBound)
        (plan.pipeline credential).depth) w.provider limit bad S ∧
      Through plan credential w.provider w.asked w.delivered plan.count S ∧
      S .start (plan.pipeline credential).layers w .empty false := by
  let Src : Supply Unit := deliveredSupply w.delivered bad
  have ht : Total w.delivered Src := total_deliveredSupply _ _
  have hflow : Flow (Layers.read EncryptedPass.engine (plan.outputBound w.inputBound) 0) w.provider
      (w.delivered.size + 1) bad (inputFlow Src w.asked w.provider) :=
    flow_input (supplies_delivered _ _) (inputOnly_deliveredSupply _ _) ht _ _
  have hsrc : inputFlow Src w.asked w.provider .start () w .empty false :=
    ⟨deliveredSupply_start hinput, rfl, rfl⟩
  have hthrough : Through plan credential w.provider w.asked w.delivered 0
    (inputFlow Src w.asked w.provider) := through_input ht
  obtain ⟨p, S, rfl, hflow', hthrough', hstart⟩ :=
    exists_flow_foldl plan.readStart (plan.le_outputBound _) hanswers plan.passes hflow hthrough
      hsrc fun i h => by
        have hi : 0 + i < plan.count := by rwa [Nat.zero_add, ← plan.length_passes]
        refine ⟨hi, ?_⟩
        rw [plan.passes_getElem h]
        simp only [Nat.zero_add]
  rw [Nat.zero_add, plan.length_passes] at hthrough'
  refine ⟨_, S, ?_, hflow', hthrough', hstart⟩
  rw [plan.outputBound_eq]
  refine foldl_bound_mono plan.passes ?_
  have hsize := size_deliveredBytes_le w.input
  rw [← World.delivered] at hsize
  rw [World.inputBound]
  omega

/-- **What encryption makes**: a pass around a pass, and so on down to what the input delivers, for
as many passes as were planned.  Where faults in `bad` are the only ones, it fails with no other. -/
theorem World.encrypt_through (bad : Fault → Prop) (plan : Plan) (credential : Credential)
    {w : World}
    (hinput : ∀ e, InputItem.failure e ∈ w.input → bad (.ofIoFault e))
    (hanswers : AnswersOr bad w.provider) :
    match w.encrypt plan credential with
    | (.ok cipher, w') =>
      EncryptedThrough plan credential w.provider w.asked w.delivered plan.count w'.asked cipher
    | (.error fault, _) => bad fault := by
  obtain ⟨limit, S, hlimit, hflow, hthrough, hstart⟩ :=
    plan.exists_flow bad credential hinput hanswers
  have hsize : ∀ ⦃l w' given ended⦄, S .start l w' given ended →
      given.size < plan.outputBound w.inputBound :=
    fun l w' given ended h => Nat.lt_of_lt_of_le (hflow.size_lt _ _ _ _ _ h) hlimit
  have hread := Pipeline.readFrom_of_supplies (hflow.supplies .start) (.inl hsize)
    (plan.outputBound w.inputBound) hstart (Nat.le_add_left _ _)
  have hencrypt : w.encrypt plan credential = w.run (Pipeline.readFrom EncryptedPass.engine
    (plan.outputBound w.inputBound) (plan.outputBound w.inputBound) .empty
      (plan.pipeline credential)) := rfl
  rw [hencrypt]
  generalize w.run (Pipeline.readFrom EncryptedPass.engine (plan.outputBound w.inputBound)
    (plan.outputBound w.inputBound) .empty (plan.pipeline credential)) = x at hread ⊢
  obtain ⟨fault | cipher, w'⟩ := x
  · exact hread
  · -- The outermost pass has come to its end, by when all questions have been put.
    obtain ⟨l', hl'⟩ := hread
    obtain ⟨before, hbefore⟩ := hflow.begun _ _ _ _ hl' (.inr rfl)
    have hasked := hflow.asked _ _ _ _ _ _ hbefore
    rw [List.append_nil] at hasked
    show EncryptedThrough _ _ _ _ _ _ w'.asked cipher
    rw [hasked]
    exact hthrough.ended _ _ _ _ _ hbefore

/-- The same for an encryption that succeeds, whatever else might have failed. -/
theorem World.encryptedThrough_of_encrypt {plan : Plan} {w w' : World} {cipher : ByteArray}
    (h : w.encrypt plan credential = (.ok cipher, w')) :
    EncryptedThrough plan credential w.provider w.asked w.delivered plan.count w'.asked cipher := by
  have hthrough := encrypt_through (w := w) (fun _ => True) plan credential (fun _ _ => trivial)
    fun _ _ => .inr fun _ => trivial
  rw [h] at hthrough
  exact hthrough

/-- **Encryption succeeds** if no read fails and all questions are answered. -/
theorem World.exists_encrypt_of_calm (plan : Plan) (credential : Credential) {w : World}
    (hcalm : ∀ e, InputItem.failure e ∉ w.input)
    (hanswers : ∀ before info, Usable (w.provider (before ++ [info]))) :
    ∃ cipher w', w.encrypt plan credential = (.ok cipher, w') ∧
      EncryptedThrough plan credential w.provider w.asked w.delivered plan.count w'.asked
        cipher := by
  have hthrough := encrypt_through (fun _ => False) plan credential (fun e he => hcalm e he)
    fun before info => .inl (hanswers before info)
  generalize w.encrypt plan credential = x at hthrough
  obtain ⟨fault | cipher, w'⟩ := x
  · exact hthrough.elim
  · exact ⟨cipher, w', rfl, hthrough⟩

/-- The same for input in pieces, all of which is delivered. -/
theorem World.exists_encrypt_eq (plan : Plan) (credential : Credential) {w : World}
    (hp : w.InPieces) (hanswers : ∀ before info, Usable (w.provider (before ++ [info]))) :
    ∃ cipher w', w.encrypt plan credential = (.ok cipher, w') ∧
      EncryptedThrough plan credential w.provider w.asked w.bytes plan.count w'.asked cipher := by
  rw [← hp.delivered_eq]
  exact exists_encrypt_of_calm plan credential hp.no_failure hanswers

end SealedStream
