import SealedStream.Proofs.InTurn
import SealedStream.Proofs.PassOutput
import SealedStream.Proofs.Recorded
import SealedStream.Proofs.RoundTrip

/-!
# Nesting is composition

Encryption runs all its passes at once, each at the pace of the one around it.  The record of each
says what it has drawn and what it was answered, and that is enough to tell what it must have
written: the bytes of its pass for all that the pass inside it has written (`Wrote`).  A session on
its own, with the same random bytes and the same answer, writes the same (`WritesAlone`).

* `exists_oneByOne`: the passes of a stream are what sessions write one after another.
* `runs_as_composition`: the same for both directions.
-/

namespace SealedStream

-- What a step meets is read off the rules for its parts, never off its run.
attribute [local irreducible] Meets

variable {settings : PassSettings} {credential : Credential} {readStart : Nat}

/-! ### What has been written of a pass -/

namespace PassSettings

/-- The bytes of further blocks, the first of which is known. -/
theorem sealRest_cons {keys : PassKeys} {tape : Nat → UInt8} {previous : Bytes 32} {start : Nat}
    {chunk : ByteArray} {rest : List ByteArray} {parts : SealedParts}
    (h : settings.sealFurther keys previous
      (World.tapeBytes tape start settings.algorithm.ivBytes).data chunk rest.isEmpty = .ok parts) :
    settings.sealRest keys tape previous start (chunk :: rest)
      = (parts.bytes ++ ·) <$>
        settings.sealRest keys tape parts.tag (start + settings.algorithm.ivBytes) rest := by
  rw [sealRest, map_eq_pure_bind]
  show settings.sealFurther _ _ _ _ _ >>= _ = _
  rw [h]
  rfl

/-- The bytes of a pass, the head of which is known. -/
theorem sealPass_of_chunksOf {answer : Answer} {tape : Nat → UInt8} {start : Nat}
    {clear chunk : ByteArray} {rest : List ByteArray} {salt : Bytes 16} {iv : ByteArray}
    {keys : PassKeys} {parts : SealedParts}
    (hchunks : chunksOf (clampReadStart readStart) clear = chunk :: rest)
    (hsplit : Encryptor.splitRandom settings.algorithm
      (World.tapeBytes tape start Limits.headRandomBytes) = (salt, iv))
    (h : settings.sealHead credential salt iv answer chunk rest.isEmpty = .ok (keys, parts)) :
    settings.sealPass credential readStart answer tape start clear
      = (parts.bytes ++ ·) <$>
        settings.sealRest keys tape parts.tag (start + Limits.headRandomBytes) rest := by
  rw [sealPass, hchunks, map_eq_pure_bind]
  dsimp only
  rw [hsplit]
  show settings.sealHead _ _ _ _ _ _ >>= _ = _
  rw [h]
  rfl

end PassSettings

/-- A session has put one question, with the random bytes that it drew first, and got an answer. -/
def AnsweredOnce (settings : PassSettings) (events : List Event) (answer : Answer) : Prop :=
  ∃ random, questions events = [(settings.questionOf random, .ok answer)] ∧
    ∀ tape start, OnTape tape start (drawnBytes events) →
      World.tapeBytes tape start Limits.headRandomBytes = random

/-- A session has written `out` for `taken`, and that is how the function begins for all that may be
ahead.  Nothing may be ahead of the last chunk, and something must be ahead of any other. -/
def Wrote (settings : PassSettings) (credential : Credential) (readStart : Nat)
    (events : List Event) (out taken : ByteArray) (keys : PassKeys) (tag : Bytes 32) (target : Nat)
    (last : Bool) : Prop :=
  ∃ answer, AnsweredOnce settings events answer ∧
    ∀ tape start, OnTape tape start (drawnBytes events) → ∀ ahead, ahead.isEmpty = last →
      settings.sealPass credential readStart answer tape start (taken ++ ahead)
        = (out ++ ·) <$> settings.sealRest keys tape tag (start + (drawnBytes events).size)
          (if last then [] else chunksOf target ahead)

namespace Encryptor

variable {ρ : Type} {S : Supply ρ} {e e' : Encryptor} {events events' : List Event} {l : ρ}
  {w : World} {taken out : ByteArray} {chunk : Chunk} {keys : PassKeys} {parts : SealedParts}
  {block : Block} {tag : Bytes 32}

/-- The chunks of what was taken and what is ahead. -/
theorem Cut.chunksOf_append {target : Nat} (h : Cut S taken target chunk l w) (ht : 0 < target)
    {ahead : ByteArray} (hahead : ahead.isEmpty = chunk.done) :
    chunksOf target (chunk.bytes ++ ahead) = chunk.bytes ::
        (if chunk.done then [] else chunksOf (min (target * 2) Limits.readMax) ahead) ∧
      (if chunk.done then [] else
        chunksOf (min (target * 2) Limits.readMax) ahead).isEmpty = chunk.done := by
  cases hd : chunk.done with
  | true =>
    rw [hd] at hahead
    rw [isEmpty_iff.1 hahead, ByteArray.append_empty, chunksOf_of_le h.size_le]
    exact ⟨rfl, rfl⟩
  | false =>
    have hne : ahead ≠ .empty := by
      intro hempty
      rw [isEmpty_iff.2 hempty, hd] at hahead
      cases hahead
    rw [SealedStream.chunksOf_append ht (h.full hd) hne]
    exact ⟨rfl, List.isEmpty_eq_false_iff.2 chunksOf_ne_nil⟩

/-- **The head** is how the pass begins. -/
theorem ChunkSealed.wrote_head {random : Bytes Limits.headRandomBytes} {salt : Bytes 16}
    {iv : ByteArray} {answer : Answer}
    (hsplit : splitRandom settings.algorithm random = (salt, iv))
    (hparts : settings.sealHead credential salt iv answer chunk.bytes chunk.done
      = .ok (keys, parts)) (h : ChunkSealed S keys .empty e chunk parts block e' l w)
    (htarget : e.readTarget = clampReadStart readStart)
    (hhappened : Happened [] random.data [(settings.question salt iv, .ok answer)] events') :
    Wrote settings credential readStart events' (.empty ++ block.toByteArray)
      (.empty ++ chunk.bytes) keys parts.tag e'.readTarget chunk.done := by
  have hdrawn : drawnBytes events' = random.data := by
    rw [hhappened.drawn]
    exact ByteArray.empty_append
  have hrandom : ∀ tape start, OnTape tape start (drawnBytes events') →
      World.tapeBytes tape start Limits.headRandomBytes = random := by
    intro tape start htape
    rw [hdrawn] at htape
    exact htape.eq_tapeBytes.symm
  have hquestion : settings.questionOf random = settings.question salt iv := by
    rw [PassSettings.questionOf, hsplit]
  refine ⟨answer, ⟨random, ?_, hrandom⟩, ?_⟩
  · rw [hquestion]
    exact hhappened.asked
  · intro tape start htape ahead hahead
    have hpos : 0 < e.readTarget := by
      rw [htarget]
      exact (clampReadStart_mem readStart).1
    rcases h.cut.chunksOf_append hpos hahead with ⟨hchunks, hisEmpty⟩
    rcases h.block with ⟨stage, rfl⟩
    rw [← h.target] at hchunks hisEmpty
    rw [htarget] at hchunks
    rw [← hisEmpty] at hparts
    rw [← hrandom tape start htape] at hsplit
    rw [hdrawn, random.size_data, ByteArray.empty_append, ByteArray.empty_append,
      PassSettings.sealPass_of_chunksOf hchunks hsplit hparts]
    rfl

/-- **A further block** is how the pass goes on. -/
theorem ChunkSealed.wrote_further {iv : Bytes settings.algorithm.ivBytes}
    (hparts : settings.sealFurther keys tag iv.data chunk.bytes chunk.done = .ok parts)
    (h : ChunkSealed S keys taken e chunk parts block e' l w) (hne : chunk.bytes ≠ .empty)
    (hpos : 0 < e.readTarget) (hhappened : Happened events iv.data [] events')
    (hwrote : Wrote settings credential readStart events out taken keys tag e.readTarget false) :
    Wrote settings credential readStart events' (out ++ block.toByteArray)
      (taken ++ chunk.bytes) keys parts.tag e'.readTarget chunk.done := by
  rcases hwrote with ⟨answer, ⟨random, hasked, hrandom⟩, hpass⟩
  have hsplit : ∀ {tape start}, OnTape tape start (drawnBytes events') →
      OnTape tape start (drawnBytes events) ∧
        iv = World.tapeBytes tape (start + (drawnBytes events).size)
          settings.algorithm.ivBytes := by
    intro tape start htape
    rw [hhappened.drawn, OnTape.append_iff] at htape
    exact ⟨htape.1, htape.2.eq_tapeBytes⟩
  refine ⟨answer, ⟨random, ?_, fun tape start htape => hrandom tape start (hsplit htape).1⟩, ?_⟩
  · rw [hhappened.asked, List.append_nil, hasked]
  · intro tape start htape ahead hahead
    rcases hsplit htape with ⟨hbefore, rfl⟩
    rcases h.cut.chunksOf_append hpos hahead with ⟨hchunks, hisEmpty⟩
    rcases h.block with ⟨stage, rfl⟩
    have hmore : (chunk.bytes ++ ahead).isEmpty = false := by
      rw [← Bool.not_eq_true, isEmpty_iff]
      intro hempty
      exact hne (ByteArray.append_eq_empty_iff.1 hempty).1
    rw [← h.target] at hchunks hisEmpty
    rw [← hisEmpty] at hparts
    rw [ByteArray.append_assoc, hpass tape start hbefore _ hmore, if_neg Bool.false_ne_true,
      hchunks, PassSettings.sealRest_cons hparts, Functor.map_map, hhappened.drawn,
      ByteArray.size_append,
      Bytes.size_data, ← Nat.add_assoc]
    simp only [ByteArray.append_assoc]
    rfl

end Encryptor

/-! ### Recorded sessions -/

section recorded

variable {ρ ε : Type} {read : Source ρ} {l : ρ} {w : World}

/-- A recorded session does what it does otherwise, and keeps its events and its bytes. -/
theorem Engine.meets_recorded (E : Engine ε) {r : Recorded ε}
    {good : ByteArray → Recorded ε → ρ → World → Prop}
    {fails : Fault → Recorded ε → ρ → World → Prop} :
    Meets read E.recorded.next r l w good fails ↔
      Meets read (Step.traced E.next) (r.session, r.events) l w
        (fun bytes s l w => good bytes ⟨s.1, s.2, r.given ++ bytes⟩ l w)
        fun fault s l w => fails fault ⟨s.1, s.2, r.given⟩ l w := by
  unfold Meets Engine.recorded
  rw [Step.traced, Source.run_bind, Source.run_bind]
  generalize read.run ((E.next r.session).traced r.events) l w = x
  rcases x with ⟨⟨⟨⟨fault | bytes, e⟩, events⟩, l⟩, w⟩
  · exact Iff.rfl
  · exact Iff.rfl

end recorded

namespace EncryptedPass

variable {ρ : Type} {read : Source ρ} {S : Supply ρ} {bad : Fault → Prop}

theorem meets_recorded_next {e : Encryptor} {events : List Event} {given : ByteArray} {l : ρ}
    {w : World} {good : ByteArray → Recorded EncryptedPass → ρ → World → Prop}
    {fails : Fault → Recorded EncryptedPass → ρ → World → Prop} :
    Meets read engine.recorded.next ⟨⟨e, settings⟩, events, given⟩ l w good fails ↔
      Meets read (Step.traced (Encryptor.encryptBlock settings)) (e, events) l w
        (fun block s l w => good block.toByteArray
          ⟨⟨s.1, settings⟩, s.2, given ++ block.toByteArray⟩ l w)
        fun fault s l w => fails fault ⟨⟨s.1, settings⟩, s.2, given⟩ l w := by
  rw [Engine.meets_recorded]
  exact meets_traced_next

/-- A session and its record: it has written nothing, or the bytes of its pass for what it has
taken. -/
inductive Recording (S : Supply ρ) (settings : PassSettings) (credential : Credential)
    (readStart : Nat) : Given (Recorded EncryptedPass) ρ
  | fresh {l : ρ} {w : World} : (Encryptor.start credential readStart).Fresh S l w →
    Recording S settings credential readStart 0
      { session := ⟨.start credential readStart, settings⟩ } l w .empty
  | made {e : Encryptor} {events : List Event} {given taken : ByteArray} {keys : PassKeys}
      {tag : Bytes 32} {last : Bool} {l : ρ} {w : World} :
    Encryptor.Behind S keys tag taken last e l w →
    Wrote settings credential readStart events given taken keys tag e.readTarget last →
    Recording S settings credential readStart 0 ⟨⟨e, settings⟩, events, given⟩ l w given

/-- **Each block goes on with the pass.** -/
theorem keeps_recording (hs : Supplies read S bad) (hinput : InputOnly S) (bound : Nat) :
    engine.recorded.Keeps read bound (Recording S settings credential readStart)
      fun _ => True where
  next k r l w given h hfinished := by
    have hstage : r.session.encryptor.stage ≠ .finished := of_decide_eq_false hfinished
    cases h with
    | fresh he =>
      rw [meets_recorded_next, Encryptor.meets_traced_encryptBlock_of_initialized he.stage]
      refine (Encryptor.meets_traced_encryptHead hs hinput he).mono
        (fun block s l w hblock => ?_) fun _ _ _ _ _ => trivial
      rcases hblock with ⟨chunk, random, salt, iv, answer, keys, parts, hsplit, hparts, hsealed,
        hhappened⟩
      have hwrote := hsealed.wrote_head hsplit hparts rfl hhappened
      exact ⟨0, .made hsealed.behind hwrote, fun _ => .inr trivial⟩
    | @made e events given taken keys tag last l w hbehind hwrote =>
      cases last with
      | true => exact absurd hbehind.stage hstage
      | false =>
        rw [meets_recorded_next, Encryptor.meets_traced_encryptBlock_of_headDone hbehind.stage]
        refine (Encryptor.meets_traced_encryptFurther hs hinput hbehind).mono
          (fun block s l w hblock => ?_) fun _ _ _ _ _ => trivial
        rcases hblock with ⟨chunk, iv, parts, hparts, hsealed, hne, hhappened⟩
        have hwrote' := hsealed.wrote_further hparts hne hbehind.target.1 hhappened hwrote
        exact ⟨0, .made hsealed.behind hwrote', fun _ => .inr trivial⟩
  bounded _ _ _ _ _ _ := .inr trivial

theorem Recording.inputOnly (hinput : InputOnly S) {k : Nat} {r : Recorded EncryptedPass} {l : ρ}
    {w : World} {given : ByteArray} (h : Recording S settings credential readStart k r l w given)
    {w' : World} (hw : w'.input = w.input) :
    Recording S settings credential readStart k r l w' given := by
  cases h with
  | fresh he => exact .fresh ⟨he.stage, he.target, hinput he.reader w' hw⟩
  | @made e _ _ taken keys tag last _ _ hbehind hwrote =>
    refine .made (?_ : Encryptor.Behind S keys tag taken last e l w') hwrote
    cases last with
    | true => exact ⟨hbehind.stage, hbehind.ended, hbehind.buffer, hinput hbehind.reader w' hw⟩
    | false =>
      exact ⟨hbehind.stage, hbehind.target, hbehind.keys, hbehind.lastTag,
        hinput hbehind.reader w' hw, hbehind.buffer_ne⟩

theorem inputOnly_outlet (hinput : InputOnly S) :
    InputOnly (Outlet.Supply engine.recorded (Recording S settings credential readStart)) := by
  rintro ⟨o, l⟩ w given ended ⟨⟨⟨k, hk⟩, hend⟩, hended⟩ w' hw
  exact ⟨⟨⟨k, hk.inputOnly hinput hw⟩, hend⟩, hended⟩

end EncryptedPass

/-! ### One pass after another -/

/-- What a session has written, and its record, are those of a session on its own: one with the same
settings that reads `clear`, draws the same random bytes, and whose questions are answered in the
same way. -/
def Recorded.WritesAlone (r : Recorded EncryptedPass) (settings : PassSettings)
    (credential : Credential) (readStart : Nat) (clear : ByteArray) : Prop :=
  ∀ v : World, v.InPieces → v.bytes = clear → OnTape v.tape v.drawn (drawnBytes r.events) →
    World.Answers v.provider v.asked (questions r.events) →
    v.EncryptsPass settings credential readStart r.given

/-- What has been written to the end is written alone. -/
theorem Wrote.writesAlone {e : EncryptedPass} {events : List Event} {given taken : ByteArray}
    {keys : PassKeys} {tag : Bytes 32} {target : Nat}
    (h : Wrote settings credential readStart events given taken keys tag target true) :
    Recorded.WritesAlone ⟨e, events, given⟩ settings credential readStart taken := by
  rcases h with ⟨answer, ⟨random, hasked, hrandom⟩, hpass⟩
  intro v hp hbytes htape hanswers
  have hanswer : v.provider (v.asked ++ [settings.questionOf random]) = .ok answer := by
    have hquestions : questions (Recorded.mk e events given).events
        = [(settings.questionOf random, .ok answer)] := hasked
    rw [hquestions] at hanswers
    exact hanswers.1
  have hout := hpass v.tape v.drawn htape .empty rfl
  rw [if_pos rfl, ByteArray.append_empty, ← hbytes] at hout
  rw [← hrandom v.tape v.drawn htape] at hanswer
  have hgiven : settings.sealPass credential readStart answer v.tape v.drawn v.bytes
      = .ok given := by
    rw [hout]
    exact congrArg Except.ok ByteArray.append_empty
  exact encryptsPass_of_sealPass hp hanswer hgiven

/-- Some passes are what sessions write one after another, the first for `clear` and each of the
others for what the one before has written; `cipher` is what the last has written. -/
inductive OneByOne (credential : Credential) (readStart : Nat) :
    (clear : ByteArray) → List PassSettings → List (Recorded EncryptedPass) →
      (cipher : ByteArray) → Prop
  | done {clear : ByteArray} : OneByOne credential readStart clear [] [] clear
  | pass {clear cipher : ByteArray} {settings : PassSettings} {r : Recorded EncryptedPass}
      {later : List PassSettings} {records : List (Recorded EncryptedPass)} :
    r.WritesAlone settings credential readStart clear →
      OneByOne credential readStart r.given later records cipher →
      OneByOne credential readStart clear (settings :: later) (r :: records) cipher

theorem OneByOne.snoc {clear mid : ByteArray} {before : List PassSettings}
    {records : List (Recorded EncryptedPass)} {r : Recorded EncryptedPass}
    (h : OneByOne credential readStart clear before records mid)
    (hr : r.WritesAlone settings credential readStart mid) :
    OneByOne credential readStart clear (before ++ [settings]) (records ++ [r]) r.given := by
  induction h with
  | done => exact .pass hr .done
  | pass hfirst _ ih => exact .pass hfirst (ih hr)

/-- What a source has given at its end has been written one pass after another. -/
def GivesOneByOne (credential : Credential) (readStart : Nat) (clear : ByteArray)
    (before : List PassSettings) {n : Nat} (S : Supply (Layers (Recorded EncryptedPass) n)) :
    Prop :=
  ∀ ⦃l w given⦄, S l w given true →
    OneByOne credential readStart clear before (l.sessions n) given

/-- A recorded session puts one more pass around what its source gives. -/
theorem GivesOneByOne.outlet {clear : ByteArray} {before : List PassSettings} {n : Nat}
    {S : Supply (Layers (Recorded EncryptedPass) n)}
    (h : GivesOneByOne credential readStart clear before S) :
    GivesOneByOne credential readStart clear (before ++ [settings]) (n := n + 1)
      (Outlet.Supply EncryptedPass.engine.recorded
        (EncryptedPass.Recording S settings credential readStart)) := by
  rintro ⟨o, l⟩ w given hsrc
  rcases hsrc.finished with ⟨k, hk, hfinished⟩
  have hstage : o.engine.session.encryptor.stage = .finished := of_decide_eq_true hfinished
  show OneByOne credential readStart clear _ (l.sessions n ++ [o.engine]) given
  dsimp only at hk
  generalize o.engine = r at hk hstage
  cases hk with
  | fresh he => cases hstage
  | @made e events _ taken keys tag last _ _ hbehind hwrote =>
    cases last with
    | true => exact (h hbehind.reader).snoc hwrote.writesAlone
    | false =>
      have hgoes : Stage.headDone = .finished := hbehind.stage.symm.trans hstage
      cases hgoes

/-- **Passes pushed one around the other** are written one after another.  The induction is on the
passes that are still to be pushed. -/
theorem exists_recorded_foldl {clear : ByteArray} (bound : Nat) (passes : List PassSettings) :
    ∀ {before : List PassSettings} {depth : Nat} {l : Layers (Recorded EncryptedPass) depth}
      {w : World} {S : Supply (Layers (Recorded EncryptedPass) depth)},
      Supplies (Layers.read EncryptedPass.engine.recorded bound depth) S (fun _ => True) →
      InputOnly S → GivesOneByOne credential readStart clear before S → S l w .empty false →
      ∃ (p : Pipeline (Recorded EncryptedPass))
        (S' : Supply (Layers (Recorded EncryptedPass) p.depth)),
        passes.foldl (fun p settings =>
          p.push { session := ⟨.start credential readStart, settings⟩ }) ⟨depth, l⟩ = p ∧
        Supplies (Layers.read EncryptedPass.engine.recorded bound p.depth) S' (fun _ => True) ∧
        GivesOneByOne credential readStart clear (before ++ passes) S' ∧
        S' p.layers w .empty false := by
  induction passes with
  | nil =>
    intro before depth l w S hs _ hgives hsrc
    rw [List.append_nil]
    exact ⟨⟨depth, l⟩, S, rfl, hs, hgives, hsrc⟩
  | cons settings passes ih =>
    intro before depth l w S hs hinput hgives hsrc
    have hfresh : (Encryptor.start credential readStart).Fresh S l w :=
      ⟨rfl, clampReadStart_mem readStart, hsrc⟩
    have hs₁ : Supplies (Layers.read EncryptedPass.engine.recorded bound (depth + 1))
        (Outlet.Supply EncryptedPass.engine.recorded
          (EncryptedPass.Recording S settings credential readStart)) fun _ => True :=
      supplies_outlet (EncryptedPass.keeps_recording hs hinput bound)
    rcases ih hs₁ (EncryptedPass.inputOnly_outlet hinput) hgives.outlet
      (Outlet.supply_start (.fresh hfresh)) with ⟨p, S', hp, hs', hgives', hsrc'⟩
    rw [List.append_assoc] at hgives'
    exact ⟨p, S', hp, hs', hgives', hsrc'⟩

/-- **The passes of a stream** that was encrypted are what sessions write one after another, the
first for what the input delivers. -/
theorem exists_oneByOne {plan : Plan} {w w' : World} {cipher : ByteArray}
    (h : w.encrypt plan credential = (.ok cipher, w')) :
    ∃ passes, w.encryptRecorded plan credential = ((.ok cipher, passes), w') ∧
      OneByOne credential plan.readStart w.delivered plan.passes passes cipher := by
  rw [World.encryptRecorded_eq] at h
  have hinput : Supplies (Layers.read EncryptedPass.engine.recorded (plan.outputBound w.inputBound)
      0) (deliveredSupply w.delivered fun _ => True) fun _ => True :=
    supplies_delivered _ _
  have hgives : GivesOneByOne credential plan.readStart w.delivered [] (n := 0)
      (deliveredSupply w.delivered fun _ => True) := by
    intro l v given hsrc
    rw [← hsrc.1, if_pos rfl, ByteArray.append_empty]
    exact .done
  rcases exists_recorded_foldl (plan.outputBound w.inputBound) plan.passes hinput
    (inputOnly_deliveredSupply _ _) hgives (deliveredSupply_start fun _ _ => trivial) with
    ⟨p, S, hp, hs, hgives', hsrc⟩
  have hlimit : (∀ ⦃l v given ended⦄, S l v given ended → given.size < 0) ∨ True := .inr trivial
  have hdrain := Pipeline.run_drainFrom hs hlimit (plan.outputBound w.inputBound) hsrc
    (Nat.zero_le _)
  have hrecorded : w.encryptRecorded plan credential
      = (((w.run (Pipeline.drainFrom EncryptedPass.engine.recorded (plan.outputBound w.inputBound)
            (plan.outputBound w.inputBound) .empty p)).1.1,
          (w.run (Pipeline.drainFrom EncryptedPass.engine.recorded (plan.outputBound w.inputBound)
            (plan.outputBound w.inputBound) .empty p)).1.2.layers.sessions _),
        (w.run (Pipeline.drainFrom EncryptedPass.engine.recorded (plan.outputBound w.inputBound)
          (plan.outputBound w.inputBound) .empty p)).2) := by
    rw [← hp]
    rfl
  rw [hrecorded] at h ⊢
  generalize w.run (Pipeline.drainFrom EncryptedPass.engine.recorded (plan.outputBound w.inputBound)
    (plan.outputBound w.inputBound) .empty p) = x at hdrain h ⊢
  rcases x with ⟨⟨fault | all, q⟩, v⟩
  · cases h
  · cases h
    rcases hdrain with ⟨l, rfl, hl⟩
    exact ⟨_, rfl, hgives' hl⟩

/-- **Nesting is composition**, in both directions.  Decrypting all passes at once and one at a time
gives the same clear text, and asks the same questions in the same order.  Of a stream that was
encrypted, each pass is what a session on its own writes for the output of the pass before. -/
theorem runs_as_composition (plan : Plan) (credential : Credential) {w : World} (hp : w.InPieces) :
    (∀ clear asked, (∃ w', w.decrypt credential = (.ok clear, w') ∧ w'.asked = asked) ↔
      ∃ w', w.DecryptsInTurn credential clear w' ∧ w'.asked = asked) ∧
    ∀ (v v' : World) (cipher : ByteArray), v.encrypt plan credential = (.ok cipher, v') →
      ∃ passes, v.encryptRecorded plan credential = ((.ok cipher, passes), v') ∧
        OneByOne credential plan.readStart v.delivered plan.passes passes cipher := by
  constructor
  · intro clear asked
    exact decrypt_iff_decryptsInTurn hp
  · intro v v' cipher h
    exact exists_oneByOne h

/-- Three bytes, encrypted in two passes and decrypted again. -/
theorem runs_as_composition_threeBytes :
    ∃ (cipher : ByteArray) (items : List InputItem) (v' w' : World)
      (passes : List (Recorded EncryptedPass)),
      let plan : Plan :=
        ⟨[.aegis256, .aesGcm], Limits.iterationsDefault, 1, by decide, by decide, by decide⟩
      let v : World :=
        { input := [.data (ofList [1, 2, 3])], provider := fun _ => .ok ⟨"secret", some "usual"⟩ }
      let w : World := { input := items, provider := fun _ => .ok ⟨"secret", none⟩ }
      v.encrypt plan ⟨.zeros 32⟩ = (.ok cipher, v') ∧ w.InPieces ∧ w.bytes = cipher ∧
        w.DecryptsInTurn ⟨.zeros 32⟩ (ofList [1, 2, 3]) w' ∧
        v.encryptRecorded plan ⟨.zeros 32⟩ = ((.ok cipher, passes), v') ∧
        OneByOne ⟨.zeros 32⟩ 1 (ofList [1, 2, 3]) plan.passes passes cipher := by
  let plan : Plan :=
    ⟨[.aegis256, .aesGcm], Limits.iterationsDefault, 1, by decide, by decide, by decide⟩
  let v : World :=
    { input := [.data (ofList [1, 2, 3])], provider := fun _ => .ok ⟨"secret", some "usual"⟩ }
  have hv : v.InPieces := by decide
  have hanswers : ∀ before info, Usable (v.provider (before ++ [info])) :=
    fun _ _ => ⟨_, rfl, by decide, by decide⟩
  rcases World.exists_encrypt_eq plan ⟨.zeros 32⟩ (w := v) hv hanswers with
    ⟨cipher, v', hrun, hthrough⟩
  rcases hthrough.exists_shown with ⟨made, shown, -, -, hopens⟩
  rcases exists_pieces cipher with ⟨items, hitems, hbytes⟩
  let w : World := { input := items, provider := fun _ => .ok ⟨"secret", none⟩ }
  have hsame : SamePasswords v.provider v.asked made w.provider w.asked shown :=
    samePasswords_const ⟨"secret", some "usual"⟩ ⟨"secret", none⟩ rfl _ _ _ _
  have hopens' : OpensThrough ⟨.zeros 32⟩ w.provider w.asked w.bytes v.bytes := by
    rw [show w.bytes = cipher from hbytes]
    exact hopens _ _ (by decide) hsame
  rcases World.decrypt_of_opensThrough (w := w) hitems hopens' with ⟨u, hdecrypt⟩
  have hcomposition := runs_as_composition plan ⟨.zeros 32⟩ (w := w) hitems
  rcases (hcomposition.1 _ _).1 ⟨u, hdecrypt, rfl⟩ with ⟨w', hturn, -⟩
  rcases hcomposition.2 v v' cipher hrun with ⟨passes, hrecorded, hone⟩
  have hclear : v.bytes = ofList [1, 2, 3] := ByteArray.append_empty
  have hdelivered : v.delivered = v.bytes := hv.delivered_eq
  rw [hclear] at hturn hdelivered
  rw [hdelivered] at hone
  exact ⟨cipher, items, v', w', passes, hrun, hitems, hbytes, hturn, hrecorded, hone⟩

end SealedStream
