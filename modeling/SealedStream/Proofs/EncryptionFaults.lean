import SealedStream.Proofs.Cause
import SealedStream.Proofs.ChainIntegrity
import SealedStream.Proofs.Encryption
import SealedStream.Proofs.PassOutput

/-!
# Encryption never fails on its own

If encryption fails, then for the first cause that it met: a failed read, or an answer that it could
not use.  One direction is promptness.  For the other, suppose that no cause was met.  Then nothing
that encryption learned would be different in a calm world, where no read fails and each answer can
be used (`World.calm`), and there encryption succeeds.

* `encrypt_eq_error_iff`: when encryption fails, and with which fault.
* `Encryptor.Writes.sized`: the sizes of all blocks that a session makes, whatever it reads from.
-/

namespace SealedStream

variable {plan : Plan} {credential : Credential} {w w' : World}

/-! ### Where causes come from -/

namespace World

/-- A read leaves no failures that there have not been. -/
theorem mem_of_mem_readItems {n : Nat} {items : List InputItem} {e : IoFault}
    (h : InputItem.failure e ∈ (readItems n items).2) : InputItem.failure e ∈ items := by
  fun_cases readItems n items with
  | case1 => exact h
  | case2 => exact List.mem_cons_of_mem _ h
  | case3 bytes items hfits =>
    rw [readItems, if_pos hfits] at h
    exact List.mem_cons_of_mem _ h
  | case4 bytes items hlong =>
    rw [readItems, if_neg hlong] at h
    rcases List.mem_cons.1 h with h | h
    · cases h
    · exact List.mem_cons_of_mem _ h

/-- A read fails as the input has it. -/
theorem mem_of_readItems_eq_error {n : Nat} {items : List InputItem} {e : IoFault}
    (h : (readItems n items).1 = .error e) : InputItem.failure e ∈ items := by
  fun_cases readItems n items with
  | case1 => cases h
  | case2 =>
    cases h
    exact List.mem_cons_self
  | case3 bytes items hfits =>
    rw [readItems, if_pos hfits] at h
    cases h
  | case4 bytes items hlong =>
    rw [readItems, if_neg hlong] at h
    cases h

/-- **A read that failed** in a run fails in the input. -/
theorem mem_input_of_mem_eventsOf {α : Type} (p : Program Host α) {w : World} {n : Nat}
    {e : IoFault} (h : ⟨.read n, .error e⟩ ∈ w.eventsOf p) : InputItem.failure e ∈ w.input := by
  induction p generalizing w with
  | done a => exact absurd h List.not_mem_nil
  | ask r next ih =>
    rw [eventsOf_ask] at h
    rcases List.mem_cons.1 h with h | h
    · obtain ⟨rfl, hreply⟩ := Sigma.mk.inj h
      exact mem_of_readItems_eq_error (eq_of_heq hreply).symm
    · have hlater := ih _ h
      cases r with
      | read n => exact mem_of_mem_readItems hlater
      | draw n => exact hlater
      | password info => exact hlater
      | derive d => exact hlater

/-- **A question** in a run is answered by the provider. -/
theorem exists_provider_of_mem_questions {α : Type} (p : Program Host α) {w : World}
    {info : PassInfo} {reply : Except Fault Answer} (h : (info, reply) ∈ questions (w.eventsOf p)) :
    ∃ before, w.provider (before ++ [info]) = reply :=
  (answers_eventsOf p w).1.exists_of_mem h

/-- **A cause is brought by the world**: it is a failure in its input, or what is refused of an
answer. -/
theorem exists_of_findSome? {α : Type} (p : Program Host α) {w : World} {fault : Fault}
    (h : (w.eventsOf p).findSome? causeOf = some fault) :
    (∃ e, InputItem.failure e ∈ w.input ∧ fault = .ofIoFault e) ∨
      ∃ info reply, (info, reply) ∈ questions (w.eventsOf p) ∧ refusal reply = some fault := by
  obtain ⟨⟨r, reply⟩, hevent, hcause⟩ := List.exists_of_findSome?_eq_some h
  cases r with
  | read n =>
    rcases reply with e | bytes
    · exact .inl ⟨e, mem_input_of_mem_eventsOf p hevent, (Option.some.inj hcause).symm⟩
    · cases hcause
  | draw n => cases hcause
  | password info => exact .inr ⟨info, reply, List.mem_filterMap.2 ⟨_, hevent, rfl⟩, hcause⟩
  | derive d => cases hcause

end World

/-! ### Calm worlds -/

/-- A failure becomes the end of the input. -/
def InputItem.calm : InputItem → InputItem
  | .data bytes => .data bytes
  | .failure _ => .data .empty

/-- An answer that cannot be used becomes one that can. -/
def calmReply (reply : Except Fault Answer) : Except Fault Answer :=
  if (refusal reply).isNone then reply else .ok ⟨"calm", none⟩

namespace World

/-- The world in which nothing is a cause for failing, but everything else is as it was. -/
def calm (w : World) : World :=
  { w with
    input := w.input.map InputItem.calm
    provider := fun asked => calmReply (w.provider asked) }

theorem calm_failure (w : World) : ∀ e, InputItem.failure e ∉ w.calm.input := by
  intro e he
  rcases List.mem_map.1 he with ⟨item, -, h⟩
  cases item with
  | data bytes => cases h
  | failure e' => cases h

theorem calm_inputBound (w : World) : w.calm.inputBound = w.inputBound := by
  suffices h : ∀ items : List InputItem, itemsSize (items.map InputItem.calm) = itemsSize items by
    rw [inputBound, inputBound, ← h w.input]
    rfl
  intro items
  induction items with
  | nil => rfl
  | cons item items ih =>
    cases item with
    | data bytes => exact congrArg (bytes.size + ·) ih
    | failure e =>
      rw [List.map_cons]
      show 0 + itemsSize (items.map InputItem.calm) = itemsSize items
      rw [ih, Nat.zero_add]

theorem calm_usable (w : World) (before : List PassInfo) (info : PassInfo) :
    Usable (w.calm.provider (before ++ [info])) := by
  show Usable (calmReply _)
  generalize w.provider (before ++ [info]) = reply
  rw [calmReply]
  cases h : refusal reply with
  | none => exact refusal_eq_none_iff.1 h
  | some fault => exact ⟨_, rfl, by decide, by decide⟩

/-- A read that finds no failure finds the same in a calm input. -/
theorem readItems_calm {n : Nat} {items left : List InputItem} {bytes : ByteArray}
    (h : readItems n items = (.ok bytes, left)) :
    readItems n (items.map InputItem.calm) = (.ok bytes, left.map InputItem.calm) := by
  unfold readItems at h
  split at h
  · cases h
    rfl
  · cases h
  next b items =>
    show readItems n (.data b :: items.map InputItem.calm) = _
    rw [readItems]
    by_cases hfits : b.size ≤ n
    · rw [if_pos hfits] at h ⊢
      cases h
      rfl
    · rw [if_neg hfits] at h ⊢
      cases h
      rfl

/-- **A request that is no cause for failing** is answered in the same way in the calm world. -/
theorem answer_calm {r : HostRequest} (h : causeOf ⟨r, (answer r w).1⟩ = none) :
    answer r w.calm = ((answer r w).1, (answer r w).2.calm) := by
  cases r with
  | read n =>
    rcases hread : readItems n w.input with ⟨e | bytes, left⟩
    · have hreply : (answer (.read n) w).1 = .error e := congrArg Prod.fst hread
      rw [hreply] at h
      cases h
    · have hcalm := readItems_calm hread
      have hleft : (answer (.read n) w).2 = { w with input := left } := by
        show { w with input := (readItems n w.input).2 } = _
        rw [hread]
      have hreply : (answer (.read n) w).1 = .ok bytes := congrArg Prod.fst hread
      have hanswer : answer (.read n) w.calm = ((readItems n (w.input.map InputItem.calm)).1,
        { w.calm with input := (readItems n (w.input.map InputItem.calm)).2 }) := rfl
      rw [hreply, hleft, hanswer, hcalm]
      rfl
  | draw n => rfl
  | password info =>
    have hsame : calmReply (w.provider (w.asked ++ [info])) = w.provider (w.asked ++ [info]) := by
      have hnone : refusal (w.provider (w.asked ++ [info])) = none := h
      rw [calmReply, hnone]
      rfl
    show (calmReply (w.provider (w.asked ++ [info])), _) = _
    rw [hsame]
    rfl
  | derive d => rfl

/-- **A program that meets no cause** learns nothing else in the calm world. -/
theorem replays_calm {α : Type} (p : Program Host α) (w : World)
    (h : (w.eventsOf p).findSome? causeOf = none) : w.calm.Replays (w.eventsOf p) := by
  induction p generalizing w with
  | done a => trivial
  | ask r next ih =>
    rw [eventsOf_ask, List.findSome?_cons] at h
    cases hreply : causeOf ⟨r, (answer r w).1⟩ with
    | some fault =>
      rw [hreply] at h
      cases h
    | none =>
      rw [hreply] at h
      have hanswer := answer_calm hreply
      rw [eventsOf_ask]
      constructor
      · rw [hanswer]
      · rw [hanswer]
        exact ih _ _ h

end World

/-! ### When encryption fails -/

/-- Encryption with a plan, as a program. -/
def World.encryption (plan : Plan) (credential : Credential) (w : World) :
    Program Host (Except Fault ByteArray) :=
  (plan.pipeline credential).readAll EncryptedPass.engine (plan.outputBound w.inputBound)

theorem World.encrypt_calm (plan : Plan) (credential : Credential) (w : World) :
    w.calm.encrypt plan credential = w.calm.run (w.encryption plan credential) := by
  rw [encrypt, calm_inputBound]
  rfl

/-- Encryption that meets a cause fails for the first. -/
theorem World.encrypt_of_cause {fault : Fault}
    (h : (w.eventsOf (w.encryption plan credential)).findSome? causeOf = some fault) :
    (w.encrypt plan credential).1 = .error fault := by
  have hprompt : Program.Prompt refusal faultOf (w.encryption plan credential) :=
    Pipeline.prompt_readFrom EncryptedPass.prompt_next _ _ _ _
  exact eq_error_of_faultOf (hprompt.eq_of_findSome? h)

/-- **Encryption that meets no cause** does what it does in the calm world. -/
theorem World.encrypt_of_no_cause
    (h : (w.eventsOf (w.encryption plan credential)).findSome? causeOf = none) :
    (w.calm.encrypt plan credential).1 = (w.encrypt plan credential).1 ∧
      (w.calm.encrypt plan credential).2.asked = (w.encrypt plan credential).2.asked := by
  have hreplays := run_of_replays _ w (replays_calm _ w h)
  have hcalm := (answers_eventsOf (w.encryption plan credential) w.calm).2.2
  have hasked := (answers_eventsOf (w.encryption plan credential) w).2.2
  rw [encrypt_calm]
  refine ⟨hreplays.1, ?_⟩
  rw [hcalm, hreplays.2]
  exact hasked.symm

/-- **When encryption fails**: if and only if it meets a cause, and then for the first. -/
theorem World.encrypt_eq_error_iff {fault : Fault} :
    (∃ w', w.encrypt plan credential = (.error fault, w')) ↔
      (w.eventsOf (w.encryption plan credential)).findSome? causeOf = some fault := by
  constructor
  · rintro ⟨w', h⟩
    cases hcause : (w.eventsOf (w.encryption plan credential)).findSome? causeOf with
    | some fault' =>
      have hfails := encrypt_of_cause hcause
      rw [h] at hfails
      cases hfails
      rfl
    | none =>
      have hresult := (encrypt_of_no_cause hcause).1
      rcases exists_encrypt_of_calm plan credential w.calm_failure w.calm_usable with
        ⟨cipher, v, hrun, -⟩
      rw [hrun, h] at hresult
      cases hresult
  · intro h
    exact ⟨_, Prod.ext (encrypt_of_cause h) rfl⟩

/-- **Encryption that succeeds** could use all answers that it got. -/
theorem World.usable_of_encrypt {cipher : ByteArray}
    (h : w.encrypt plan credential = (.ok cipher, w')) {info : PassInfo}
    {reply : Except Fault Answer}
    (hasked : (info, reply) ∈ questions (w.eventsOf (w.encryption plan credential))) :
    Usable reply := by
  have hnone : (w.eventsOf (w.encryption plan credential)).findSome? causeOf = none := by
    refine Option.eq_none_iff_forall_ne_some.2 fun fault hfault => ?_
    have hfails := encrypt_of_cause hfault
    rw [h] at hfails
    cases hfails
  exact refusal_eq_none_iff.1
    (List.findSome?_eq_none_iff.1 hnone _ (mem_of_mem_questions hasked))

/-- **Encryption succeeds** if no read fails, and if it can use the answers to what it asks. -/
theorem World.exists_encrypt_of_usable (plan : Plan) (credential : Credential) {w : World}
    (hcalm : ∀ e, InputItem.failure e ∉ w.input)
    (hanswers : ∀ info reply,
      (info, reply) ∈ questions (w.eventsOf (w.encryption plan credential)) → Usable reply) :
    ∃ cipher w', w.encrypt plan credential = (.ok cipher, w') ∧
      EncryptedThrough plan credential w.provider w.asked w.delivered plan.count w'.asked
        cipher := by
  rcases hrun : w.encrypt plan credential with ⟨fault | cipher, w'⟩
  · rcases exists_of_findSome? _ (encrypt_eq_error_iff.1 ⟨w', hrun⟩) with
      ⟨e, he, -⟩ | ⟨info, reply, hasked, hrefused⟩
    · exact absurd he (hcalm e)
    · rw [refusal_eq_none_iff.2 (hanswers info reply hasked)] at hrefused
      cases hrefused
  · exact ⟨cipher, w', rfl, encryptedThrough_of_encrypt hrun⟩

/-! ### The sizes of blocks -/

namespace Encryptor

variable {ρ : Type} {read : Source ρ} {settings : PassSettings}

/-- A block of which the payload is in range, and the clear text at most one chunk. -/
structure Sized (settings : PassSettings) (block : Block) : Prop where
  payload_mem : Limits.payloadMin ≤ block.associated.size + block.text.size ∧
    block.associated.size + block.text.size ≤ Limits.payloadMax
  clear_le : block.text.size ≤ Limits.readMax + settings.algorithm.tagBytes

theorem sized_block (stage : Stage) {b : WireBlock} {algorithm : Algorithm} {key : Key}
    {iv chunk : ByteArray} (hb : b.InRange .chained)
    (hopens : algorithm.decrypt key iv b.text b.associated = .ok chunk)
    (halgorithm : algorithm = settings.algorithm) (hchunk : chunk.size ≤ Limits.readMax) :
    Sized settings (b.block stage) ∧
      (chunk ≠ .empty → settings.algorithm.tagBytes < (b.block stage).text.size) := by
  subst halgorithm
  have htext := Algorithm.size_of_decrypt hopens
  have hpayload := hb.size_mem
  rw [WireBlock.payload, ByteArray.size_append] at hpayload
  have hblock : (b.block stage).text = b.text := rfl
  refine ⟨⟨hpayload, ?_⟩, fun hne => ?_⟩
  · rw [hblock]
    omega
  · rw [ne_eq, ← ByteArray.size_eq_zero_iff] at hne
    rw [hblock]
    omega

/-- **Further blocks** have clear text. -/
theorem Writes.sized_further {keys : PassKeys} {b : WireBlock} {taken : ByteArray}
    {e e' : Encryptor} {l l' : ρ} {w w' : World} {blocks : List Block}
    (h : Writes read settings e l w blocks e' l' w')
    (he : Advanced anySupply keys taken b e l w) :
    ∀ block ∈ blocks, Sized settings block ∧ settings.algorithm.tagBytes < block.text.size := by
  induction h generalizing b taken with
  | nil =>
    intro block hblock
    cases hblock
  | @step e e₁ e₂ l l₁ l₂ w w₁ w₂ block blocks hrun _ ih =>
    rw [Advanced] at he
    split at he
    · -- A session does not go on behind its last block.
      exact ((meets_encryptBlock_of_finished he.stage).of_ok hrun).elim
    · rcases ((meets_encryptBlock_of_headDone he.stage).2 (meets_encryptFurther (supplies_any read)
        (fun _ _ _ _ _ _ _ => trivial) settings he)).of_ok hrun with
        ⟨f, c, chunk, halgorithm, hs⟩
      rcases hs.block with ⟨stage, rfl⟩
      have hblock := sized_block stage hs.sealedFurther.isFurther.inRange
        hs.sealedFurther.opens halgorithm hs.size_le
      intro block' hmem
      rcases List.mem_cons.1 hmem with rfl | hmem
      · exact ⟨hblock.1, hblock.2 hs.sealedFurther.clear_ne⟩
      · exact ih hs.advanced block' hmem

/-- **All blocks that a session makes** have sizes in range, whatever the session reads from, and
all but the first have clear text. -/
theorem Writes.sized {readStart : Nat} {e : Encryptor} {l l' : ρ} {blocks : List Block}
    (h : Writes read settings (.start credential readStart) l w blocks e l' w') :
    (∀ block ∈ blocks, Sized settings block) ∧
      ∀ block ∈ blocks.tail, settings.algorithm.tagBytes < block.text.size := by
  cases h with
  | nil =>
    constructor
    · intro block hblock
      cases hblock
    · intro block hblock
      cases hblock
  | @step _ e₁ _ _ l₁ _ _ w₁ _ block blocks hrun hlater =>
    have hfresh : (Encryptor.start credential readStart).Fresh anySupply l w :=
      ⟨rfl, clampReadStart_mem readStart, trivial⟩
    have hasks : Asks (anySupply : Supply ρ) (fun _ => anySupply) fun _ _ => True :=
      fun _ _ _ _ _ _ _ => ⟨trivial, trivial⟩
    rcases ((meets_encryptBlock_of_initialized rfl).2 (meets_encryptHead (supplies_any read)
      (fun _ _ _ _ _ _ _ => trivial) hasks (fun _ _ _ _ _ _ _ _ => trivial) settings
      hfresh)).of_ok hrun with ⟨h, b, answer, chunk, -, hs⟩
    rcases hs.block with ⟨stage, rfl⟩
    have hblock := sized_block stage hs.sealedHead.isHead.inRange hs.sealedHead.opens
      hs.sealedHead.algorithm hs.size_le
    have hfurther := hlater.sized_further hs.advanced
    constructor
    · intro block' hmem
      rcases List.mem_cons.1 hmem with rfl | hmem
      · exact hblock.1
      · exact (hfurther block' hmem).1
    · intro block' hmem
      exact (hfurther block' hmem).2

end Encryptor

/-- **Encryption never fails on its own.**  It fails if and only if a read fails or an answer cannot
be used, and then with the first such cause.  Whatever a session reads from, its blocks have room on
the wire, none has more clear text than the largest chunk, and all but the first have some. -/
theorem encrypt_fails_iff (plan : Plan) (credential : Credential) (w : World) :
    (∀ fault, (∃ w', w.encrypt plan credential = (.error fault, w')) ↔
      (w.eventsOf (w.encryption plan credential)).findSome? causeOf = some fault) ∧
    ∀ (ρ : Type) (read : Source ρ) (settings : PassSettings) (readStart : Nat) (l l' : ρ)
      (v v' : World) (blocks : List Block) (e : Encryptor),
      Encryptor.Writes read settings (.start credential readStart) l v blocks e l' v' →
        (∀ block ∈ blocks, Encryptor.Sized settings block) ∧
          ∀ block ∈ blocks.tail, settings.algorithm.tagBytes < block.text.size := by
  constructor
  · intro fault
    exact World.encrypt_eq_error_iff
  · intro ρ read settings readStart l l' v v' blocks e h
    exact h.sized

/-- A read that fails, and a session that makes a block of no input. -/
theorem encrypt_fails_iff_failedRead :
    (∃ w', World.encrypt (Plan.single .aesGcm) ⟨.zeros 32⟩
      { input := [.failure (.system .other "disk")] } = (.error (.io .other "disk"), w')) ∧
    ∃ (settings : PassSettings) (block : Block) (e : Encryptor) (v : World),
      Encryptor.Writes .host settings (.start ⟨.zeros 32⟩) ()
        { input := [], provider := fun _ => .ok ⟨"secret", none⟩ } [block] e () v ∧
      Encryptor.Sized settings block := by
  have hfails := encrypt_fails_iff (Plan.single .aesGcm) ⟨.zeros 32⟩
    { input := [.failure (.system .other "disk")] }
  constructor
  · refine (hfails.1 _).2 ?_
    decide +kernel
  · let settings : PassSettings :=
      ⟨.aesGcm, Limits.iterationsDefault, ⟨1, 1⟩, by decide, by decide⟩
    rcases exists_runs_of_short ⟨.zeros 32⟩ settings (by decide : Pieces []) (by decide) with
      ⟨h, b, stage, e, v, hruns, -⟩
    cases hruns with
    | step hrun _ hrest =>
      cases hrest with
      | nil =>
        have hwrites := Encryptor.Writes.step_host hrun .nil
        have hsized := hfails.2 _ _ _ _ _ _ _ _ _ _ hwrites
        exact ⟨_, _, _, _, hwrites, hsized.1 _ List.mem_cons_self⟩

end SealedStream
