import SealedStream.Proofs.Calls
import SealedStream.Proofs.ChainIntegrity
import SealedStream.Proofs.Schedule

/-!
# What an encryption session holds

A session that encrypts can be called in any order, each time with other settings
(`Encryptor.Call`).  Whatever is called, and whatever fails, its stage tells what it holds
(`Encryptor.Holds`) and what it has given: nothing at its start; its keys, the tag of the last block
and clear text to come behind a block that is not the last; and nothing that is secret at the end,
or after a fault.

* `holds_after_calls`: what a session holds after any calls, that it is finished exactly when the
  last call gave the last block of the pass, and that no call finds it without keys.

The proof keeps where a session is in its input besides (`Encryptor.Stands`), one lemma for each
call.
-/

namespace SealedStream

variable {ρ α : Type} {read : Source ρ} {l : ρ} {w : World}

/-- Whether a block says that it is the last of its pass. -/
def Block.isTerminal (b : Block) : Bool :=
  readLE (b.header.extract 37 38) = Limits.flagTerminal

theorem WireBlock.isTerminal_block {b : WireBlock} (hb : b.InRange .chained) (stage : Stage) :
    (b.block stage).isTerminal = b.terminal := by
  show decide (readLE ((b.header .chained).extract 37 38) = Limits.flagTerminal) = b.terminal
  rw [(WireBlock.readLE_header hb).2, Bool.eq_iff_iff, decide_eq_true_iff]
  exact b.flags_eq_terminal_iff

namespace Encryptor

variable {e : Encryptor}

/-! ### What is known of a session -/

/-- The blocks that some calls gave. -/
def blocksOf (results : List (Except Fault Block)) : List Block :=
  results.filterMap fun
    | .ok block => some block
    | .error _ => none

/-- A session that holds nothing secret any more. -/
structure Cleared (e : Encryptor) : Prop where
  keys : e.keys = none
  lastTag : ∀ tag, e.lastTag = some tag → tag = Bytes.zeros 32

/-- **What a session holds**, by its stage, when `blocks` are the blocks that it has made. -/
def Holds (blocks : List Block) (e : Encryptor) : Prop :=
  match e.stage with
  | .initialized => e.keys = none ∧ e.lastTag = none ∧ e.reader = {}
  | .headDecoded => False
  | .headDone => e.keys.isSome ∧ e.reader.buffer ≠ .empty ∧
      ∃ block tag, blocks.getLast? = some block ∧ e.lastTag = some tag ∧ block.tag = tag.data
  | .finished | .failed => e.Cleared

/-- A fault that a session would refuse a call with if it had no keys behind its head. -/
def LacksKeys (fault : Fault) : Prop :=
  ∃ stage, fault = .stageViolation stage "encrypt blockN without keys"

/-! ### What steps leave behind -/

theorem cleared_dropKeys (e : Encryptor) : e.dropKeys.Cleared := by
  refine ⟨rfl, fun tag h => ?_⟩
  obtain ⟨_, -, hzeros⟩ := Option.map_eq_some_iff.1 h
  exact hzeros.symm

/-- A step that ends with `finishBlock` clears a session that it finishes. -/
theorem meets_finishBlock_cleared (parts : SealedParts) (terminal : Bool) :
    Meets read (finishBlock parts terminal) e l w
      (fun _ e' _ _ => e'.stage = .finished → e'.Cleared) fun _ _ _ _ => True := by
  unfold finishBlock
  simp only [meets_bind, meets_get, meets_modify, meets_pure, meets_except]
  refine ⟨fun stage hstage => ?_, fun _ _ => trivial⟩
  obtain rfl := (ite_eq_ok.1 hstage).1
  cases terminal with
  | true => exact fun _ => cleared_dropKeys _
  | false => exact fun hfinished => Stage.noConfusion hfinished

theorem meets_sealHead_cleared (settings : PassSettings) (chunk : Chunk) (salt : Bytes 16)
    (iv : ByteArray) (answer : Answer) :
    Meets read (sealHead settings chunk salt iv answer) e l w
      (fun _ e' _ _ => e'.stage = .finished → e'.Cleared) fun _ _ _ _ => True := by
  unfold sealHead
  by_cases hhint : Limits.hintMaxChars < (answer.hint.getD "").length
  · rw [if_pos hhint]
    trivial
  rw [if_neg hhint]
  simp only [meets_bind, meets_get, meets_except, meets_derive, meets_modify]
  refine ⟨fun derivation _ => ⟨fun sealedHint _ => ⟨fun parts _ => ?_, fun _ _ => trivial⟩,
    fun _ _ => trivial⟩, fun _ _ => trivial⟩
  exact meets_finishBlock_cleared parts chunk.done

theorem meets_encryptHead_cleared (settings : PassSettings) :
    Meets read (encryptHead settings) e l w
      (fun _ e' _ _ => e'.stage = .finished → e'.Cleared) fun _ _ _ _ => True := by
  rw [encryptHead_eq]
  refine (meets_settle _).2 ?_
  unfold answerHead
  simp only [meets_bind]
  refine (Meets.trivial _).mono (fun _ _ _ _ _ => ?_) fun _ _ _ _ h => h
  refine (Meets.trivial _).mono (fun chunk _ _ _ _ => ?_) fun _ _ _ _ h => h
  simp only [meets_draw, meets_password, meets_except]
  exact ⟨fun answer _ => meets_sealHead_cleared _ _ _ _ _, fun _ _ => trivial⟩

theorem meets_encryptFurther_cleared (settings : PassSettings) :
    Meets read (encryptFurther settings) e l w
      (fun _ e' _ _ => e'.stage = .finished → e'.Cleared) fun _ _ _ _ => True := by
  unfold encryptFurther
  refine (meets_settle _).2 ?_
  simp only [meets_bind]
  refine (Meets.trivial _).mono (fun _ _ _ _ _ => ?_) fun _ _ _ _ h => h
  refine (Meets.trivial _).mono (fun chunk _ _ _ _ => ?_) fun _ _ _ _ h => h
  simp only [meets_draw, meets_get]
  split
  · simp only [meets_bind, meets_except]
    exact ⟨fun parts _ => meets_finishBlock_cleared parts chunk.done, fun _ _ => trivial⟩
  · trivial

/-! ### Faults of the head -/

section refused

variable {Src : Supply ρ} {Src' : PassInfo → Supply ρ} {bad : Fault → Prop}

/-- **A chunk is sealed in the head**, or the answer is refused for what is wrong with it. -/
theorem meets_sealHead_refused (hstable : Stable Src) {settings : PassSettings} {chunk : Chunk}
    (hc : Chunked Src .empty chunk e l w) (he : e.stage = .initialized) {salt : Bytes 16}
    {iv : ByteArray} (hiv : iv.size = settings.algorithm.ivBytes) (answer : Answer) :
    Meets read (sealHead settings chunk salt iv answer) e l w (fun _ _ _ _ => True)
      fun fault _ _ _ => refusal (.ok answer) = some fault := by
  cases hrefusal : refusal (.ok answer) with
  | none =>
    have husable : Usable (.ok answer) := refusal_eq_none_iff.1 hrefusal
    exact (meets_sealHead hstable hc he hiv answer).mono (fun _ _ _ _ _ => trivial)
      fun _ _ _ _ h => absurd husable h
  | some fault =>
    unfold Meets
    rw [sealHead_of_refused hrefusal]
    rfl

/-- **The head** is encrypted, or fails because a read does, or because the answer is refused. -/
theorem meets_encryptHead_refused {R : PassInfo → Except Fault Answer → Prop}
    (hs : Supplies read Src bad) (hstable : Stable Src) (hask : Asks Src Src' R)
    (hstable' : ∀ info, Stable (Src' info)) (settings : PassSettings) (he : e.Fresh Src l w) :
    Meets read (encryptHead settings) e l w (fun _ _ _ _ => True)
      fun fault _ _ _ => bad fault ∨ ∃ info reply, R info reply ∧ refusal reply = some fault := by
  have hreader : Src l w (.empty ++ e.reader.buffer) e.reader.ended := by
    rw [ByteArray.empty_append]
    exact he.reader
  rw [encryptHead_eq, meets_settle, meets_bind, meets_require he.stage, meets_bind]
  refine (meets_nextChunk hs he.target hreader).mono (fun chunk e' l w hc => ?_)
    fun _ _ _ _ hb => .inl hb
  obtain ⟨hc, -, -, -, reader, rfl⟩ := hc
  unfold answerHead
  simp only [meets_bind, meets_draw]
  generalize World.tapeBytes w.tape w.drawn Limits.headRandomBytes = random
  have hiv := size_splitRandom settings.algorithm random
  generalize splitRandom settings.algorithm random = x at hiv
  obtain ⟨salt, iv⟩ := x
  obtain ⟨hR, hsrc⟩ := hask (settings.question salt iv) hc.given_or_ended
    (hstable (w.alike_draw Limits.headRandomBytes) hc.reader)
  rw [meets_password, meets_except]
  refine ⟨fun answer hanswer => ?_, fun fault hfault => .inr ⟨_, _, hR, ?_⟩⟩
  · refine (meets_sealHead_refused (hstable' _)
      ⟨hc.target, hsrc, hc.size_le, hc.last, hc.goesOn⟩ he.stage hiv answer).mono
      (fun _ _ _ _ _ => trivial) fun fault _ _ _ hrefusal => .inr ⟨_, _, hR, ?_⟩
    exact (congrArg refusal hanswer).trans hrefusal
  · exact congrArg refusal hfault

end refused

/-! ### Where a session stands -/

section stands

open Decryptor (askedSupply)

variable {all : ByteArray} {bad : Fault → Prop} {provider : List PassInfo → Except Fault Answer}
  {asked : List PassInfo} {results : List (Except Fault Block)}

theorem blocksOf_concat (results : List (Except Fault Block)) (result : Except Fault Block) :
    blocksOf (results ++ [result]) = blocksOf results ++ blocksOf [result] :=
  List.filterMap_append

/-- How many of the blocks that some calls gave say that they are the last. -/
def terminals (results : List (Except Fault Block)) : Nat :=
  (blocksOf results).countP Block.isTerminal

theorem terminals_concat_ok (results : List (Except Fault Block)) (block : Block) :
    terminals (results ++ [.ok block])
      = terminals results + if block.isTerminal then 1 else 0 := by
  rw [terminals, blocksOf_concat, List.countP_append]
  exact congrArg _ List.countP_singleton

theorem terminals_concat_error (results : List (Except Fault Block)) (fault : Fault) :
    terminals (results ++ [.error fault]) = terminals results := by
  rw [terminals, blocksOf_concat, show blocksOf [.error fault] = [] from rfl, List.append_nil]
  rfl

/-- Where a session stands after some calls that gave `results`: at the start of its pass, behind a
block that is not the last, at its end, or behind a fault. -/
inductive Stands (all : ByteArray) (bad : Fault → Prop)
    (provider : List PassInfo → Except Fault Answer) (asked : List PassInfo) (e : Encryptor)
    (w : World) (results : List (Except Fault Block)) : Prop
  | fresh : e.Fresh (askedSupply all bad asked provider) () w → e.keys = none → e.lastTag = none →
      e.reader = {} → results = [] → Stands all bad provider asked e w results
  | between {made : List PassInfo} {keys : PassKeys} {taken : ByteArray} {b : WireBlock}
      {stage : Stage} :
      e.Between (askedSupply all bad made provider) keys b.tag taken () w →
      results.getLast? = some (.ok (b.block stage)) → (b.block stage).isTerminal = false →
      terminals results = 0 → Stands all bad provider asked e w results
  | finished {block : Block} : e.stage = .finished → e.Cleared →
      results.getLast? = some (.ok block) → block.isTerminal = true → terminals results = 1 →
      Stands all bad provider asked e w results
  | failed {fault : Fault} : e.stage = .failed → e.Cleared →
      results.getLast? = some (.error fault) → terminals results ≤ 1 →
      Stands all bad provider asked e w results

/-- A fault that a session may return: it says that there are no keys only if it comes from
outside. -/
def Excused (bad : Fault → Prop) (provider : List PassInfo → Except Fault Answer)
    (asked : List PassInfo) (fault : Fault) : Prop :=
  LacksKeys fault → bad fault ∨ ∃ info, provider (asked ++ [info]) = .error fault

theorem excused_of_refusal {info : PassInfo} {reply : Except Fault Answer} {fault : Fault}
    (hreply : reply = provider (asked ++ [info])) (h : refusal reply = some fault) :
    Excused bad provider asked fault := by
  rintro ⟨stage, rfl⟩
  cases hanswer : reply with
  | error fault =>
    rw [hanswer] at h
    cases h
    exact .inr ⟨info, hreply.symm.trans hanswer⟩
  | ok answer =>
    -- What an answer is refused for is not the stage of the session.
    rw [hanswer, refusal] at h
    split at h
    · cases h
    · split at h
      · cases h
      · cases h

/-- A session behind a block that has just been made. -/
theorem stands_of_advanced {made : List PassInfo} {keys : PassKeys} {taken : ByteArray}
    {b : WireBlock} {stage : Stage} {w : World} (hb : b.InRange .chained)
    (h : Advanced (askedSupply all bad made provider) keys taken b e () w)
    (hcleared : e.stage = .finished → e.Cleared) (hresults : terminals results = 0) :
    Stands all bad provider asked e w (results ++ [.ok (b.block stage)]) := by
  have hlast : (results ++ [Except.ok (b.block stage)]).getLast? = some (.ok (b.block stage)) :=
    List.getLast?_concat
  have hterminal := WireBlock.isTerminal_block hb stage
  have hcount := terminals_concat_ok results (b.block stage)
  rw [hresults, hterminal] at hcount
  rw [Advanced] at h
  cases ht : b.terminal with
  | true =>
    rw [ht] at h hterminal hcount
    exact .finished h.stage (hcleared h.stage) hlast hterminal hcount
  | false =>
    rw [ht] at h hterminal hcount
    exact .between h hlast hterminal hcount

theorem Stands.terminals_le {w : World} (h : Stands all bad provider asked e w results) :
    terminals results ≤ 1 := by
  cases h with
  | fresh _ _ _ _ hresults =>
    subst hresults
    exact Nat.zero_le 1
  | between _ _ _ hcount => omega
  | finished _ _ _ _ hcount => omega
  | failed _ _ _ hcount => exact hcount

/-- A step that fails ends the session. -/
theorem meets_settle_stands {w w' : World} {step : Step Encryptor Block} {e' : Encryptor}
    (hstands : Stands all bad provider asked e w results)
    (h : Meets Source.host (settle step) e' () w'
      (fun block e' _ w' => Stands all bad provider asked e' w' (results ++ [.ok block]))
      fun fault _ _ _ => Excused bad provider asked fault) :
    Meets Source.host (settle step) e' () w'
      (fun block e' _ w' => Stands all bad provider asked e' w' (results ++ [.ok block]))
      fun fault e' _ w' => Stands all bad provider asked e' w' (results ++ [.error fault]) ∧
        Excused bad provider asked fault := by
  refine (h.and (failed_of_settle step)).mono (fun _ _ _ _ h => h.1) fun fault e' _ w' h => ?_
  obtain ⟨hexcused, hstage, hkeys, htag⟩ := h
  refine ⟨.failed hstage ⟨hkeys, htag⟩ List.getLast?_concat ?_, hexcused⟩
  rw [terminals_concat_error]
  exact hstands.terminals_le

/-- A step that is refused for the stage of the session. -/
theorem meets_settle_require_of_ne {expected : Stage} {operation : String} {w : World}
    {next : Unit → Step Encryptor Block} {good : Block → Encryptor → Unit → World → Prop}
    (h : e.stage ≠ expected) (hoperation : operation ∈ ["encrypt block0", "encrypt blockN"]) :
    Meets Source.host (settle (require expected operation >>= next)) e () w good
      fun fault _ _ _ => Excused bad provider asked fault := by
  unfold Meets
  rw [settle_require_of_ne h]
  rintro ⟨stage, heq⟩
  cases heq
  simp at hoperation

/-- **The head** is made by a session at its start, and refused by any other. -/
theorem meets_encryptHead_of_stands {w : World} (settings : PassSettings)
    (hstands : Stands all bad provider asked e w results) :
    Meets Source.host (encryptHead settings) e () w
      (fun block e' _ w' => Stands all bad provider asked e' w' (results ++ [.ok block]))
      fun fault e' _ w' => Stands all bad provider asked e' w' (results ++ [.error fault]) ∧
        Excused bad provider asked fault := by
  refine meets_settle_stands hstands ?_
  cases hstands with
  | fresh he hkeys htag hreader hresults =>
    have hs := (supplies_delivered all bad).unasked asked provider
    have hinput := inputOnly_deliveredSupply all bad
    have hask := hinput.asks_unasked asked provider
    have hstable := hinput.stable_unasked asked provider
    have hstable' := fun info => hinput.stable_unasked (asked ++ [info]) provider
    refine ((meets_encryptHead hs hstable hask hstable' settings he).and
      ((meets_encryptHead_cleared settings).and
        (meets_encryptHead_refused hs hstable hask hstable' settings he))).mono
      (fun block e' _ w' h => ?_) fun fault _ _ _ h => ?_
    · obtain ⟨⟨f, b, answer, chunk, -, hsealed⟩, hcleared, -⟩ := h
      obtain ⟨stage, rfl⟩ := hsealed.block
      refine stands_of_advanced hsealed.sealedHead.isHead.inRange hsealed.advanced hcleared ?_
      rw [hresults]
      rfl
    · rcases h.2.2 with hbad | ⟨info, reply, hreply, hrefusal⟩
      · exact fun _ => .inl hbad
      · exact excused_of_refusal hreply hrefusal
  | between he => exact meets_settle_require_of_ne (by rw [he.stage]; decide) (by decide)
  | finished hstage => exact meets_settle_require_of_ne (by rw [hstage]; decide) (by decide)
  | failed hstage => exact meets_settle_require_of_ne (by rw [hstage]; decide) (by decide)

/-- **A further block** is made by a session behind a block, and refused by any other. -/
theorem meets_encryptFurther_of_stands {w : World} (settings : PassSettings)
    (hstands : Stands all bad provider asked e w results) :
    Meets Source.host (encryptFurther settings) e () w
      (fun block e' _ w' => Stands all bad provider asked e' w' (results ++ [.ok block]))
      fun fault e' _ w' => Stands all bad provider asked e' w' (results ++ [.error fault]) ∧
        Excused bad provider asked fault := by
  refine meets_settle_stands hstands ?_
  cases hstands with
  | fresh he => exact meets_settle_require_of_ne (by rw [he.stage]; decide) (by decide)
  | finished hstage => exact meets_settle_require_of_ne (by rw [hstage]; decide) (by decide)
  | failed hstage => exact meets_settle_require_of_ne (by rw [hstage]; decide) (by decide)
  | @between made keys taken b stage he hlast hterminal hcount =>
    have hs := (supplies_delivered all bad).unasked made provider
    have hstable := (inputOnly_deliveredSupply all bad).stable_unasked made provider
    refine ((meets_encryptFurther hs hstable settings he).and
      (meets_encryptFurther_cleared settings)).mono (fun block e' _ w' h => ?_)
      fun fault _ _ _ h _ => .inl h.1
    obtain ⟨⟨f, c, chunk, -, hsealed⟩, hcleared⟩ := h
    obtain ⟨stage', rfl⟩ := hsealed.block
    exact stands_of_advanced hsealed.sealedFurther.isFurther.inRange hsealed.advanced hcleared
      hcount

/-- **Each call** leaves the session where it may stand. -/
theorem meets_call_of_stands {w : World} (call : Call)
    (hstands : Stands all bad provider asked e w results) :
    Meets Source.host call.step e () w
      (fun block e' _ w' => Stands all bad provider asked e' w' (results ++ [.ok block]))
      fun fault e' _ w' => Stands all bad provider asked e' w' (results ++ [.error fault]) ∧
        Excused bad provider asked fault := by
  cases call with
  | head settings => exact meets_encryptHead_of_stands settings hstands
  | further settings => exact meets_encryptFurther_of_stands settings hstands
  | block settings =>
    show Meets Source.host (encryptBlock settings) e () w _ _
    unfold encryptBlock
    rw [meets_bind, meets_get]
    split
    · exact meets_encryptHead_of_stands settings hstands
    · exact meets_encryptFurther_of_stands settings hstands

/-- **Every call keeps** where the session may stand, and that the faults so far are excused. -/
theorem keeps_call {w : World} (call : Call)
    (h : Stands all bad provider asked e w results ∧
      ∀ fault, .error fault ∈ results → Excused bad provider asked fault) :
    Meets Source.host (session.step call) e () w
      (fun block e' _ w' => Stands all bad provider asked e' w' (results ++ [.ok block]) ∧
        ∀ fault, .error fault ∈ results ++ [.ok block] → Excused bad provider asked fault)
      fun fault e' _ w' => Stands all bad provider asked e' w' (results ++ [.error fault]) ∧
        ∀ fault', .error fault' ∈ results ++ [.error fault] →
          Excused bad provider asked fault' := by
  obtain ⟨hstands, hexcused⟩ := h
  refine (meets_call_of_stands call hstands).mono (fun block e' _ w' h => ⟨h, ?_⟩)
    fun fault e' _ w' h => ⟨h.1, ?_⟩
  · intro fault hfault
    rcases List.mem_append.1 hfault with hbefore | hnow
    · exact hexcused fault hbefore
    · cases List.mem_singleton.1 hnow
  · intro fault' hfault
    rcases List.mem_append.1 hfault with hbefore | hnow
    · exact hexcused fault' hbefore
    · cases List.mem_singleton.1 hnow
      exact h.2

/-- What a session that stands somewhere holds. -/
theorem Stands.holds {w : World} (h : Stands all bad provider asked e w results) :
    e.Holds (blocksOf results) := by
  rw [Holds]
  cases h with
  | fresh he hkeys htag hreader =>
    rw [he.stage]
    exact ⟨hkeys, htag, hreader⟩
  | @between _ keys taken b stage he hlast =>
    have hblocks : (blocksOf results).getLast? = some (b.block stage) := by
      obtain ⟨before, rfl⟩ := List.getLast?_eq_some_iff.1 hlast
      rw [blocksOf_concat]
      exact List.getLast?_concat
    rw [he.stage, he.keys]
    exact ⟨rfl, he.buffer_ne, _, b.tag, hblocks, he.lastTag, b.tag_block stage⟩
  | finished hstage hcleared =>
    rw [hstage]
    exact hcleared
  | failed hstage hcleared =>
    rw [hstage]
    exact hcleared

/-- A session is finished exactly behind the last block of its pass. -/
theorem Stands.finished_iff {w : World} (h : Stands all bad provider asked e w results) :
    e.stage = .finished ↔
      ∃ block, results.getLast? = some (.ok block) ∧ block.isTerminal = true := by
  have hnot : ∀ {stage : Stage}, e.stage = stage → stage ≠ .finished →
      ¬ (∃ block, results.getLast? = some (.ok block) ∧ block.isTerminal = true) →
      (e.stage = .finished ↔
        ∃ block, results.getLast? = some (.ok block) ∧ block.isTerminal = true) :=
    fun hstage hne hno => ⟨fun hf => absurd (hstage.symm.trans hf) hne, fun hex => absurd hex hno⟩
  cases h with
  | fresh he _ _ _ hresults =>
    subst hresults
    exact hnot he.stage (by decide) fun ⟨_, h, _⟩ => nomatch h
  | between he hlast hterminal =>
    refine hnot he.stage (by decide) ?_
    rintro ⟨block, hblock, ht⟩
    cases hlast.symm.trans hblock
    cases hterminal.symm.trans ht
  | finished hstage _ hlast hterminal =>
    exact ⟨fun _ => ⟨_, hlast, hterminal⟩, fun _ => hstage⟩
  | failed hstage _ hlast =>
    refine hnot hstage (by decide) ?_
    rintro ⟨block, hblock, -⟩
    cases hlast.symm.trans hblock

/-- A session at its start has not been called. -/
theorem Stands.eq_nil {w : World} (h : Stands all bad provider asked e w results)
    (hstage : e.stage = .initialized) : results = [] := by
  cases h with
  | fresh _ _ _ _ hresults => exact hresults
  | between he => cases he.stage.symm.trans hstage
  | finished hstage' => cases hstage'.symm.trans hstage
  | failed hstage' => cases hstage'.symm.trans hstage

end stands

/-- **What a session holds** after any calls, in any order, with any settings and whether or not
they failed, is told by its stage; at its start nothing has been requested.  It is finished exactly
when the last call gave a block that says that it is the last of its pass, of which there is at most
one.  No call is refused because there are no keys; a fault that says so was brought by the input or
an answer. -/
theorem holds_after_calls (credential : Credential) (n : Nat) (w : World) (calls : List Call) :
    let ran := w.run (session.callAll calls (start credential n))
    ran.1.2.Holds (blocksOf ran.1.1) ∧
    (ran.1.2.stage = .initialized →
      w.eventsOf (session.callAll calls (start credential n)) = []) ∧
    (ran.1.2.stage = .finished ↔
      ∃ block, ran.1.1.getLast? = some (.ok block) ∧ block.isTerminal = true) ∧
    (blocksOf ran.1.1).countP Block.isTerminal ≤ 1 ∧
    ∀ fault, .error fault ∈ ran.1.1 → LacksKeys fault → w.Brings fault := by
  let bad : Fault → Prop := fun fault => ∃ e, InputItem.failure e ∈ w.input ∧ fault = .ofIoFault e
  have hfresh : (start credential n).Fresh
      (Decryptor.askedSupply w.delivered bad w.asked w.provider) () w :=
    ⟨rfl, clampReadStart_mem n, deliveredSupply_start fun e he => ⟨e, he, rfl⟩, rfl, rfl⟩
  have hkeeps := Session.callAll_keeps (S := session) Source.host
    (fun e _ v results => Stands w.delivered bad w.provider w.asked e v results ∧
      ∀ fault, .error fault ∈ results → Excused bad w.provider w.asked fault)
    (fun call e l v results h => keeps_call call h) calls (l := ())
    ⟨.fresh hfresh rfl rfl rfl rfl, nofun⟩
  simp only [Source.run_host, List.nil_append] at hkeeps
  obtain ⟨hstands, hexcused⟩ := hkeeps
  refine ⟨hstands.holds, fun hstage => ?_, hstands.finished_iff, hstands.terminals_le,
    fun fault hfault hlacks => hexcused fault hfault hlacks⟩
  -- A call gives a result, so there was none.
  have hlength := session.length_callAll Source.host calls (start credential n) () w
  rw [Source.run_host, hstands.eq_nil hstage] at hlength
  rw [List.eq_nil_of_length_eq_zero hlength.symm]
  rfl

/-- Three bytes, of which the first call takes one and the second the others: the session holds its
keys between the two, and has given the last block of its pass behind them. -/
theorem holds_after_calls_threeBytes :
    ∃ (first second : Block) (e e' : Encryptor) (v v' : World),
      let settings : PassSettings :=
        ⟨.aesGcm, Limits.iterationsDefault, ⟨1, 1⟩, by decide, by decide⟩
      let w : World :=
        { input := [.data (ofList [1, 2, 3])], provider := fun _ => .ok ⟨"secret", none⟩ }
      w.run (session.callAll [.block settings] (start ⟨.zeros 32⟩ 1)) = (([.ok first], e), v) ∧
        e.stage = .headDone ∧ e.Holds [first] ∧ first.isTerminal = false ∧
        w.run (session.callAll [.block settings, .block settings] (start ⟨.zeros 32⟩ 1))
          = (([.ok first, .ok second], e'), v') ∧
        e'.stage = .finished ∧ e'.Holds [first, second] ∧ second.isTerminal = true := by
  let settings : PassSettings := ⟨.aesGcm, Limits.iterationsDefault, ⟨1, 1⟩, by decide, by decide⟩
  let w : World :=
    { input := [.data (ofList [1, 2, 3])], provider := fun _ => .ok ⟨"secret", none⟩ }
  obtain ⟨p, hp⟩ := exists_sealedChunks (fun _ => settings) ⟨.zeros 32⟩
    (⟨_, rfl, by decide, by decide⟩ : Usable (.ok ⟨"secret", none⟩)) w.tape w.drawn
    (by decide : ∀ chunk ∈ [ofList [1], ofList [2, 3]], chunk.size ≤ Limits.readMax) (by decide)
  have he : (start ⟨.zeros 32⟩ 1).Fresh (hostSupply w.bytes) () w :=
    ⟨rfl, clampReadStart_mem 1, ByteArray.empty_append, by decide, nofun⟩
  have hchunks : chunksOf (clampReadStart 1) w.bytes = [ofList [1], ofList [2, 3]] := by
    decide +kernel
  obtain ⟨first, e, v, hrun, -, htape, hdrawn, ⟨hnone, -⟩ | ⟨ahead, hall, hlater, hbetween⟩⟩ :=
    run_encryptBlock_of_fresh he hp.split rfl hchunks hp.sealed
  · cases hnone
  have hrow := hp.row.sealed
  rw [← htape, ← hdrawn] at hrow
  obtain ⟨parts, hparts, -⟩ := bind_eq_ok.1 hrow
  obtain ⟨second, e', v', hrun', -, -, -, ⟨-, hfinished⟩ | ⟨_, -, hnone, -⟩⟩ :=
    run_encryptBlock_of_between hbetween hall hlater hparts
  · have hone : w.run (session.callAll [.block settings] (start ⟨.zeros 32⟩ 1))
        = (([.ok first], e), v) := session.run_callAll_of_run hrun rfl
    have htwo : w.run (session.callAll [.block settings, .block settings] (start ⟨.zeros 32⟩ 1))
        = (([.ok first, .ok second], e'), v') :=
      session.run_callAll_of_run hrun (session.run_callAll_of_run hrun' rfl)
    have hbehind := holds_after_calls ⟨.zeros 32⟩ 1 w [.block settings]
    rw [hone] at hbehind
    obtain ⟨hholds, -, hmore, -⟩ := hbehind
    have hended := holds_after_calls ⟨.zeros 32⟩ 1 w [.block settings, .block settings]
    rw [htwo] at hended
    obtain ⟨hholds', -, hlast, -⟩ := hended
    refine ⟨first, second, e, e', v, v', hone, hbetween.stage, hholds, ?_, htwo, hfinished, hholds',
      ?_⟩
    · refine Bool.eq_false_iff.2 fun hterminal => ?_
      cases hbetween.stage.symm.trans (hmore.2 ⟨first, rfl, hterminal⟩)
    · obtain ⟨block, hblock, hterminal⟩ := hlast.1 hfinished
      cases hblock
      exact hterminal
  · exact absurd hnone chunksOf_ne_nil

end Encryptor

end SealedStream
