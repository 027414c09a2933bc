import Mathlib.Data.List.Nodup
import SealedStream.Proofs.Acceptance
import SealedStream.Proofs.Signature

/-!
# The chain of blocks

Suppose that nobody else can sign: every tag that a session finds right was computed by one session
that encrypted, and no two of the tags that it computed are equal.  Then decryption accepts the
blocks of that session in their order, from the first on, and no others; and it comes to its end
only at the end of them all.

* `exists_accepted_prefix`: the blocks accepted are a prefix of those that were made.

What a tag covers tells the block and its predecessor (`WireBlock.covered_inj`), so that a block
that is signed and follows the block `k` has to be the block `k + 1` (`exists_next_of_mem`).
-/

namespace SealedStream

/-! ### What a session made -/

/-- Some steps of a session that encrypts, one after another, and the blocks that they gave, each
with the clear text that the step took from the input.  Each step may have settings of its own. -/
inductive Encryptor.Runs : Encryptor → World → List (ByteArray × Block) → Encryptor → World → Prop
  | nil {e : Encryptor} {w : World} : Runs e w [] e w
  | step {e e' e'' : Encryptor} {w w' w'' : World} {settings : PassSettings} {clear : ByteArray}
      {block : Block} {blocks : List (ByteArray × Block)} :
    w.run (encryptBlock settings e) = ((.ok block, e'), w') →
      e.reader.buffer ++ w.bytes = clear ++ (e'.reader.buffer ++ w'.bytes) →
      Runs e' w' blocks e'' w'' → Runs e w ((clear, block) :: blocks) e'' w''

/-- Blocks that were made behind the block `b`, each after the one before it. -/
def MadeFurther (keys : PassKeys) : (b : WireBlock) → List (ByteArray × Block) → Prop
  | _, [] => True
  | b, (clear, block) :: rest => b.terminal = false ∧ ∃ f c stage, block = WireBlock.block c stage ∧
    SealedFurther keys b.tag clear f c ∧ MadeFurther keys c rest

/-- Blocks that were made from the start of a pass on. -/
def Made (credential : Credential) (password : String) : List (ByteArray × Block) → Prop
  | [] => True
  | (clear, block) :: rest => ∃ settings h b stage, block = WireBlock.block b stage ∧
    SealedHead settings credential password clear h b ∧
    MadeFurther (h.keys credential password) b rest

/-- What is known of any input, in a world of which the questions are known. -/
def inputSupply (all : ByteArray) (asked : List PassInfo)
    (provider : List PassInfo → Except Fault Answer) : Supply Unit := fun _ w given _ =>
  given ++ w.bytes = all ∧ w.asked = asked ∧ w.provider = provider

section input

variable (all : ByteArray) (asked : List PassInfo) (provider : List PassInfo → Except Fault Answer)

theorem supplies_input :
    Supplies Source.host (inputSupply all asked provider) fun _ => True :=
  (supplies_host_any all).and fun _ _ _ h => h

theorem stable_input : Stable (inputSupply all asked provider) := by
  intro l w w' given ended ha h
  rwa [inputSupply, World.bytes, ha.input, ha.asked, ha.provider]

theorem asks_input :
    Asks (inputSupply all asked provider) (fun info => inputSupply all (asked ++ [info]) provider)
      fun info reply => reply = provider (asked ++ [info]) := by
  intro l w given ended info _ h
  obtain ⟨hall, rfl, rfl⟩ := h
  exact ⟨rfl, hall, rfl, rfl⟩

end input

variable {credential : Credential} {keys : PassKeys} {e e' : Encryptor} {w w' : World}
  {blocks : List (ByteArray × Block)}

section made

open Encryptor

variable {all : ByteArray} {asked : List PassInfo} {provider : List PassInfo → Except Fault Answer}

/-- The clear text of a step is what was held and not read before it, and not after it. -/
theorem eq_of_inputSupply {taken chunk clear buffer buffer' : ByteArray} {asked' : List PassInfo}
    {ended ended' : Bool} (h : inputSupply all asked provider () w (taken ++ buffer) ended)
    (h' : inputSupply all asked' provider () w' (taken ++ chunk ++ buffer') ended')
    (hclear : buffer ++ w.bytes = clear ++ (buffer' ++ w'.bytes)) : chunk = clear := by
  have heq := h.1.trans h'.1.symm
  simp only [ByteArray.append_assoc] at heq
  have hrest := (append_inj heq rfl).2
  rw [hclear] at hrest
  refine (append_inj hrest ?_).1.symm
  have hsize := congrArg ByteArray.size hrest
  simp only [ByteArray.size_append] at hsize
  omega

/-- Behind a block, the steps make further blocks. -/
theorem Encryptor.Runs.madeFurther (h : e.Runs w blocks e' w') {taken : ByteArray} {b : WireBlock}
    (ha : Advanced (inputSupply all asked provider) keys taken b e () w) :
    MadeFurther keys b blocks ∧ w'.asked = asked ∧ w'.provider = provider := by
  induction h generalizing taken b with
  | nil => exact ⟨trivial, ha.holds.1.2⟩
  | step hrun hclear _ ih =>
    rw [Advanced] at ha
    split at ha
    · -- A session does not go on behind its last block.
      exact ((meets_encryptBlock_of_finished ha.stage).of_run_ok hrun).elim
    next ht =>
      obtain ⟨f, c, chunk, -, hs⟩ := ((meets_encryptBlock_of_headDone ha.stage).2
        (meets_encryptFurther (supplies_input all asked provider)
          (stable_input all asked provider) _ ha)).of_run_ok hrun
      obtain rfl := eq_of_inputSupply ha.reader hs.advanced.holds.1 hclear
      obtain ⟨stage, hblock⟩ := hs.block
      obtain ⟨hmade, hworld⟩ := ih hs.advanced
      exact ⟨⟨Bool.eq_false_iff.2 ht, f, c, stage, hblock, hs.sealedFurther, hmade⟩, hworld⟩

/-- **The blocks of a session** are those of one pass, made with the password that was answered. -/
theorem Encryptor.Runs.eq_nil_or_made {n : Nat}
    (h : (Encryptor.start credential n).Runs w blocks e' w') :
    blocks = [] ∨ ∃ answer, w'.provider w'.asked = .ok answer ∧
      Made credential answer.password blocks := by
  cases h with
  | nil => exact .inl rfl
  | step hrun hclear hruns =>
    have hsrc : inputSupply w.bytes w.asked w.provider () w .empty false :=
      ⟨ByteArray.empty_append, rfl, rfl⟩
    have hfresh : (Encryptor.start credential n).Fresh
        (inputSupply w.bytes w.asked w.provider) () w :=
      ⟨rfl, clampReadStart_mem n, hsrc⟩
    obtain ⟨h, b, answer, chunk, hanswer, hs⟩ :=
      ((meets_encryptBlock_of_initialized hfresh.stage).2 (meets_encryptHead
        (supplies_input w.bytes w.asked w.provider) (stable_input _ _ _) (asks_input _ _ _)
        (fun info => stable_input _ _ _) _ hfresh)).of_run_ok hrun
    -- Nothing is asked behind the head, so its question stays the last.
    obtain ⟨stage, hblock⟩ := hs.block
    obtain ⟨hfurther, hasked, hprovider⟩ := hruns.madeFurther hs.advanced
    have hholds := hs.advanced.holds.1
    rw [← ByteArray.empty_append (b := chunk)] at hholds
    have hstart : inputSupply w.bytes w.asked w.provider () w
        (.empty ++ (Encryptor.start credential n).reader.buffer) false := by
      rw [ByteArray.empty_append]
      exact hsrc
    obtain rfl := eq_of_inputSupply hstart hholds hclear
    refine .inr ⟨answer, ?_, _, h, b, stage, hblock, hs.sealedHead, hfurther⟩
    rw [hasked, hprovider, hanswer]

end made

/-! ### Signed blocks -/

/-- Blocks as the chained format has them. -/
def OnWire (blocks : List Block) : Prop :=
  ∀ block ∈ blocks, ∃ b stage, block = WireBlock.block b stage ∧ b.InRange .chained

theorem MadeFurther.onWire {b : WireBlock} (h : MadeFurther keys b blocks) :
    OnWire (blocks.map Prod.snd) := by
  induction blocks generalizing b with
  | nil => exact fun _ h => nomatch h
  | cons piece rest ih =>
    obtain ⟨-, f, c, stage, hblock, hc, hrest⟩ := h
    intro block hmem
    obtain rfl | hmem := List.mem_cons.1 hmem
    · exact ⟨c, stage, hblock, hc.isFurther.inRange⟩
    · exact ih hrest block hmem

theorem Made.onWire {password : String} (h : Made credential password blocks) :
    OnWire (blocks.map Prod.snd) := by
  cases blocks with
  | nil => exact fun _ h => nomatch h
  | cons piece rest =>
    obtain ⟨settings, h, b, stage, hblock, hb, hrest⟩ := h
    intro block hmem
    obtain rfl | hmem := List.mem_cons.1 hmem
    · exact ⟨b, stage, hblock, hb.isHead.inRange⟩
    · exact hrest.onWire block hmem

@[simp] theorem WireBlock.tag_block (b : WireBlock) (stage : Stage) :
    (b.block stage).tag = b.tag.data :=
  extract_append_left b.tag.size_data

theorem WireBlock.tag_ne_empty (b : WireBlock) : b.tag.data ≠ .empty := by
  intro h
  have hsize := congrArg ByteArray.size h
  rw [b.tag.size_data] at hsize
  cases hsize

theorem WireBlock.covered_block (b : WireBlock) (stage : Stage) (previous : ByteArray) :
    (b.block stage).covered previous = b.covered .chained previous := by
  show (b.header .chained).extract _ (b.header .chained).size ++ _ ++ _ ++ _ = _
  rw [b.extract_header]
  rfl

/-- A signature of blocks in a row is that of the first of them, or of one that follows another. -/
theorem exists_of_mem_chainSignatures {key : Key} {previous : ByteArray} {blocks : List Block}
    {s : Signature} (h : s ∈ chainSignatures key previous blocks) :
    (∃ block rest, blocks = block :: rest ∧ s = .block key (block.covered previous)) ∨
      ∃ (i : Nat) (hi : i + 1 < blocks.length),
        s = .block key (blocks[i + 1].covered blocks[i].tag) := by
  induction blocks generalizing previous with
  | nil => nomatch h
  | cons block rest ih =>
    obtain rfl | h := List.mem_cons.1 h
    · exact .inl ⟨block, rest, rfl, rfl⟩
    · obtain ⟨next, rest, rfl, rfl⟩ | ⟨i, hi, rfl⟩ := ih h
      · exact .inr ⟨0, Nat.succ_lt_succ (Nat.succ_pos _), rfl⟩
      · exact .inr ⟨i + 1, Nat.succ_lt_succ hi, rfl⟩

section next

variable {format : WireFormat} {b : WireBlock} {key key' : Key}

/-- **The first block.**  A block that is signed and follows no other is the first of all. -/
theorem exists_first_of_mem {blocks : List Block} (hwire : OnWire blocks) (hb : b.InRange format)
    (h : .block key (b.covered format .empty) ∈ chainSignatures key' .empty blocks) :
    ∃ block rest, blocks = block :: rest ∧ key = key' ∧
      b.covered format .empty = block.covered .empty := by
  obtain ⟨block, rest, rfl, hs⟩ | ⟨i, hi, hs⟩ := exists_of_mem_chainSignatures h
  · obtain ⟨hkey, hcovered⟩ := Signature.block.inj hs
    exact ⟨block, rest, rfl, hkey, hcovered⟩
  · -- A block that follows another covers its tag, which is not empty.
    obtain ⟨-, hcovered⟩ := Signature.block.inj hs
    obtain ⟨c, stage, hcblock, hc⟩ := hwire _ (List.getElem_mem hi)
    obtain ⟨p, stage', hpblock, -⟩ := hwire _ (List.getElem_mem (Nat.lt_of_succ_lt hi))
    rw [hcblock, hpblock, c.covered_block, p.tag_block] at hcovered
    obtain ⟨-, -, -, hprevious⟩ := WireBlock.covered_inj hb hc hcovered
    exact absurd hprevious.symm p.tag_ne_empty

/-- Where no two tags are equal, a block with the tag of another stands in its place. -/
theorem eq_length_of_tag_eq {before after : List Block} {block : Block}
    (hnodup : ((before ++ block :: after).map Block.tag).Nodup) {i : Nat}
    (hi : i < (before ++ block :: after).length)
    (htag : ((before ++ block :: after)[i]).tag = block.tag) : i = before.length := by
  have hi' : i < ((before ++ block :: after).map Block.tag).length := by
    rwa [List.length_map]
  have hlast : before.length < ((before ++ block :: after).map Block.tag).length := by
    rw [List.length_map, List.length_append]
    exact Nat.lt_add_of_pos_right (Nat.succ_pos _)
  have hget : ((before ++ block :: after).map Block.tag)[i]
      = ((before ++ block :: after).map Block.tag)[before.length] := by
    rw [List.getElem_map, List.getElem_map, htag]
    simp
  exact (List.Nodup.getElem_inj_iff hnodup).1 hget

/-- **The next block.**  If no two tags are equal, a block that is signed and follows `last` is the
one that was made after `last`. -/
theorem exists_next_of_mem {before after : List Block} {last : WireBlock} {stage : Stage}
    (hwire : OnWire (before ++ last.block stage :: after))
    (hnodup : ((before ++ last.block stage :: after).map Block.tag).Nodup) (hb : b.InRange format)
    (h : .block key (b.covered format last.tag.data)
      ∈ chainSignatures key' .empty (before ++ last.block stage :: after)) :
    ∃ block rest, after = block :: rest ∧
      b.covered format last.tag.data = block.covered last.tag.data := by
  obtain ⟨block, rest, hrow, hs⟩ | ⟨i, hi, hs⟩ := exists_of_mem_chainSignatures h
  · -- The first block of all covers no tag, but this one covers that of `last`.
    obtain ⟨-, hcovered⟩ := Signature.block.inj hs
    obtain ⟨c, stage', rfl, hc⟩ := hwire block (by rw [hrow]; exact List.mem_cons_self)
    rw [c.covered_block] at hcovered
    obtain ⟨-, -, -, hprevious⟩ := WireBlock.covered_inj hb hc hcovered
    exact absurd hprevious last.tag_ne_empty
  · obtain ⟨-, hcovered⟩ := Signature.block.inj hs
    obtain ⟨c, stage', hcblock, hc⟩ := hwire _ (List.getElem_mem hi)
    obtain ⟨p, stage'', hpblock, -⟩ := hwire _ (List.getElem_mem (Nat.lt_of_succ_lt hi))
    have htag : last.tag.data = p.tag.data := by
      rw [hcblock, c.covered_block, hpblock, p.tag_block] at hcovered
      exact (WireBlock.covered_inj hb hc hcovered).2.2.2
    -- The block before has the tag of `last`, so it stands where `last` does.
    have hindex : i = before.length :=
      eq_length_of_tag_eq hnodup (Nat.lt_of_succ_lt hi)
        (by rw [hpblock, p.tag_block, last.tag_block, htag])
    subst hindex
    cases after with
    | nil =>
      rw [List.length_append] at hi
      exact absurd hi (Nat.lt_irrefl _)
    | cons block rest =>
      have hnext : (before ++ last.block stage :: block :: rest)[before.length + 1] = block := by
        simp [List.getElem_append_right]
      refine ⟨block, rest, rfl, ?_⟩
      rw [hcovered, hnext, hpblock, p.tag_block, htag]

end next

/-! ### Blocks that are accepted -/

/-- What the tags of a pass are computed from, whose head is `b`. -/
theorem passSignatures_cons (credential : Credential) {b : WireBlock} {h : HeadData}
    (hb : b.associated = h.toByteArray) (stage : Stage) (blocks : List Block) :
    passSignatures credential (b.block stage :: blocks)
      = chainSignatures (credential.signingKey h.salt) .empty (b.block stage :: blocks) := by
  have hdecode : AssociatedData.decodeHead (b.block stage).associated
      = .ok (h.data, h.toByteArray.size) :=
    AssociatedData.decodeHead_eq_ok.2
      ⟨h, .empty, hb.trans ByteArray.append_empty.symm, rfl, rfl⟩
  rw [passSignatures, hdecode]
  rfl

/-- **The head that is accepted** is the first block that was made. -/
theorem exists_eq_first_of_mem {format : WireFormat} {password : String} {b : WireBlock}
    {h : HeadData} (hmade : Made credential password blocks) (hb : IsHead format credential h b)
    (hmem : .block (credential.signingKey h.salt) (b.covered format .empty)
      ∈ passSignatures credential (blocks.map Prod.snd)) :
    format = .chained ∧ ∃ settings clear stage todo, blocks = (clear, b.block stage) :: todo ∧
      SealedHead settings credential password clear h b ∧
      MadeFurther (h.keys credential password) b todo := by
  have hwire := hmade.onWire
  cases blocks with
  | nil => cases hmem
  | cons piece todo =>
    obtain ⟨clear, block⟩ := piece
    obtain ⟨settings, h', c, stage, rfl, hc, hfurther⟩ := hmade
    rw [List.map_cons, passSignatures_cons credential hc.isHead.associated] at hmem
    obtain ⟨_, _, hcons, -, hcovered⟩ := exists_first_of_mem hwire hb.inRange hmem
    obtain ⟨rfl, rfl⟩ := List.cons.inj hcons
    -- The bytes that both tags cover tell the payload and the flags, and these tell the block.
    rw [c.covered_block] at hcovered
    obtain ⟨rfl, hpayload, hterminal, -⟩ :=
      WireBlock.covered_inj hb.inRange hc.isHead.inRange hcovered
    obtain ⟨rfl, rfl⟩ := hb.eq hc.isHead hpayload hterminal
    exact ⟨rfl, settings, clear, stage, todo, rfl, hc, hfurther⟩

/-- **The block that is accepted** after `last` is the one that was made after it. -/
theorem exists_eq_next_of_mem {made : PassKeys} {last b : WireBlock} {f : FurtherData}
    {stage : Stage} {key : Key} {before : List Block} {todo : List (ByteArray × Block)}
    (hmade : MadeFurther made last todo)
    (hwire : OnWire (before ++ last.block stage :: todo.map Prod.snd))
    (hnodup : ((before ++ last.block stage :: todo.map Prod.snd).map Block.tag).Nodup)
    (hb : IsFurther .chained made.signing last.tag.data f b)
    (hmem : .block made.signing (b.covered .chained last.tag.data)
      ∈ chainSignatures key .empty (before ++ last.block stage :: todo.map Prod.snd)) :
    ∃ clear stage' todo', todo = (clear, b.block stage') :: todo' ∧
      SealedFurther made last.tag clear f b ∧ MadeFurther made b todo' := by
  obtain ⟨block, rest, htodo, hcovered⟩ := exists_next_of_mem hwire hnodup hb.inRange hmem
  cases todo with
  | nil => cases htodo
  | cons piece todo =>
    obtain ⟨clear, block'⟩ := piece
    obtain ⟨rfl, rfl⟩ := List.cons.inj htodo
    obtain ⟨-, f', c, stage', rfl, hc, hmade'⟩ := hmade
    rw [c.covered_block] at hcovered
    obtain ⟨-, hpayload, hterminal, -⟩ :=
      WireBlock.covered_inj hb.inRange hc.isFurther.inRange hcovered
    obtain ⟨rfl, rfl⟩ := hb.eq hc.isFurther hpayload hterminal
    exact ⟨clear, stage', todo, rfl, hc, hmade'⟩

open Decryptor

section accepted

variable {all ahead : ByteArray} {asked : List PassInfo}
  {provider : List PassInfo → Except Fault Answer} {d d' : Decryptor} {v v' : World}

theorem ChunkReader.Before.eq_ahead {r : ChunkReader}
    (h : r.Before (unaskedSupply all asked provider) all ahead () v) :
    r.buffer ++ v.bytes = ahead := by
  obtain ⟨taken, hsrc, hall⟩ := h
  have heq := hsrc.1.1.trans hall
  rw [ByteArray.append_assoc] at heq
  exact (append_inj heq rfl).2

theorem Decryptor.Fresh.ahead_eq (h : d.Fresh (unaskedSupply all asked provider) all () v) :
    d.ahead v = all := by
  obtain ⟨header, rest, hheader, -, hall, hr⟩ := h.header
  rw [Decryptor.ahead, if_pos h.stage, hheader, hr.eq_ahead, hall]
  rfl

theorem Decryptor.Between.ahead_eq {tag : Bytes 32} {flags : Nat}
    (h : d.Between (unaskedSupply all asked provider) all keys tag flags ahead () v) :
    d.ahead v = ahead := by
  rw [Decryptor.ahead, if_neg (by rw [h.stage]; decide), h.reader.eq_ahead, ByteArray.empty_append]

theorem ChunkReader.Before.ahead_eq_of_finished
    (h : d.reader.Before (unaskedSupply all asked provider) all ahead () v)
    (hd : d.stage = .finished) : d.ahead v = ahead := by
  rw [Decryptor.ahead, if_neg (by rw [hd]; decide), h.eq_ahead, ByteArray.empty_append]

/-- The bytes of some blocks, one after another. -/
def blocksBytes (blocks : List (ByteArray × Block)) : ByteArray :=
  concat (blocks.map fun x => x.2.toByteArray)

/-- The clear texts of some blocks, one after another. -/
def blocksClear (blocks : List (ByteArray × Block)) : ByteArray :=
  concat (blocks.map Prod.fst)

/-- What some steps have accepted of the blocks that were to come: the first of them.  If the keys
are those that the blocks were made with, the steps give their clear texts. -/
structure Accepted (made keys : PassKeys) (todo : List (ByteArray × Block)) (ahead : ByteArray)
    (clears : List ByteArray) (d' : Decryptor) (v' : World)
    (accepted rest : List (ByteArray × Block)) : Prop where
  split : todo = accepted ++ rest
  ahead : ahead = blocksBytes accepted ++ d'.ahead v'
  length : clears.length = accepted.length + if d'.stage = .finished then 1 else 0
  finished : d'.stage = .finished → rest = [] ∧ d'.ahead v' = .empty
  clear : keys = made → concat clears = blocksClear accepted

namespace Accepted

variable {made : PassKeys} {todo accepted rest : List (ByteArray × Block)} {clears : List ByteArray}

/-- Before the first step, nothing has been accepted. -/
theorem nil (hd : d.stage ≠ .finished) : Accepted made keys todo (d.ahead v) [] d v [] todo where
  split := rfl
  ahead := ByteArray.empty_append.symm
  length := by
    rw [if_neg hd]
    rfl
  finished h := absurd h hd
  clear _ := rfl

/-- One more block in front of those that are accepted behind it. -/
theorem cons (h : Accepted made keys todo ahead clears d' v' accepted rest) (b : WireBlock)
    (stage : Stage) {clear clear' : ByteArray} (hclear : keys = made → clear' = clear) :
    Accepted made keys ((clear, b.block stage) :: todo) (b.toByteArray .chained ++ ahead)
      (clear' :: clears) d' v' ((clear, b.block stage) :: accepted) rest where
  split := by
    rw [h.split]
    rfl
  ahead := by
    rw [h.ahead, blocksBytes, blocksBytes, List.map_cons, concat_cons, b.toByteArray_block,
      ByteArray.append_assoc]
  length := by
    rw [List.length_cons, List.length_cons, h.length]
    omega
  finished := h.finished
  clear hkeys := by
    rw [concat_cons, h.clear hkeys, hclear hkeys, blocksClear, blocksClear, List.map_cons,
      concat_cons]

end Accepted

/-- **Behind a block, the blocks that follow it are accepted**, in their order, and no others.  The
induction is on the steps; `before` and `last` are the blocks that were accepted before. -/
theorem exists_accepted_of_runs {made : PassKeys} {clears : List ByteArray}
    (hruns : d.Runs v clears d' v') (hformat : d.format = .chained) {last : WireBlock}
    {stage : Stage} {before : List Block} {todo : List (ByteArray × Block)}
    (hd : d.Between (unaskedSupply all asked provider) all keys last.tag last.flags ahead () v)
    (hsigning : keys.signing = made.signing) (hmade : MadeFurther made last todo)
    (hwire : OnWire (before ++ last.block stage :: todo.map Prod.snd))
    (hnodup : ((before ++ last.block stage :: todo.map Prod.snd).map Block.tag).Nodup)
    (hsigned : ∀ {clears d' v'}, d.Runs v clears d' v' → ∀ s, d'.Verifies v' s →
      s ∈ chainSignatures made.signing .empty (before ++ last.block stage :: todo.map Prod.snd)) :
    (∃ accepted rest, Accepted made keys todo ahead clears d' v' accepted rest) ∧
      v'.asked = asked ∧ v'.provider = provider := by
  induction hruns generalizing last stage before todo ahead with
  | nil =>
    refine ⟨⟨[], todo, ?_⟩, hd.reader.asked_eq⟩
    rw [← hd.ahead_eq]
    exact .nil (by rw [hd.stage]; decide)
  | step hrun hruns ih =>
    obtain ⟨hsame, next, hnext, hadvanced⟩ := advanced_of_run_decryptBlock hd hrun
    rw [hformat] at hnext
    cases next with
    | none =>
      -- The pass ends behind `last`, which says that it is the last: nothing was made after it.
      obtain ⟨rfl, hfinished, -, hreader⟩ := hadvanced
      obtain ⟨rfl, rfl, rfl⟩ := hruns.eq_nil hfinished
      obtain ⟨rfl, hlast⟩ := nextOf_eq_none.1 hnext
      have hterminal := last.flags_eq_terminal_iff.1 (hlast rfl)
      have htodo : todo = [] := by
        cases todo with
        | nil => rfl
        | cons piece rest =>
          rw [hmade.1] at hterminal
          cases hterminal
      subst htodo
      have hend := hreader.ahead_eq_of_finished hfinished
      refine ⟨⟨[], [], rfl, ?_, ?_, fun _ => ⟨rfl, hend⟩, fun _ => rfl⟩, hreader.asked_eq⟩
      · rw [hend]
        rfl
      · rw [hfinished]
        rfl
    | some opened =>
      -- The tag of the next block verifies, so it is one of those that were computed.
      obtain ⟨rfl, hbetween⟩ := hadvanced
      obtain ⟨b, f, rfl, hb, -, hclear, htag, hflags⟩ := (nextOf_eq_some (by decide)).1 hnext
      rw [htag, hflags] at hbetween
      have hmem := hsigned .nil _ (verifies_of_isFurther hd.stage (by rw [hformat]; decide) hd.keys
        hd.lastTag (by rw [hformat]; exact hd.ahead_eq) (by rw [hformat]; exact hb))
      rw [hformat, hsigning] at hmem
      rw [hsigning] at hb
      obtain ⟨clear, stage', todo, rfl, hc, hmade'⟩ :=
        exists_eq_next_of_mem hmade hwire hnodup hb hmem
      -- What was accepted before now ends with `last`.
      have hrow : before ++ last.block stage :: ((clear, b.block stage') :: todo).map Prod.snd
          = before ++ [last.block stage] ++ b.block stage' :: todo.map Prod.snd :=
        List.append_cons _ _ _
      rw [hrow] at hwire hnodup
      obtain ⟨⟨accepted, rest, ha⟩, hasked⟩ := ih (hsame.format.trans hformat) hbetween hmade' hwire
        hnodup fun hruns s hs => hrow ▸ hsigned (.step hrun hruns) s hs
      refine ⟨⟨(clear, b.block stage') :: accepted, rest, ha.cons b stage' fun hkeys => ?_⟩, hasked⟩
      rw [hkeys] at hclear
      exact Except.ok.inj (hclear.symm.trans hc.opens)

end accepted

/-! ### Whole runs -/

theorem message_not_mem_passSignatures {key : Key} {covered : ByteArray} {blocks : List Block} :
    .message key covered ∉ passSignatures credential blocks := by
  intro h
  unfold passSignatures at h
  split at h
  · cases h
  · split at h
    · obtain ⟨_, _, _, hs⟩ | ⟨_, _, hs⟩ := exists_of_mem_chainSignatures h <;> cases hs
    · cases h

/-- The last questions in two worlds were answered with one password. -/
def World.SamePassword (w v : World) : Prop :=
  ∀ a b, w.provider w.asked = .ok a → v.provider v.asked = .ok b → a.password = b.password

/-- **The chain cannot be forged.**  Let one session have made some blocks, with tags of which no
two are equal, and let another decrypt any bytes with the same credential.  If every tag that it
finds right is one that the first session computed, then the blocks that it accepts are those of the
first session in their order, from the first on; with the same password it gives their clear texts;
and if it comes to its end, the bytes are those of all the blocks. -/
theorem exists_accepted_prefix {n : Nat} (he : (Encryptor.start credential n).Runs w blocks e' w')
    {v v' v'' : World} {d d' : Decryptor} {clears : List ByteArray} (hv : v.InPieces)
    (hstart : v.run (Decryptor.start credential) = (.ok d, v')) (hruns : d.Runs v' clears d' v'')
    (hsigned : ∀ {clears d' v''}, d.Runs v' clears d' v'' → ∀ s, d'.Verifies v'' s →
      s ∈ passSignatures credential (blocks.map Prod.snd))
    (hnodup : (blocks.map fun x => x.2.tag).Nodup) :
    ∃ accepted rest, blocks = accepted ++ rest ∧
      v.bytes = blocksBytes accepted ++ d'.ahead v'' ∧
      clears.length = accepted.length + (if d'.stage = .finished then 1 else 0) ∧
      (d'.stage = .finished → rest = [] ∧ v.bytes = blocksBytes blocks) ∧
      (w'.SamePassword v'' → concat clears = blocksClear accepted) := by
  obtain ⟨-, rfl, hfresh⟩ := fresh_of_run_start hv hstart
  cases hruns with
  | nil =>
    refine ⟨[], blocks, rfl, ?_, ?_, fun h => ?_, fun _ => rfl⟩
    · rw [hfresh.ahead_eq]
      exact ByteArray.empty_append.symm
    · rw [hfresh.stage]
      rfl
    · rw [hfresh.stage] at h
      cases h
  | step hrun hruns =>
    obtain ⟨head, ahead, hok, hopened⟩ := headOpened_of_run_decryptBlock hfresh hrun
    by_cases hf : d.format = .message
    · -- Nobody signed a message.
      rw [hf, ← hfresh.ahead_eq] at hok
      obtain ⟨key, covered, hverifies⟩ := exists_verifies_message hfresh.stage hf hok
      exact absurd (hsigned .nil _ hverifies) message_not_mem_passSignatures
    obtain ⟨b, h, hint, hall, hb, hhint, rfl⟩ := (headOf_eq_ok hf).1 hok
    obtain ⟨answer, keys, hanswer, hdecrypt, hbetween⟩ := hopened.opened
    obtain ⟨hne, rfl, hclear⟩ := decrypt_verifiedHead_eq_ok.1 hdecrypt
    have hmem := hsigned .nil _ (verifies_of_isHead hfresh.stage hf (hfresh.ahead_eq.trans hall) hb)
    obtain rfl | ⟨answer', hanswer', hmade⟩ := he.eq_nil_or_made
    · cases hmem
    have hwire := hmade.onWire
    obtain ⟨hformat, settings, clear, stage, todo, rfl, hc, hfurther⟩ :=
      exists_eq_first_of_mem hmade hb hmem
    rw [hformat] at hall
    have hnodup' : (([] ++ b.block stage :: todo.map Prod.snd).map Block.tag).Nodup := by
      rw [List.nil_append, List.map_cons, List.map_map]
      exact hnodup
    -- The password decides what comes out, but not which blocks are accepted.
    have hsigning : (h.keys d.credential answer.password).signing
        = (h.keys d.credential answer'.password).signing := rfl
    rw [List.map_cons, passSignatures_cons d.credential hc.isHead.associated] at hsigned
    have hsigned' := fun {clears d' v'} (hruns : Decryptor.Runs _ _ clears d' v') =>
      hsigned (.step hrun hruns)
    obtain ⟨⟨accepted, rest, hbehind⟩, hasked, hprovider⟩ := exists_accepted_of_runs hruns
      (hopened.format.trans hformat) hbetween hsigning hfurther hwire hnodup' hsigned'
    have hfirst := fun (hkeys : h.keys d.credential answer.password
        = h.keys d.credential answer'.password) =>
      Except.ok.inj ((hkeys ▸ hclear).symm.trans hc.opens)
    have ha := hbehind.cons b stage hfirst
    rw [← hall] at ha
    refine ⟨_, rest, ha.split, ha.ahead, ha.length, fun hfinished => ?_, fun hsame => ha.clear ?_⟩
    · obtain ⟨hrest, hend⟩ := ha.finished hfinished
      refine ⟨hrest, ?_⟩
      rw [ha.split, hrest, List.append_nil, ← ByteArray.append_empty (b := blocksBytes _), ← hend]
      exact ha.ahead
    · have hpassword : answer.password = answer'.password := by
        refine (hsame answer' answer hanswer' ?_).symm
        rw [hasked, hprovider]
        exact hanswer.symm
      rw [hpassword]

/-- A session on an input of at most one byte, with a password, makes one block of it. -/
theorem exists_runs_of_short (credential : Credential) (settings : PassSettings)
    {items : List InputItem} (hp : Pieces items) (hsize : (itemsBytes items).size ≤ 1) :
    ∃ (h : HeadData) (b : WireBlock) (stage : Stage) (e : Encryptor) (w : World),
      (Encryptor.start credential).Runs
        { input := items, provider := fun _ => .ok ⟨"secret", none⟩ }
        [(itemsBytes items, b.block stage)] e w ∧
      SealedHead settings credential "secret" (itemsBytes items) h b := by
  let w₀ : World := { input := items, provider := fun _ => .ok ⟨"secret", none⟩ }
  have hfresh : (Encryptor.start credential).Fresh
      (unaskedSupply w₀.bytes w₀.asked w₀.provider) () w₀ :=
    ⟨rfl, clampReadStart_mem _, unaskedSupply_start hp⟩
  have hm := (Encryptor.meets_encryptBlock_of_initialized hfresh.stage).2
    (Encryptor.meets_encryptHead (supplies_unasked w₀.bytes [] w₀.provider)
      (stable_unaskedSupply _ _ _) (asks_unasked _ _ _) (fun _ => stable_unaskedSupply _ _ _)
      settings hfresh)
  obtain ⟨block, e, w, hrun, h, b, answer, chunk, hanswer, hs⟩ :=
    (hm.mono (fun _ _ _ _ h => h) (by
      rintro fault _ _ _ (h | ⟨info, reply, rfl, hnot⟩)
      · exact h
      · exact hnot ⟨_, rfl, by decide, by decide⟩)).exists_run_ok
  obtain ⟨stage, rfl⟩ := hs.block
  cases hanswer
  obtain ⟨⟨hall, -, hend⟩, -⟩ := hs.advanced.holds.1
  have hadvanced := hs.advanced
  rw [Encryptor.Advanced] at hadvanced
  split at hadvanced
  next =>
    -- The last block has taken all that there was.
    have hrest := hend hadvanced.ended
    rw [hadvanced.buffer, hrest, ByteArray.append_empty, ByteArray.append_empty] at hall
    obtain rfl : chunk = itemsBytes items := hall
    refine ⟨h, b, stage, e, w, .step hrun ?_ .nil, hs.sealedHead⟩
    rw [hadvanced.buffer, hrest, ByteArray.append_empty, ByteArray.append_empty]
    exact ByteArray.empty_append
  next hterminal =>
    -- A block that is not the last has a byte, and leaves one.
    have hchunk := hs.goesOn (Bool.eq_false_iff.2 hterminal)
    have hbuffer := hadvanced.buffer_ne
    have hsizes := congrArg ByteArray.size hall
    rw [ne_eq, ← ByteArray.size_eq_zero_iff] at hchunk hbuffer
    simp only [ByteArray.size_append] at hsizes
    have hbytes : w₀.bytes.size ≤ 1 := hsize
    omega

/-- Where no frame is ahead of a session behind its head, it finds no tag. -/
theorem Decryptor.not_verifies_of_no_frame {d : Decryptor} {v : World} {s : Signature}
    (hd : d.stage = .headDone) (hnone : ∀ frame, Frame.ofBytes d.format (d.ahead v) ≠ .ok frame) :
    ¬ d.Verifies v s := by
  intro h
  rw [Verifies, nextSignature, hd] at h
  split at h
  case h_3 => cases h
  case h_4 =>
    obtain ⟨frame, hframe, -⟩ := bind_eq_ok.1 h
    exact hnone frame hframe
  all_goals simp_all

/-- While a pass of one block and bytes behind it that hold no frame are decrypted, no tag but that
of the block is found right, and only the block is accepted. -/
theorem mem_of_verifies_single {credential : Credential} {h : HeadData} {b : WireBlock}
    (hb : IsHead .chained credential h b) {after : ByteArray} (hne : after ≠ .empty)
    (hnone : ∀ frame, Frame.ofBytes .chained after ≠ .ok frame) {stage : Stage}
    {v v' v'' : World} {d d' : Decryptor} {clears : List ByteArray} (hv : v.InPieces)
    (hbytes : v.bytes = b.toByteArray .chained ++ after)
    (hstart : v.run (Decryptor.start credential) = (.ok d, v')) (hruns : d.Runs v' clears d' v'')
    {s : Signature} (hs : d'.Verifies v'' s) : s ∈ passSignatures credential [b.block stage] := by
  obtain ⟨hformat, rfl, hfresh⟩ := fresh_of_run_start hv hstart
  rw [hbytes, b.ofHeader_toByteArray (by decide)] at hformat
  have hchained : d.format = .chained := (Except.ok.inj hformat).symm
  cases hruns with
  | nil =>
    have hahead : d.ahead v' = b.toByteArray d.format ++ after := by
      rw [hfresh.ahead_eq, hbytes, hchained]
    have hhead := verifies_of_isHead hfresh.stage (by rw [hchained]; decide) hahead
      (by rw [hchained]; exact hb)
    obtain ⟨-, rfl⟩ := Prod.mk.inj (Except.ok.inj (hs.symm.trans hhead))
    rw [passSignatures_cons _ hb.associated, hchained]
    refine List.mem_cons.2 (.inl ?_)
    rw [b.covered_block]
  | step hrun hruns =>
    obtain ⟨head, ahead, hok, hopened⟩ := headOpened_of_run_decryptBlock hfresh hrun
    rw [hchained] at hok
    obtain ⟨c, h', hint, hall, hc, -, rfl⟩ := (headOf_eq_ok (by decide)).1 hok
    obtain ⟨-, -, -, rfl⟩ :=
      Frame.toByteArray_inj (by decide) hb.inRange hc.inRange (hbytes.symm.trans hall)
    obtain ⟨answer, keys, -, -, hbetween⟩ := hopened.opened
    have hformat' := hopened.format.trans hchained
    cases hruns with
    | nil =>
      refine absurd hs (not_verifies_of_no_frame hbetween.stage ?_)
      rw [hformat', hbetween.ahead_eq]
      exact hnone
    | step hrun _ =>
      -- No step opens what is no frame.
      obtain ⟨-, next, hnext, -⟩ := advanced_of_run_decryptBlock hbetween hrun
      rw [hformat', nextOf, if_neg (mt isEmpty_iff.1 hne)] at hnext
      obtain ⟨frame, hframe, -⟩ := bind_eq_ok.1 hnext
      exact absurd hframe (hnone frame)

/-- One byte is encrypted, and delivered with a header of zeros behind it.  Its block is accepted
and gives the byte, the zeros are left, and decryption does not come to its end. -/
theorem exists_accepted_prefix_of_extended :
    ∃ (block : Block) (e : Encryptor) (w v v' : World) (d d' : Decryptor),
      (Encryptor.start ⟨.zeros 32⟩).Runs
        { input := [.data (ofList [7])], provider := fun _ => .ok ⟨"secret", none⟩ }
        [(ofList [7], block)] e w ∧
      World.run (Decryptor.start ⟨.zeros 32⟩)
        { input := [.data block.toByteArray, .data (zeros 38)]
          provider := fun _ => .ok ⟨"secret", none⟩ } = (.ok d, v) ∧
      d.Runs v [ofList [7]] d' v' ∧ d'.ahead v' = zeros 38 ∧ d'.stage ≠ .finished := by
  let settings : PassSettings := ⟨.aesGcm, Limits.iterationsDefault, ⟨1, 1⟩, by decide, by decide⟩
  obtain ⟨h, b, stage, e, w, hruns, hhead⟩ :=
    exists_runs_of_short ⟨.zeros 32⟩ settings (by decide : Pieces [.data (ofList [7])])
      (by decide)
  have hseven : itemsBytes [.data (ofList [7])] = ofList [7] := by decide
  rw [hseven] at hruns hhead
  let v₀ : World :=
    { input := [.data (b.block stage).toByteArray, .data (zeros 38)]
      provider := fun _ => .ok ⟨"secret", none⟩ }
  have hbytes : v₀.bytes = b.toByteArray .chained ++ zeros 38 := by
    show (b.block stage).toByteArray ++ (zeros 38 ++ .empty) = _
    rw [b.toByteArray_block, ByteArray.append_empty]
  have hpieces : v₀.InPieces := by
    refine pieces_cons.2 ⟨fun hempty => ?_, by decide⟩
    have hsize := congrArg ByteArray.size hempty
    rw [b.toByteArray_block, b.size_toByteArray] at hsize
    exact absurd hsize (by show ¬ 38 + _ = 0; omega)
  obtain ⟨hint, hopen⟩ := hhead.hint
  obtain ⟨d, v, d', v', hstart, hrun, hformat, -, hbetween⟩ :=
    World.exists_run_isHead (by decide) hpieces hbytes hhead.isHead hopen
      (rfl : v₀.provider _ = .ok ⟨"secret", none⟩) (by decide) hhead.opens
  have hnone : ∀ frame, Frame.ofBytes .chained (zeros 38) ≠ .ok frame := by
    intro frame hframe
    have hfault : Frame.ofBytes .chained (zeros 38) = .error (.protocolVersion 0) := by
      decide +kernel
    cases hfault.symm.trans hframe
  have hunfinished : d'.stage ≠ .finished := by
    rw [hbetween.stage]
    decide
  obtain ⟨accepted, rest, hsplit, hleft, hlength, -, -⟩ := exists_accepted_prefix hruns hpieces
    hstart (.step hrun .nil) (fun hruns s hs => mem_of_verifies_single hhead.isHead (by decide)
      hnone hpieces hbytes hstart hruns hs) (List.nodup_singleton _)
  rw [if_neg hunfinished] at hlength
  -- One block is accepted, so it is the one that was made.
  obtain ⟨piece, rfl⟩ := List.length_eq_one_iff.1 hlength.symm
  obtain ⟨rfl, -⟩ := List.cons.inj hsplit
  refine ⟨b.block stage, e, w, v, v', d, d', hruns, hstart, .step hrun .nil, ?_, hunfinished⟩
  have hone : blocksBytes [(ofList [7], b.block stage)] = b.toByteArray .chained := by
    rw [blocksBytes, List.map_singleton, concat_singleton, b.toByteArray_block]
  rw [hbytes, hone] at hleft
  exact (append_inj hleft rfl).2.symm

end SealedStream
