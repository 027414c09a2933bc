import SealedStream.Proofs.Encryption
import SealedStream.Proofs.Orderly
import SealedStream.Proofs.Release

/-!
# What a decryption session holds

A session that decrypts can be called in any order: for its metadata, for its head, for a further
block, or for whichever block is next (`Decryptor.Call`).  Whatever is called, and whatever fails,
what the session holds is told by its stage (`Decryptor.Holds`): the first header until the head is
verified, the head until it is decrypted, the keys and the last tag from then on, and nothing that
is secret at the end or after a fault.

* `holds_of_calls`: what a session holds after any calls, and that no call finds it holding less
  than its stage says.

The proof keeps where a session is in its input besides (`Decryptor.Stands`), one lemma for each
call.
-/

namespace SealedStream

variable {ρ σ α : Type} {read : Source ρ}

namespace Decryptor

/-! ### Calls -/

/-- What a session can be called for. -/
inductive Call
  /-- The metadata of the pass. -/
  | info
  /-- The clear text of the head. -/
  | head
  /-- The clear text of a further block. -/
  | further
  /-- The clear text of the head or a further block, whichever is next. -/
  | block
  deriving DecidableEq, Repr

/-- What a call gives, if it does not fail: metadata or clear text. -/
abbrev Reply := PassInfo ⊕ ByteArray

/-- The step that a call takes. -/
def Call.step : Call → Step Decryptor Reply
  | info => do return .inl (← Decryptor.info)
  | head => do return .inr (← decryptHead)
  | further => do return .inr (← decryptFurther)
  | block => do return .inr (← decryptBlock)

/-- Some calls in turn, whether or not they fail, and what each of them gives. -/
def callAll : List Call → Decryptor → Program Host (List (Except Fault Reply) × Decryptor)
  | [], d => return ([], d)
  | call :: calls, d => do
    let (result, d) ← call.step d
    let (results, d) ← callAll calls d
    return (result :: results, d)

/-- The clear texts that some calls gave. -/
def clearsOf (results : List (Except Fault Reply)) : List ByteArray :=
  results.filterMap fun
    | .ok (.inr clear) => some clear
    | _ => none

/-- **What a session holds**, by its stage: `header` is the first header of its input, and `blocks`
are the blocks that it has accepted. -/
def Holds (header : ByteArray) (blocks : List WireBlock) (d : Decryptor) : Prop :=
  match d.stage with
  | .initialized => d.header = some header ∧ d.metadata = none ∧ d.head = none ∧ d.keys = none ∧
      d.lastTag = none
  | .headDecoded => d.header = none ∧ d.metadata.isSome ∧ d.head.isSome ∧ d.keys = none
  | .headDone => d.header = none ∧ d.head = none ∧ d.metadata.isSome ∧ d.keys.isSome ∧
      ∃ b, blocks.getLast? = some b ∧ d.lastTag = some b.tag ∧ d.lastFlags = b.flags
  | .finished | .failed => d.head = none ∧ d.keys = none ∧
      ∀ tag, d.lastTag = some tag → tag = Bytes.zeros 32

end Decryptor

/-- A fault that a session would refuse a call with if it held less than its stage says. -/
def Fault.IsMisfit (fault : Fault) : Prop :=
  ∃ stage operation, fault = .stageViolation stage operation ∧
    operation ∈ ["decode block0 without header", "decrypt block0 twice",
      "decrypt blockN without keys"]

/-- A fault that comes from outside a session: a read of the input fails with it, or a question is
answered with it. -/
def World.Brings (w : World) (fault : Fault) : Prop :=
  (∃ e, InputItem.failure e ∈ w.input ∧ fault = .ofIoFault e) ∨
    ∃ info, w.provider (w.asked ++ [info]) = .error fault

namespace Decryptor

variable {Src : Supply ρ} {bad : Fault → Prop} {d : Decryptor} {l : ρ} {w : World}
  {all ahead : ByteArray}

/-! ### Sessions that are over -/

/-- A session that has finished or failed. -/
structure Over (d : Decryptor) : Prop where
  stage : d.stage = .finished ∨ d.stage = .failed
  head : d.head = none
  keys : d.keys = none
  lastTag : ∀ tag, d.lastTag = some tag → tag = Bytes.zeros 32

theorem eq_zeros_of_dropKeys (d : Decryptor) (tag : Bytes 32)
    (h : d.dropKeys.lastTag = some tag) : tag = Bytes.zeros 32 := by
  obtain ⟨_, -, hzeros⟩ := Option.map_eq_some_iff.1 h
  exact hzeros.symm

/-- **A fault leaves nothing secret behind.** -/
theorem over_of_settle (step : Step Decryptor α) :
    Meets read (settle step) d l w (fun _ _ _ _ => True) fun _ d' _ _ => d'.Over := by
  unfold settle
  rw [meets_tryCatch]
  simp only [meets_bind, meets_modify, meets_throw]
  unfold Meets
  split
  · trivial
  · exact ⟨.inr rfl, rfl, rfl, fun tag h => eq_zeros_of_dropKeys _ tag h⟩

/-- A call that is refused for the stage of the session. -/
theorem meets_require_of_not_mem {expected : List Stage} {operation : String}
    {next : Unit → Step Decryptor α} (h : d.stage ∉ expected)
    {good : α → Decryptor → ρ → World → Prop}
    {fails : Fault → Decryptor → ρ → World → Prop} :
    Meets read (require expected operation >>= next) d l w good fails ↔
      fails (.stageViolation d.stage operation) d l w := by
  unfold require
  rw [meets_bind, meets_bind, meets_get, Stage.require, if_neg h]
  rfl

/-! ### Steps that change no more than they say -/

/-- The head is verified without a look at what the session holds. -/
theorem meets_verifyHead_orderly (hs : Supplies read Src bad) (ht : Total all Src) {s : Decryptor}
    {header : ByteArray} (hb : s.reader.Before Src all ahead l w) :
    Meets read (verifyHead d header) s l w
      (fun _ s' _ _ => ∃ r : ChunkReader, s' = { s with reader := r })
      fun fault _ _ _ => bad fault ∨ fault.IsVerdict := by
  unfold verifyHead
  split
  · unfold onReader ChunkReader.readToLimit ChunkReader.handOut
    obtain ⟨taken, hsrc, -⟩ := hb
    simp only [meets_bind, meets_onPart, meets_get, meets_except]
    refine (ChunkReader.meets_collect hs (Limits.payloadMax + 1) true hsrc).mono
      (fun _ r l w _ => ?_) fun _ _ _ _ h => .inl h
    split
    · exact .inr (isVerdict_sizeMismatch _ _ _)
    · exact ⟨fun head _ => ⟨_, rfl⟩,
        fun fault h => .inr (orderly_verifyMessage _ _ fault h)⟩
  · simp only [meets_bind, meets_except]
    refine ⟨fun frame _ => ?_, fun fault h => .inr (orderly_parse _ _ fault h)⟩
    refine (meets_readPayload hs ht frame.size hb).mono (fun payload s' l w hp => ?_)
      fun fault _ _ _ h => ?_
    · obtain ⟨-, -, r, rfl, -⟩ := hp
      exact ⟨fun head _ => ⟨r, rfl⟩, fun fault h => .inr (orderly_verifyHead _ _ _ _ _ fault h)⟩
    · rcases h with h | ⟨⟨-, rfl⟩, -⟩
      · exact .inl h
      · exact .inr (isVerdict_sizeMismatch _ _ _)

/-- A session that has verified its head, from one that had read no more than a header. -/
structure Verified (d d' : Decryptor) (info : PassInfo) : Prop where
  header : d'.header = none
  metadata : d'.metadata = some info
  keys : d'.keys = d.keys

theorem meets_decodeHead_orderly (hs : Supplies read Src bad) (ht : Total all Src)
    (hd : d.Fresh Src all l w) :
    Meets read decodeHead d l w (fun info d' _ _ => Verified d d' info)
      fun fault _ _ _ => bad fault ∨ fault.IsVerdict := by
  obtain ⟨header, rest, hheader, -, -, hr⟩ := hd.header
  unfold decodeHead
  simp only [meets_bind, meets_get, hd.metadata]
  rw [meets_require (by rw [hd.stage]; decide)]
  simp only [hheader, meets_bind, meets_modify, meets_pure]
  refine (meets_verifyHead_orderly (s := { d with header := none }) hs ht hr).mono
    (fun head s' l w h => ?_) fun _ _ _ _ h => h
  obtain ⟨r, rfl⟩ := h
  have hallows : d.stage.allows .headDecoded = true := by
    rw [hd.stage]
    rfl
  exact (meets_enter (by exact hallows)).2 ⟨rfl, rfl, rfl⟩

/-- A verified head is opened, or refused for what it is, or the question is answered with a
fault. -/
theorem meets_openHead_orderly (hd : ∃ head, d.head = some head) (info : PassInfo)
    (hstage : d.stage = .headDecoded) :
    Meets read (openHead info) d l w
      (fun _ d' _ _ => d'.header = d.header ∧ d'.head = none)
      fun fault _ _ _ => w.provider (w.asked ++ [info]) = .error fault ∨ fault.IsVerdict := by
  obtain ⟨head, hhead⟩ := hd
  unfold openHead
  simp only [meets_bind, meets_get, hhead, meets_modify, meets_password, meets_except,
    meets_derive, meets_pure]
  have hdecrypt := fun answer => orderly_decrypt { head with info } d.credential answer
  refine ⟨fun answer _ => ⟨fun derivation hder => ⟨fun clear _ => ?_, fun fault hf => .inr ?_⟩,
    fun fault hf => .inr ?_⟩, fun fault hf => .inl hf⟩
  · have hallows : d.stage.allows .headDone = true := by
      rw [hstage]
      rfl
    exact (meets_enter (by exact hallows)).2 ⟨rfl, rfl⟩
  · exact orderly_algorithm_decrypt _ _ _ _ _ fault hf
  · refine hdecrypt answer fault ?_
    exact bind_eq_error.2 (.inl hf)

/-- A payload is read without a change to what the session holds. -/
theorem meets_readPayload_same (size : Nat) :
    Meets read (readPayload size) d l w
      (fun _ d' _ _ => ∃ r : ChunkReader, d' = { d with reader := r })
      fun _ _ _ _ => True := by
  unfold readPayload onReader
  rw [meets_bind, meets_onPart]
  refine (Meets.trivial _).mono (fun chunk r l w _ => ?_) fun _ _ _ _ _ => trivial
  split
  · trivial
  · exact ⟨r, rfl⟩

/-- A session behind a further block, or at its end, from one behind a block. -/
structure Further (d d' : Decryptor) : Prop where
  header : d'.header = d.header
  head : d'.head = d.head
  finished : d'.stage = .finished →
    d'.keys = none ∧ ∀ tag, d'.lastTag = some tag → tag = Bytes.zeros 32

theorem further_of_headDone {d d' : Decryptor} (hheader : d'.header = d.header)
    (hhead : d'.head = d.head) (hstage : d'.stage = .headDone) : d.Further d' :=
  ⟨hheader, hhead, fun h => Stage.noConfusion (hstage.symm.trans h)⟩

theorem further_of_finish (d : Decryptor) (r : ChunkReader) :
    d.Further ({ d with reader := r, stage := .finished }).dropKeys :=
  ⟨rfl, rfl, fun _ => ⟨rfl, fun tag h => eq_zeros_of_dropKeys _ tag h⟩⟩

theorem meets_decryptFurther_shape (hstage : d.stage = .headDone) :
    Meets read decryptFurther d l w (fun _ d' _ _ => d.Further d') fun _ _ _ _ => True := by
  unfold decryptFurther
  suffices h : Meets read _ d l w (fun _ d' _ _ => d.Further d') fun _ _ _ _ => True from
    (meets_settle _).2 h
  rw [meets_bind, meets_require (by rw [hstage]; decide), meets_bind, meets_get]
  split
  · exact (meets_finish hstage).2 (further_of_finish d d.reader)
  unfold onReader
  rw [meets_bind, meets_onPart]
  refine (Meets.trivial _).mono (fun chunk r l w _ => ?_) fun _ _ _ _ _ => trivial
  split
  · split
    · trivial
    · exact (meets_finish (d := { d with reader := r }) hstage).2 (further_of_finish d r)
  split
  · trivial
  unfold decryptFrame
  simp only [meets_bind, meets_get, meets_except]
  refine ⟨fun frame _ => ?_, fun _ _ => trivial⟩
  refine (meets_readPayload_same frame.size).mono (fun payload d' l w h => ?_)
    fun _ _ _ _ _ => trivial
  obtain ⟨r, rfl⟩ := h
  split
  · trivial
  simp only [meets_bind, meets_except]
  refine ⟨fun block _ => ?_, fun _ _ => trivial⟩
  split
  · trivial
  simp only [meets_bind, meets_except, meets_modify, meets_pure]
  have hallows : d.stage.allows .headDone = true := by
    rw [hstage]
    rfl
  refine ⟨fun clear _ => ?_, fun _ _ => trivial⟩
  exact (meets_enter (by exact hallows)).2 (further_of_headDone rfl rfl rfl)

/-! ### Blocks that have been accepted -/

/-- The last block of a pass stands at the end of its blocks. -/
theorem getLast?_blocks (p : FramedPass) : p.blocks.getLast? = some p.last := by
  rcases p with ⟨head, data, further⟩
  induction further generalizing head with
  | nil => rfl
  | cons block further ih =>
    have h := ih block.1
    rw [FramedPass.blocks, List.map_cons, List.getLast?_cons_cons]
    exact h

/-- Some blocks at the front of the bytes `all` have been accepted as those of the pass `p`, with
the clear texts given: the blocks are linked, none but the last says that it is, and their texts
open.  `ahead` is what follows them. -/
structure Accepted (credential : Credential) (provider : List PassInfo → Except Fault Answer)
    (asked : List PassInfo) (all : ByteArray) (format : WireFormat) (p : FramedPass)
    (hint : Option String) (password : String) (clears : List ByteArray) (ahead : ByteArray) :
    Prop where
  begins : BeginsWith credential all format p.data p.head (furtherBytes format p.further ++ ahead)
  opensHint : p.data.openHint credential = .ok hint
  answer : ∃ answer, provider (asked ++ [p.data.info format hint]) = .ok answer ∧
    answer.password = password ∧ password ≠ ""
  linked : Linked format (p.data.keys credential password).signing p.head.tag p.further
  goesOn : ∀ c ∈ p.blocks.dropLast, c.terminal = false
  opens : ∃ first rest, clears = first :: rest ∧
    p.Opens (p.data.derivation credential password).key first rest

section accepted

variable {credential : Credential} {provider : List PassInfo → Except Fault Answer}
  {asked : List PassInfo} {format : WireFormat} {p : FramedPass} {hint : Option String}
  {password : String} {clears : List ByteArray}

/-- **Accepted blocks** pass every check of their format. -/
theorem Accepted.leads
    (h : Accepted credential provider asked all format p hint password clears ahead) :
    Leads credential provider asked all p.blocks clears := by
  obtain ⟨answer, hanswer, rfl, hne⟩ := h.answer
  obtain ⟨first, rest, rfl, hopens⟩ := h.opens
  exact .blocks h.begins h.opensHint hanswer hne hopens.head
    ⟨⟨ahead, rfl⟩, h.linked, h.goesOn, hopens.further⟩

theorem Accepted.inRange_last
    (h : Accepted credential provider asked all format p hint password clears ahead)
    (hf : format ≠ .message) : p.last.InRange format := by
  have hlast := List.mem_of_getLast? (getLast?_blocks p)
  rcases List.mem_cons.1 hlast with heq | hmem
  · rw [heq]
    exact h.begins.inRange hf
  · exact FramedPass.inRange_of_linked h.linked _ hmem

/-- **One more block** is accepted behind one that does not say that it is the last. -/
theorem Accepted.snoc {c : WireBlock} {f : FurtherData} {clear after : ByteArray}
    (h : Accepted credential provider asked all format p hint password clears
      (c.toByteArray format ++ after))
    (hc : IsFurther format (p.data.keys credential password).signing (format.previous p.last.tag)
      f c) (hlast : p.last.terminal = false)
    (hclear : OpensTo (p.data.keys credential password).cipher (c, f) clear) :
    Accepted credential provider asked all format (p.snoc c f) hint password (clears ++ [clear])
      after where
  begins := by
    have hbegins := h.begins
    rw [← ByteArray.append_assoc] at hbegins
    have hbytes : furtherBytes format (p.snoc c f).further
        = furtherBytes format p.further ++ c.toByteArray format := by
      simp [furtherBytes, FramedPass.snoc]
    rw [hbytes]
    exact hbegins
  opensHint := h.opensHint
  answer := h.answer
  linked := h.linked.snoc hc
  goesOn := by
    rw [p.blocks_snoc, List.dropLast_concat]
    -- The block that was the last is now one of those that go on.
    intro b hb
    have hsplit := List.dropLast_append_getLast? _ (Option.mem_def.2 (getLast?_blocks p))
    rw [← hsplit] at hb
    rcases List.mem_append.1 hb with hb | hb
    · exact h.goesOn b hb
    · rw [List.mem_singleton.1 hb]
      exact hlast
  opens := by
    obtain ⟨first, rest, rfl, hopens⟩ := h.opens
    have hrest : List.Forall₂ (OpensTo (p.data.derivation credential password).key)
        (p.further ++ [(c, f)]) (rest ++ [clear]) :=
      List.rel_append hopens.further (.cons hclear .nil)
    exact ⟨first, rest ++ [clear], rfl, hopens.head, hrest⟩

end accepted

/-! ### Where a session stands -/

/-- A session in a world with the questions `made`, on an input that delivers the bytes `all`. -/
abbrev askedSupply (all : ByteArray) (bad : Fault → Prop) (made : List PassInfo)
    (provider : List PassInfo → Except Fault Answer) : Supply Unit :=
  Unasked (deliveredSupply all bad) made provider

/-- Where a session stands after some calls that gave the clear texts `clears`: at the start of its
pass, at a verified head, behind a block that was accepted, or at its end. -/
inductive Stands (credential : Credential) (provider : List PassInfo → Except Fault Answer)
    (asked : List PassInfo) (all : ByteArray) (bad : Fault → Prop) (d : Decryptor) (w : World)
    (clears : List ByteArray) : Prop
  | fresh : d.Fresh (askedSupply all bad asked provider) all () w →
      WireFormat.ofHeader (all.extract 0 Limits.headerBytes) = .ok d.format →
      d.credential = credential → d.head = none → d.keys = none → d.lastTag = none →
      clears = [] → Stands credential provider asked all bad d w clears
  | decoded {head : VerifiedHead} {ahead : ByteArray} :
      d.Decoded (askedSupply all bad asked provider) all head ahead () w →
      beginOf credential all = .ok (d.format, head, ahead) → d.credential = credential →
      d.header = none → d.keys = none → clears = [] →
      Stands credential provider asked all bad d w clears
  | between {p : FramedPass} {hint : Option String} {password : String} {ahead : ByteArray} :
      d.Between (askedSupply all bad (asked ++ [p.data.info d.format hint]) provider) all
        (p.data.keys credential password) p.last.tag p.last.flags ahead () w →
      Accepted credential provider asked all d.format p hint password clears ahead →
      d.header = none → d.head = none → d.metadata.isSome →
      Stands credential provider asked all bad d w clears
  | closed : d.Over → Stands credential provider asked all bad d w clears

section stands

variable {credential : Credential} {provider : List PassInfo → Except Fault Answer}
  {asked : List PassInfo} {clears : List ByteArray} {w : World}

/-- A fault that a session may return: it says that the session holds too little only if it comes
from outside. -/
def Excused (bad : Fault → Prop) (provider : List PassInfo → Except Fault Answer)
    (asked : List PassInfo) (fault : Fault) : Prop :=
  fault.IsMisfit → bad fault ∨ ∃ info, provider (asked ++ [info]) = .error fault

theorem excused_of_isVerdict {fault : Fault} (h : bad fault ∨ fault.IsVerdict) :
    Excused bad provider asked fault := by
  rintro ⟨stage, operation, rfl, -⟩
  exact .inl (h.resolve_right id)

/-- Being called out of turn is no sign of holding too little. -/
theorem excused_of_operation {stage : Stage} {operation : String}
    (h : operation ∈ ["decode block0", "decrypt block0", "decrypt blockN"]) :
    Excused bad provider asked (.stageViolation stage operation) := by
  rintro ⟨_, operation', heq, hmem⟩
  cases heq
  simp only [List.mem_cons, List.not_mem_nil, or_false] at h hmem
  rcases h with rfl | rfl | rfl <;> simp at hmem

/-- The metadata that a session knows is given again. -/
theorem meets_decodeHead_of_known {info : PassInfo} (hmetadata : d.metadata = some info)
    (hstage : d.stage ≠ .failed) {good : PassInfo → Decryptor → ρ → World → Prop}
    {fails : Fault → Decryptor → ρ → World → Prop} :
    Meets read decodeHead d l w good fails ↔ good info d l w := by
  unfold decodeHead
  simp only [meets_bind, meets_get, hmetadata, if_pos hstage]
  exact Iff.rfl

/-- A session that is over gives the metadata that it knows, or is refused. -/
theorem meets_decodeHead_of_over (hd : d.Over) :
    Meets read decodeHead d l w (fun _ d' _ _ => d' = d)
      fun fault _ _ _ => fault = .stageViolation d.stage "decode block0" := by
  have hstage : d.stage ∉ [Stage.initialized] := by
    rcases hd.stage with h | h <;> rw [h] <;> decide
  unfold decodeHead
  rw [meets_bind, meets_get]
  cases d.metadata with
  | none => exact (meets_require_of_not_mem hstage).2 rfl
  | some info =>
    dsimp only
    split
    · rfl
    · exact (meets_require_of_not_mem hstage).2 rfl

/-- A call that is refused or fails ends the session; its fault has to be excused. -/
theorem meets_settle_excused {step : Step Decryptor α} {good : α → Decryptor → ρ → World → Prop}
    (h : Meets read step d l w good fun fault _ _ _ => Excused bad provider asked fault) :
    Meets read (settle step) d l w good
      fun fault d' _ _ => d'.Over ∧ Excused bad provider asked fault := by
  have hstep : Meets read (settle step) d l w good
      fun fault _ _ _ => Excused bad provider asked fault := (meets_settle step).2 h
  exact (hstep.and (over_of_settle step)).mono (fun _ _ _ _ h => h.1) fun _ _ _ _ h => ⟨h.2, h.1⟩

/-- **The metadata** is given by a session wherever it stands, or refused. -/
theorem meets_info_of_stands (hstands : Stands credential provider asked all bad d w clears) :
    Meets Source.host info d () w
      (fun _ d' _ w' => Stands credential provider asked all bad d' w' clears)
      fun fault d' _ _ => d'.Over ∧ Excused bad provider asked fault := by
  have hs := (supplies_delivered all bad).unasked asked provider
  have ht := (total_deliveredSupply all bad).unasked asked provider
  refine meets_settle_excused ?_
  cases hstands with
  | fresh hd hformat hcredential hhead hkeys htag hclears =>
    refine ((meets_decodeHead hs ht hd).and (meets_decodeHead_orderly hs ht hd)).mono
      (fun info d' l w h => ?_) fun fault d' l w h => excused_of_isVerdict h.2
    obtain ⟨⟨head, after, hok, -, hformat', hcredential', hd'⟩, hverified⟩ := h
    refine .decoded hd' ?_ (hcredential'.trans hcredential) hverified.header
      (hverified.keys.trans hkeys) hclears
    rw [hformat', ← hcredential]
    exact beginOf_eq_ok.2 ⟨hformat, hok⟩
  | decoded hd hbegin hcredential hheader hkeys hclears =>
    refine (meets_decodeHead_of_known hd.metadata (by rw [hd.stage]; decide)).2 ?_
    exact .decoded hd hbegin hcredential hheader hkeys hclears
  | between hd haccepted hheader hhead hmetadata =>
    obtain ⟨info, hinfo⟩ := Option.isSome_iff_exists.1 hmetadata
    refine (meets_decodeHead_of_known hinfo (by rw [hd.stage]; decide)).2 ?_
    exact .between hd haccepted hheader hhead hmetadata
  | closed hd =>
    refine (meets_decodeHead_of_over hd).mono (fun _ d' _ _ h => ?_) fun fault _ _ _ h => ?_
    · rw [h]
      exact .closed hd
    · rw [h]
      exact excused_of_operation (by decide)

/-- **A verified head** is opened and accepted, or refused. -/
theorem meets_openHead_of_decoded {head : VerifiedHead} {ahead : ByteArray}
    (hd : d.Decoded (askedSupply all bad asked provider) all head ahead () w)
    (hbegin : beginOf credential all = .ok (d.format, head, ahead))
    (hcredential : d.credential = credential) (hheader : d.header = none) :
    Meets Source.host (openHead head.info) d () w
      (fun clear d' _ w' => Stands credential provider asked all bad d' w' [clear])
      fun fault _ _ _ => Excused bad provider asked fault := by
  have hinput := inputOnly_deliveredSupply all bad
  have hopen : Meets Source.host (openHead head.info) d () w _ _ :=
    meets_openHead (hinput.asks_unasked asked provider)
      (fun info => hinput.stable_unasked (asked ++ [info]) provider) hd
  have horderly : Meets Source.host (openHead head.info) d () w
      (fun _ d' _ _ => d'.header = d.header ∧ d'.head = none)
      fun fault _ _ _ => w.provider (w.asked ++ [head.info]) = .error fault ∨ fault.IsVerdict :=
    meets_openHead_orderly ⟨head, hd.head⟩ head.info hd.stage
  refine (hopen.and horderly).mono (fun clear d' _ w' h => ?_) fun fault _ _ _ h => ?_
  · obtain ⟨hopened, hheader', hhead'⟩ := h
    obtain ⟨answer, keys, hanswer, hdecrypt, hbetween⟩ := hopened.opened
    obtain ⟨f, b, hint, hb, hhint, rfl⟩ := BeginsWith.beginOf_eq_ok_iff.1 hbegin
    rw [hcredential] at hdecrypt
    obtain ⟨hne, rfl, hfirst⟩ := decrypt_verifiedHead_eq_ok.1 hdecrypt
    rw [← hopened.format] at hb hbetween hanswer
    refine .between (p := ⟨b, f, []⟩) hbetween ⟨?_, hhint, ⟨answer, hanswer.symm, rfl, hne⟩,
      trivial, nofun, clear, [], rfl, hfirst, .nil⟩ (hheader'.trans hheader) hhead' ?_
    · exact hb
    · rw [hopened.metadata]
      rfl
  · -- The question is answered with a fault, or the answer does not open the head.
    rcases h with ⟨-, hanswer | horderly⟩
    · obtain ⟨taken, ⟨-, hasked, hprovider⟩, -⟩ := hd.reader
      rw [hasked, hprovider] at hanswer
      exact fun _ => .inr ⟨_, hanswer⟩
    · exact excused_of_isVerdict (.inr horderly)

/-- **The head** is opened by a session at its start, and refused by any other. -/
theorem meets_decryptHead_of_stands
    (hstands : Stands credential provider asked all bad d w clears) :
    Meets Source.host decryptHead d () w
      (fun clear d' _ w' => Stands credential provider asked all bad d' w' (clears ++ [clear]))
      fun fault d' _ _ => d'.Over ∧ Excused bad provider asked fault := by
  have hs := (supplies_delivered all bad).unasked asked provider
  have ht := (total_deliveredSupply all bad).unasked asked provider
  rw [decryptHead_eq]
  refine meets_settle_excused ?_
  have hrefused : d.stage ∉ [Stage.initialized, .headDecoded] →
      Meets Source.host (do
        require [.initialized, .headDecoded] "decrypt block0"
        let info ← decodeHead
        openHead info) d () w
        (fun clear d' _ w' => Stands credential provider asked all bad d' w' (clears ++ [clear]))
        fun fault _ _ _ => Excused bad provider asked fault :=
    fun h => (meets_require_of_not_mem h).2 (excused_of_operation (by decide))
  cases hstands with
  | fresh hd hformat hcredential hhead hkeys htag hclears =>
    subst hclears
    rw [meets_bind, meets_require (by rw [hd.stage]; decide), meets_bind]
    refine ((meets_decodeHead hs ht hd).and (meets_decodeHead_orderly hs ht hd)).mono
      (fun info d' l w h => ?_) fun fault d' l w h => excused_of_isVerdict h.2
    obtain ⟨⟨head, after, hok, rfl, hformat', hcredential', hd'⟩, hverified⟩ := h
    refine meets_openHead_of_decoded hd' ?_ (hcredential'.trans hcredential) hverified.header
    rw [hformat', ← hcredential]
    exact beginOf_eq_ok.2 ⟨hformat, hok⟩
  | decoded hd hbegin hcredential hheader hkeys hclears =>
    subst hclears
    rw [meets_bind, meets_require (by rw [hd.stage]; decide), meets_bind]
    refine (meets_decodeHead_of_known hd.metadata (by rw [hd.stage]; decide)).2 ?_
    exact meets_openHead_of_decoded hd hbegin hcredential hheader
  | between hd haccepted hheader hhead hmetadata => exact hrefused (by rw [hd.stage]; decide)
  | closed hd =>
    refine hrefused ?_
    rcases hd.stage with h | h <;> rw [h] <;> decide

/-- **A further block** is accepted by a session behind a block, or the end is found there; any
other session refuses. -/
theorem meets_decryptFurther_of_stands
    (hstands : Stands credential provider asked all bad d w clears) :
    Meets Source.host decryptFurther d () w
      (fun clear d' _ w' => Stands credential provider asked all bad d' w' (clears ++ [clear]))
      fun fault d' _ _ => d'.Over ∧ Excused bad provider asked fault := by
  have hover : Meets Source.host decryptFurther d () w (fun _ _ _ _ => True)
      fun _ d' _ _ => d'.Over := over_of_settle _
  have hrefused : d.stage ∉ [Stage.headDone] →
      Meets Source.host decryptFurther d () w
        (fun clear d' _ w' => Stands credential provider asked all bad d' w' (clears ++ [clear]))
        fun fault d' _ _ => d'.Over ∧ Excused bad provider asked fault :=
    fun h => meets_settle_excused
      ((meets_require_of_not_mem h).2 (excused_of_operation (by decide)))
  cases hstands with
  | fresh hd => exact hrefused (by rw [hd.stage]; decide)
  | decoded hd => exact hrefused (by rw [hd.stage]; decide)
  | closed hd =>
    refine hrefused ?_
    rcases hd.stage with h | h <;> rw [h] <;> decide
  | @between p hint password ahead hd haccepted hheader hhead hmetadata =>
    have hfurther := meets_decryptFurther
      ((supplies_delivered all bad).unasked (asked ++ [p.data.info d.format hint]) provider)
      ((total_deliveredSupply all bad).unasked _ provider) hd
    have hshape : Meets Source.host decryptFurther d () w (fun _ d' _ _ => d.Further d')
        fun _ _ _ _ => True := meets_decryptFurther_shape hd.stage
    -- What the step accepts, what else it changes and what a fault leaves are known apart.
    refine (hfurther.and (hshape.and hover)).mono (fun clear d' _ w' h => ?_)
      fun fault d' _ _ h => ?_
    · obtain ⟨⟨hpass, next, hnext, hadvanced⟩, hshape, -⟩ := h
      cases next with
      | none =>
        obtain ⟨-, hfinished, -⟩ := hadvanced
        obtain ⟨hkeys, htag⟩ := hshape.finished hfinished
        exact .closed ⟨.inl hfinished, hshape.head.trans hhead, hkeys, htag⟩
      | some opened =>
        obtain ⟨rfl, hbetween⟩ := hadvanced
        have hf := ne_message_of_nextOf (fun hm => (hd.atEnd hm).2) hnext
        obtain ⟨c, f, rfl, hc, hlast, hclear, htag, hflags⟩ := (nextOf_eq_some hf).1 hnext
        have hgoes := (haccepted.inRange_last hf).may_go_on_iff.1 hlast
        rw [htag, hflags, ← p.last_snoc c f, ← hpass.format] at hbetween
        rw [← hpass.format] at haccepted hc
        refine .between hbetween (haccepted.snoc hc hgoes hclear) (hshape.header.trans hheader)
          (hshape.head.trans hhead) ?_
        rw [hpass.metadata]
        exact hmetadata
    · refine ⟨h.2.2, excused_of_isVerdict (h.1.imp_right fun hnext => ?_)⟩
      exact orderly_nextOf _ _ _ _ _ fault hnext.1

/-- **The next block** is the head or a further one. -/
theorem meets_decryptBlock_of_stands
    (hstands : Stands credential provider asked all bad d w clears) :
    Meets Source.host decryptBlock d () w
      (fun clear d' _ w' => Stands credential provider asked all bad d' w' (clears ++ [clear]))
      fun fault d' _ _ => d'.Over ∧ Excused bad provider asked fault := by
  unfold decryptBlock
  rw [meets_bind, meets_get]
  split
  · exact meets_decryptHead_of_stands hstands
  · exact meets_decryptHead_of_stands hstands
  · exact meets_decryptFurther_of_stands hstands

/-- **Each call** leaves the session where it may stand. -/
theorem meets_call_of_stands (hstands : Stands credential provider asked all bad d w clears)
    (call : Call) :
    Meets Source.host call.step d () w
      (fun reply d' _ w' =>
        Stands credential provider asked all bad d' w' (clears ++ clearsOf [.ok reply]))
      fun fault d' _ _ => d'.Over ∧ Excused bad provider asked fault := by
  cases call with
  | info =>
    refine (meets_bind _ _).2 ((meets_info_of_stands hstands).mono (fun _ _ _ _ h => ?_)
      fun _ _ _ _ h => h)
    rw [meets_pure, show clearsOf [.ok (.inl _)] = [] from rfl, List.append_nil]
    exact h
  | head =>
    exact (meets_bind _ _).2 ((meets_decryptHead_of_stands hstands).mono (fun _ _ _ _ h => h)
      fun _ _ _ _ h => h)
  | further =>
    exact (meets_bind _ _).2 ((meets_decryptFurther_of_stands hstands).mono (fun _ _ _ _ h => h)
      fun _ _ _ _ h => h)
  | block =>
    exact (meets_bind _ _).2 ((meets_decryptBlock_of_stands hstands).mono (fun _ _ _ _ h => h)
      fun _ _ _ _ h => h)

theorem clearsOf_cons (result : Except Fault Reply) (results : List (Except Fault Reply)) :
    clearsOf (result :: results) = clearsOf [result] ++ clearsOf results :=
  List.filterMap_append (l := [result])

/-- **Any calls in turn** leave the session where it may stand, and each fault that they give is
excused.  The induction is on the calls. -/
theorem stands_of_calls (calls : List Call) :
    ∀ {d : Decryptor} {w : World} {clears : List ByteArray},
      Stands credential provider asked all bad d w clears →
      Stands credential provider asked all bad (w.run (callAll calls d)).1.2
          (w.run (callAll calls d)).2 (clears ++ clearsOf (w.run (callAll calls d)).1.1) ∧
        ∀ fault, .error fault ∈ (w.run (callAll calls d)).1.1 →
          Excused bad provider asked fault := by
  induction calls with
  | nil =>
    intro d w clears hstands
    refine ⟨?_, nofun⟩
    rw [show (w.run (callAll [] d)).1.1 = [] from rfl, clearsOf, List.filterMap_nil,
      List.append_nil]
    exact hstands
  | cons call calls ih =>
    intro d w clears hstands
    have hcall := meets_call_of_stands hstands call
    unfold Meets at hcall
    rw [Source.run_host] at hcall
    have hrun : w.run (callAll (call :: calls) d)
        = (((w.run (call.step d)).1.1 ::
            ((w.run (call.step d)).2.run (callAll calls (w.run (call.step d)).1.2)).1.1,
          ((w.run (call.step d)).2.run (callAll calls (w.run (call.step d)).1.2)).1.2),
          ((w.run (call.step d)).2.run (callAll calls (w.run (call.step d)).1.2)).2) := by
      rw [callAll, World.run_bind, World.run_bind]
      rfl
    rw [hrun]
    generalize w.run (call.step d) = x at hcall
    rcases x with ⟨⟨fault | reply, d'⟩, w'⟩
    · obtain ⟨hover, hexcused⟩ := hcall
      have hstands' : Stands credential provider asked all bad d' w' clears := .closed hover
      obtain ⟨hstands', hlater⟩ := ih hstands'
      refine ⟨?_, fun fault' hfault => ?_⟩
      · rw [clearsOf_cons]
        exact hstands'
      · rcases List.mem_cons.1 hfault with heq | hfault
        · cases heq
          exact hexcused
        · exact hlater fault' hfault
    · obtain ⟨hstands', hlater⟩ := ih hcall
      refine ⟨?_, fun fault' hfault => ?_⟩
      · rw [clearsOf_cons, ← List.append_assoc]
        exact hstands'
      · rcases List.mem_cons.1 hfault with heq | hfault
        · cases heq
        · exact hlater fault' hfault

/-- A session that has started holds neither head nor keys nor tag. -/
theorem empty_of_run_start {v : World} (hrun : w.run (start credential) = (.ok d, v)) :
    d.head = none ∧ d.keys = none ∧ d.lastTag = none := by
  have hstart : start credential
      = ChunkReader.readFill Limits.headerBytes false {} >>= fun x => pure (do
        let chunk ← x.1
        let format ← WireFormat.ofHeader chunk.bytes
        return { format, credential, reader := x.2, header := chunk.bytes }) := rfl
  rw [hstart, World.run_bind] at hrun
  generalize w.run (ChunkReader.readFill Limits.headerBytes false {}) = x at hrun
  rcases x with ⟨⟨fault | chunk, reader⟩, v'⟩
  · cases hrun
  · obtain ⟨_, hchunk, hformat⟩ := bind_eq_ok.1 (congrArg Prod.fst hrun)
    cases hchunk
    obtain ⟨format, -, hd⟩ := bind_eq_ok.1 hformat
    cases hd
    exact ⟨rfl, rfl, rfl⟩

/-- **A session that has started** stands at the start of its pass. -/
theorem stands_of_run_start {v : World}
    (hrun : w.run (start credential) = (.ok d, v))
    (hbad : ∀ e, InputItem.failure e ∈ w.input → bad (.ofIoFault e)) :
    Stands credential w.provider w.asked w.delivered bad d v [] := by
  have hstart : Ends Source.host (start credential) () w _ _ :=
    ends_start ((supplies_delivered w.delivered bad).unasked w.asked w.provider)
      ((total_deliveredSupply w.delivered bad).unasked w.asked w.provider) credential
      ⟨deliveredSupply_start hbad, rfl, rfl⟩
  obtain ⟨hformat, hcredential, hfresh⟩ := hstart.of_run_ok hrun
  obtain ⟨hhead, hkeys, htag⟩ := empty_of_run_start hrun
  exact .fresh hfresh hformat hcredential hhead hkeys htag rfl

/-- What a session that stands somewhere holds. -/
theorem Stands.holds (hstands : Stands credential provider asked all bad d w clears) :
    ∃ blocks, d.Holds (all.extract 0 Limits.headerBytes) blocks ∧
      (d.stage = .headDone → Leads credential provider asked all blocks clears) := by
  cases hstands with
  | fresh hd hformat hcredential hhead hkeys htag hclears =>
    obtain ⟨header, rest, hheader, hsize, hall, -⟩ := hd.header
    refine ⟨[], ?_, fun h => ?_⟩
    · rw [Holds, hd.stage, hall, extract_append_left hsize]
      exact ⟨hheader, hd.metadata, hhead, hkeys, htag⟩
    · rw [hd.stage] at h
      cases h
  | decoded hd hbegin hcredential hheader hkeys hclears =>
    refine ⟨[], ?_, fun h => ?_⟩
    · rw [Holds, hd.stage, hd.metadata, hd.head]
      exact ⟨hheader, rfl, rfl, hkeys⟩
    · rw [hd.stage] at h
      cases h
  | @between p hint password ahead hd haccepted hheader hhead hmetadata =>
    refine ⟨p.blocks, ?_, fun _ => haccepted.leads⟩
    rw [Holds, hd.stage, hd.keys]
    exact ⟨hheader, hhead, hmetadata, rfl, p.last, getLast?_blocks p, hd.lastTag, hd.lastFlags⟩
  | closed hd =>
    refine ⟨[], ?_, fun h => ?_⟩
    · rw [Holds]
      rcases hd.stage with h | h
      · rw [h]
        exact ⟨hd.head, hd.keys, hd.lastTag⟩
      · rw [h]
        exact ⟨hd.head, hd.keys, hd.lastTag⟩
    · rcases hd.stage with h' | h' <;> rw [h'] at h <;> cases h

end stands

/-- A call for a block, alone. -/
theorem run_callAll_block {e : Decryptor} {v v' : World} {clear : ByteArray}
    (h : v.run (decryptBlock d) = ((.ok clear, e), v')) :
    v.run (callAll [.block] d) = (([.ok (.inr clear)], e), v') := by
  have hstep : v.run (Call.step .block d) = ((.ok (.inr clear), e), v') := by
    show v.run ((decryptBlock >>= fun a => pure (.inr a) : Step Decryptor Reply) d) = _
    rw [Step.bind_apply, World.run_bind, h]
    rfl
  rw [callAll, World.run_bind, hstep]
  rfl

/-- **What a session holds** after any calls, in any order and whether or not they failed, is told
by its stage.  Behind a block it has the tag and the flags of the last block accepted: the blocks
that have been accepted are those at the front of the input that pass every check of their format
and open to the clear texts that the calls gave.  No call is refused because the session holds less
than its stage says; a fault that says so was brought by the input or an answer. -/
theorem holds_of_calls (credential : Credential) {w v : World}
    (hstart : w.run (start credential) = (.ok d, v)) (calls : List Call) :
    (∃ blocks,
      (v.run (callAll calls d)).1.2.Holds (w.delivered.extract 0 Limits.headerBytes) blocks ∧
      ((v.run (callAll calls d)).1.2.stage = .headDone →
        Leads credential w.provider w.asked w.delivered blocks
          (clearsOf (v.run (callAll calls d)).1.1))) ∧
      ∀ fault, .error fault ∈ (v.run (callAll calls d)).1.1 → fault.IsMisfit → w.Brings fault := by
  let bad : Fault → Prop := fun fault => ∃ e, InputItem.failure e ∈ w.input ∧ fault = .ofIoFault e
  have hstands : Stands credential w.provider w.asked w.delivered bad d v [] :=
    stands_of_run_start hstart fun e he => ⟨e, he, rfl⟩
  obtain ⟨hstands', hexcused⟩ := stands_of_calls calls hstands
  exact ⟨hstands'.holds, fun fault hfault hmisfit => hexcused fault hfault hmisfit⟩

/-- A session whose input ends behind the first header, called for its head, and then for all
else; and one that accepts a block, the calls that follow included. -/
theorem holds_of_calls_twoInputs :
    (let w : World := { input := [.data (zeros 32 ++ writeLE 2 5 ++ writeLE 3 31 ++ zeros 1)] }
    ∃ d v, w.run (start ⟨.zeros 32⟩) = (.ok d, v) ∧
      (∃ blocks, (v.run (callAll [.head, .info, .further, .block] d)).1.2.Holds
        (w.delivered.extract 0 Limits.headerBytes) blocks) ∧
      ∀ fault, .error fault ∈ (v.run (callAll [.head, .info, .further, .block] d)).1.1 →
        ¬ fault.IsMisfit) ∧
    ∃ items, let w : World := { input := items, provider := fun _ => .ok ⟨"secret", none⟩ }
      ∃ d e v v' blocks, w.run (start ⟨.zeros 32⟩) = (.ok d, v) ∧
        v.run (callAll [.block] d) = (([.ok (.inr (ofList [1, 2, 3]))], e), v') ∧
        e.stage = .headDone ∧ e.Holds (w.delivered.extract 0 Limits.headerBytes) blocks ∧
        Leads ⟨.zeros 32⟩ w.provider w.asked w.delivered blocks [ofList [1, 2, 3]] ∧
        ∀ calls fault, .error fault ∈ (v.run (callAll calls d)).1.1 → ¬ fault.IsMisfit := by
  refine ⟨?_, ?_⟩
  · intro w
    have hpieces : w.InPieces := by decide
    have hformat : WireFormat.ofHeader (w.bytes.extract 0 Limits.headerBytes) = .ok .chained := by
      decide +kernel
    have hstart : Ends Source.host (start ⟨.zeros 32⟩) () w _ _ :=
      ends_start (supplies_unasked w.bytes w.asked w.provider) (total_unaskedSupply _ _ _)
        ⟨.zeros 32⟩ (unaskedSupply_start hpieces)
    rw [hformat] at hstart
    obtain ⟨d, v, hrun, -⟩ := (hstart.mono (fun _ _ _ h => h) (by simp)).exists_run_ok
    obtain ⟨⟨blocks, hholds, -⟩, hfaults⟩ :=
      holds_of_calls ⟨.zeros 32⟩ hrun [.head, .info, .further, .block]
    refine ⟨d, v, hrun, ⟨blocks, hholds⟩, fun fault hfault hmisfit => ?_⟩
    -- The input does not fail, and the only answer is that there is none.
    rcases hfaults fault hfault hmisfit with ⟨e, he, -⟩ | ⟨info, hanswer⟩
    · cases List.mem_singleton.1 he
    · cases hanswer
      obtain ⟨_, _, h, -⟩ := hmisfit
      cases h
  · obtain ⟨b, -, haccepted⟩ := exists_accepted_head ⟨.zeros 32⟩ (by decide : "secret" ≠ "")
      (by decide : (ofList [1, 2, 3]).size ≤ Limits.readMax)
    obtain ⟨items, hitems, hbytes⟩ := exists_pieces (b.toByteArray .chained ++ .empty)
    refine ⟨items, ?_⟩
    intro w
    obtain ⟨d, v, e, v', hstart, hblock, hstage⟩ := haccepted (w := w) hitems hbytes rfl
    have hrun := run_callAll_block hblock
    obtain ⟨⟨blocks, hholds, hleads⟩, -⟩ := holds_of_calls ⟨.zeros 32⟩ hstart [.block]
    rw [hrun] at hholds hleads
    refine ⟨d, e, v, v', blocks, hstart, hrun, hstage, hholds, hleads hstage, ?_⟩
    intro calls fault hfault hmisfit
    obtain ⟨-, hfaults⟩ := holds_of_calls ⟨.zeros 32⟩ hstart calls
    rcases hfaults fault hfault hmisfit with ⟨e, he, -⟩ | ⟨info, hanswer⟩
    · obtain ⟨piece, hpiece, -⟩ := hitems _ he
      cases hpiece
    · cases hanswer

end Decryptor

end SealedStream
