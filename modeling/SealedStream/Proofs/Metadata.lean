import Mathlib.Data.List.ReduceOption
import SealedStream.Proofs.Calls

/-!
# The metadata of a pass

A head can be verified without its password, so whoever has a stream can be told what decrypting it
will ask for.  This is independent of everything behind the head, and of when it is asked.

* `metadata_of_head`: streams with the same head have the same metadata; decrypting fails as asking
  for the metadata does, and otherwise asks for what that gives; and a session can be asked for it
  at any time, without changing what the other calls give.

Until its head is verified a session is `Decryptor.Unread`, and from then on it `Decryptor.Knows`
its metadata, which no call changes while none fails.  So a call for the metadata is either the one
that verifies the head, which the next call would have done first, or does nothing.
-/

namespace SealedStream

variable {ρ σ α β : Type} {credential : Credential}

/-! ### The head alone -/

section head

variable {format : WireFormat} {header rest rest' all all' : ByteArray}

theorem extract_behind (a b : ByteArray) (n : Nat) :
    (a ++ b).extract a.size (a.size + n) = b.extract 0 n := by
  rw [← ByteArray.extract_append_size_add (a := a) (b := b) (i := 0) (j := n), Nat.add_zero]

/-- Where the first bytes agree, so does every part of them. -/
theorem extract_of_extract_eq {a b : ByteArray} {i j n : Nat}
    (h : a.extract 0 n = b.extract 0 n) (hj : j ≤ n) : a.extract i j = b.extract i j := by
  have hcut := congrArg (ByteArray.extract · i j) h
  simp only [ByteArray.extract_extract, Nat.zero_add, Nat.min_eq_left hj] at hcut
  exact hcut

/-- A header that tells a format is whole. -/
theorem WireFormat.size_of_ofHeader (h : WireFormat.ofHeader header = .ok format) :
    Limits.headerBytes ≤ header.size := by
  refine Nat.le_of_not_lt fun hlt => ?_
  rw [WireFormat.ofHeader, if_pos hlt] at h
  cases h

/-- The size that a header gives stands at a fixed place in it. -/
theorem FrameHeader.size_of_parse (hf : format ≠ .message)
    (hs : header.size = Limits.headerBytes) {frame : FrameHeader}
    (h : FrameHeader.parse format header = .ok frame) :
    frame.size = readLE (header.extract 34 37) := by
  obtain ⟨hheader, ⟨-, hmax⟩, -⟩ := (FrameHeader.parse_eq_ok hf hs).1 h
  let before := frame.tag.data ++ writeLE Limits.versionBytes format.version
  have hbefore : before.size = 34 := by
    rw [ByteArray.size_append, frame.tag.size_data, size_writeLE]
    rfl
  have hsize : header.extract 34 37 = writeLE Limits.sizeBytes frame.size := by
    rw [← ByteArray.append_assoc] at hheader
    have hpassed : (before ++ (writeLE Limits.sizeBytes frame.size
        ++ writeLE Limits.flagsBytes frame.flags)).extract before.size
          (before.size + Limits.sizeBytes) = writeLE Limits.sizeBytes frame.size :=
      FieldReader.extract_passed (size_writeLE Limits.sizeBytes frame.size)
    rw [← hheader, hbefore] at hpassed
    exact hpassed
  have hfits : Limits.payloadMax < 256 ^ Limits.sizeBytes := by decide
  rw [hsize, readLE_writeLE (by omega)]

/-- **A verified head** is found in the header and in as many bytes as it says. -/
theorem headOf_congr (hf : format ≠ .message) (hs : header.size = Limits.headerBytes)
    (h : rest.extract 0 (readLE (header.extract 34 37))
      = rest'.extract 0 (readLE (header.extract 34 37))) :
    (headOf format credential (header ++ rest)).map Prod.fst
      = (headOf format credential (header ++ rest')).map Prod.fst := by
  rw [headOf_append hf hs, headOf_append hf hs]
  cases hparse : FrameHeader.parse format header with
  | error fault => rfl
  | ok fields =>
    rw [← FrameHeader.size_of_parse hf hs hparse] at h
    have hsizes := congrArg ByteArray.size h
    simp only [ByteArray.size_extract, Nat.sub_zero] at hsizes
    show Except.map Prod.fst (ite (rest.size < fields.size) _ _)
      = Except.map Prod.fst (ite (rest'.size < fields.size) _ _)
    by_cases hshort : rest.size < fields.size
    · -- All that is there is too little.
      have hsame : rest'.size = rest.size := by omega
      rw [if_pos hshort, hsame, if_pos hshort]
      show (.error (.sizeMismatch "cipher data payload" fields.size rest.size) : Except Fault _) = _
      rfl
    · rw [if_neg hshort, if_neg (by omega), h]
      cases fields.verifyHead format header (rest'.extract 0 fields.size) credential with
      | error fault => rfl
      | ok head => rfl

/-- The metadata that the head of a pass shows. -/
def infoOf (credential : Credential) (all : ByteArray) : Except Fault PassInfo :=
  (beginOf credential all).map (·.2.1.info)

theorem infoOf_eq (hformat : WireFormat.ofHeader (all.extract 0 Limits.headerBytes) = .ok format) :
    infoOf credential all
      = ((headOf format credential all).map Prod.fst).map VerifiedHead.info := by
  unfold infoOf beginOf
  rw [hformat]
  show Except.map _ (headOf format credential all >>= _) = _
  cases headOf format credential all with
  | error fault => rfl
  | ok head => rfl

/-- **The metadata of a framed pass** is told by its first header and as many bytes as that says. -/
theorem infoOf_congr
    (hm : WireFormat.ofHeader (all.extract 0 Limits.headerBytes) ≠ .ok .message)
    (h : all.extract 0 (Limits.headerBytes + readLE (all.extract 34 37))
      = all'.extract 0 (Limits.headerBytes + readLE (all.extract 34 37))) :
    infoOf credential all = infoOf credential all' := by
  generalize hn : readLE (all.extract 34 37) = n at h
  have hheader := extract_of_extract_eq h (i := 0) (Nat.le_add_right Limits.headerBytes n)
  cases hformat : WireFormat.ofHeader (all.extract 0 Limits.headerBytes) with
  | error fault =>
    unfold infoOf beginOf
    rw [← hheader, hformat]
    rfl
  | ok format =>
    have hf : format ≠ .message := fun hf => hm (by rw [hformat, hf])
    have hwhole := WireFormat.size_of_ofHeader hformat
    have hwhole' := hwhole
    rw [hheader] at hwhole'
    rw [ByteArray.size_extract] at hwhole hwhole'
    obtain ⟨header, rest, rfl, hs⟩ :=
      exists_eq_append_of_le (a := all) (n := Limits.headerBytes) (by omega)
    obtain ⟨header', rest', rfl, hs'⟩ :=
      exists_eq_append_of_le (a := all') (n := Limits.headerBytes) (by omega)
    rw [extract_append_left hs] at hformat
    rw [extract_append_left hs, extract_append_left hs'] at hheader
    subst hheader
    -- Behind the header, the streams agree on as many bytes as its field says.
    have hrest := extract_of_extract_eq h (i := header.size) (j := header.size + n) (by omega)
    rw [extract_behind, extract_behind] at hrest
    have hfield : (header ++ rest).extract 34 37 = header.extract 34 37 := by
      refine extract_append_of_le ?_
      rw [hs]
      decide
    rw [← hn, hfield] at hrest
    have hinfo : ∀ after, infoOf credential (header ++ after)
        = ((headOf format credential (header ++ after)).map Prod.fst).map VerifiedHead.info :=
      fun after => infoOf_eq (by rw [extract_append_left hs]; exact hformat)
    rw [hinfo, hinfo, headOf_congr hf hs hrest]

end head

/-! ### Programs that only read -/

/-- Reading changes no more of a world than its input. -/
theorem Program.ReadsOnly.asked_run {p : Program Host α} (h : p.ReadsOnly) (w : World) :
    (w.run p).2.asked = w.asked := by
  induction h generalizing w with
  | done a => rfl
  | ask _ ih => exact ih _ _

/-! ### Programs that begin with a question -/

/-- A program that makes a request first. -/
def Program.Begins (r : HostRequest) (p : Program Host α) : Prop :=
  ∃ next, p = .ask r next

namespace Program.Begins

variable {r : HostRequest} {info : PassInfo} {p : Program Host α}

theorem bind (h : p.Begins r) (f : α → Program Host β) : (p >>= f).Begins r := by
  obtain ⟨next, rfl⟩ := h
  exact ⟨_, rfl⟩

theorem bind_step {x : Step σ α} {s : σ} (h : (x s).Begins r) (f : α → Step σ β) :
    ((x >>= f) s).Begins r := by
  rw [Step.bind_apply]
  exact h.bind _

/-- A question goes through to the host at once. -/
theorem serve (h : p.Begins (.password info))
    (read : Nat → σ → Program Host (Except IoFault ByteArray × σ)) (s : σ) :
    (p.serve (J := Host) (serveReads read) s).Begins (.password info) := by
  obtain ⟨next, rfl⟩ := h
  exact ⟨_, rfl⟩

/-- A read is left to what serves it. -/
theorem serve_read {n : Nat} (h : p.Begins (.read n))
    {read : Nat → σ → Program Host (Except IoFault ByteArray × σ)} {s : σ}
    (hread : (read n s).Begins r) : (p.serve (J := Host) (serveReads read) s).Begins r := by
  obtain ⟨next, rfl⟩ := h
  exact hread.bind _

/-- The question that a program begins with is the first one that is asked. -/
theorem exists_asked (h : p.Begins (.password info)) (w : World) :
    ∃ later, (w.run p).2.asked = w.asked ++ info :: later := by
  obtain ⟨next, rfl⟩ := h
  obtain ⟨later, hlater⟩ := World.asked_prefix_run (next (w.provider (w.asked ++ [info])))
    { w with asked := w.asked ++ [info] }
  refine ⟨later, ?_⟩
  rw [List.append_assoc] at hlater
  exact hlater.symm

end Program.Begins

namespace Decryptor

/-- A session that has verified its head asks for the password of its pass next. -/
structure Awaits (info : PassInfo) (d : Decryptor) : Prop where
  stage : d.stage = .headDecoded
  metadata : d.metadata = some info
  head : d.head.isSome

variable {info : PassInfo} {d : Decryptor}

theorem decodeHead_of_known (hmetadata : d.metadata = some info) (hstage : d.stage ≠ .failed) :
    decodeHead d = .done (.ok info, d) := by
  unfold decodeHead
  rw [Step.get_bind_apply, hmetadata]
  dsimp only
  rw [if_pos hstage]
  rfl

theorem require_bind_of_mem {expected : List Stage} {operation : String}
    {next : Unit → Step Decryptor α} (h : d.stage ∈ expected) :
    (require expected operation >>= next) d = next ⟨⟩ d := by
  have hallowed : d.stage.require expected operation = .ok ⟨⟩ := if_pos h
  unfold require
  rw [bind_assoc, Step.get_bind_apply, hallowed]
  rfl

theorem Awaits.begins (h : d.Awaits info) : (decryptBlock d).Begins (.password info) := by
  obtain ⟨head, hhead⟩ := Option.isSome_iff_exists.1 h.head
  have hblock : decryptBlock d = decryptHead d := by
    unfold decryptBlock
    rw [Step.get_bind_apply, h.stage]
  have hopen : (openHead info d).Begins (.password info) := by
    unfold openHead
    rw [Step.get_bind_apply, hhead]
    exact ⟨_, rfl⟩
  rw [hblock, decryptHead_eq]
  unfold settle
  rw [Step.tryCatch_apply, require_bind_of_mem (by rw [h.stage]; decide), Step.bind_apply,
    decodeHead_of_known h.metadata (by rw [h.stage]; decide)]
  exact hopen.bind _

end Decryptor

section layers

variable {info : PassInfo} {d : Decryptor} {bound depth : Nat} {below : Layers Decryptor depth}

/-- The first read of a pass puts its question. -/
theorem Decryptor.Awaits.begins_read (h : d.Awaits info) (hbound : 0 < bound) (size : Nat) :
    (Layers.read Decryptor.engine bound (depth + 1) size ({ engine := d }, below)).Begins
      (.password info) := by
  obtain ⟨bound, rfl⟩ := Nat.exists_eq_add_of_lt hbound
  have hfill : (Outlet.fill Decryptor.engine (0 + bound + 1) { engine := d }).Begins
      (.password info) := by
    have hnext : Decryptor.engine.isFinished d = false := by
      show decide (d.stage = .finished) = false
      rw [h.stage]
      rfl
    unfold Outlet.fill
    rw [if_neg (by exact Bool.false_ne_true), if_neg (by rw [hnext]; decide)]
    exact (show (Decryptor.engine.next d).Begins (.password info) from h.begins).bind _
  exact ((hfill.bind _).serve _ _).bind _

/-- A session begins with a read. -/
theorem Decryptor.exists_begins_openPass (credential : Credential) :
    ∃ n, (openPass credential).Begins (.read n) := by
  have hfill : ∃ n, (ChunkReader.collect Limits.headerBytes false {}).Begins (.read n) := by
    unfold ChunkReader.collect
    rw [ChunkReader.fill, dif_pos (by decide)]
    exact ⟨_, _, rfl⟩
  obtain ⟨n, hfill⟩ := hfill
  exact ⟨n, ((hfill.bind_step _).bind _).bind _⟩

end layers

/-- A session that has been opened waits for its password. -/
theorem Decryptor.awaits_of_openPass {w v : World} {info : PassInfo} {d : Decryptor}
    (h : w.run (openPass credential) = (.ok (info, d), v)) : d.Awaits info := by
  have hopen : Ends Source.host (openPass credential) () w _ _ :=
    ends_openPass (supplies_delivered w.delivered fun _ => True)
      (total_deliveredSupply w.delivered _) (deliveredSupply_start fun _ _ => trivial)
  obtain ⟨head, ahead, -, hinfo, -, hdecoded⟩ := hopen.of_run_ok h
  refine ⟨hdecoded.stage, hdecoded.metadata.trans (congrArg some hinfo.symm), ?_⟩
  rw [hdecoded.head]
  rfl

/-! ### Opening a stream -/

theorem run_streamInfo (credential : Credential) (w : World) :
    w.run (streamInfo credential)
      = ((w.run (Decryptor.openPass credential)).1.map Prod.fst,
          (w.run (Decryptor.openPass credential)).2) := by
  unfold streamInfo
  rw [World.run_bind]
  rfl

/-- **The metadata of a framed stream** is that of its head. -/
theorem streamInfo_eq_infoOf {w : World} (hp : w.InPieces)
    (hm : WireFormat.ofHeader (w.bytes.extract 0 Limits.headerBytes) ≠ .ok .message) :
    (w.run (streamInfo credential)).1 = infoOf credential w.bytes := by
  have hopen : Ends Source.host (Decryptor.openPass credential) () w _ _ :=
    Decryptor.ends_openPass (supplies_unasked w.bytes w.asked w.provider)
      (total_unaskedSupply _ _ _) (unaskedSupply_start hp)
  rw [run_streamInfo, infoOf]
  unfold Ends at hopen
  rw [Source.run_host] at hopen
  generalize w.run (Decryptor.openPass credential) = x at hopen
  rcases x with ⟨fault | ⟨info, d⟩, v⟩
  · obtain hfalse | ⟨fault', hbegin, hsame⟩ := hopen
    · exact hfalse.elim
    · rw [hbegin, hsame hm]
      rfl
  · obtain ⟨head, ahead, hbegin, hinfo, -⟩ := hopen
    rw [hbegin]
    exact congrArg Except.ok hinfo

/-- The first pass of a stream is opened as for its metadata. -/
theorem run_openStream (credential : Credential) (w : World) (n : Nat) :
    w.run (openStream (n + 1) credential)
      = match w.run (Decryptor.openPass credential) with
        | (.error fault, v) => (.error fault, v)
        | (.ok (info, d), v) =>
          if 1 < info.loop.index then
            v.run (openPasses (n + 1) credential n ⟨1, ({ engine := d }, ())⟩)
          else (.ok ⟨1, ({ engine := d }, ())⟩, v) := by
  have hhost : Source.run (Layers.read Decryptor.engine (n + 1) 0)
      (Decryptor.openPass credential) (() : Layers Decryptor 0) w
      = (((w.run (Decryptor.openPass credential)).1, ()),
          (w.run (Decryptor.openPass credential)).2) := Source.run_host _ w
  have hrun : w.run (openPasses (n + 1) credential (n + 1) ⟨0, ()⟩) = _ :=
    run_openPasses (n + 1) credential _ w n
  rw [hhost] at hrun
  refine hrun.trans ?_
  rcases w.run (Decryptor.openPass credential) with ⟨fault | ⟨info, d⟩, v⟩
  · rfl
  · rfl

/-- What is left of decrypting a stream when its first pass has been opened. -/
def goOn (bound : Nat) (credential : Credential) (n : Nat) (info : PassInfo) (d : Decryptor) :
    Program Host (Except Fault ByteArray) := do
  let opened ← if 1 < info.loop.index then
      openPasses bound credential n ⟨1, ({ engine := d }, ())⟩
    else pure (.ok ⟨1, ({ engine := d }, ())⟩)
  match opened with
  | .error fault => return .error fault
  | .ok p => p.readAll Decryptor.engine bound

/-- Decrypting goes on with the question for the password of the first pass. -/
theorem begins_goOn (credential : Credential) {info : PassInfo} {d : Decryptor}
    (h : d.Awaits info) (bound n : Nat) :
    (goOn (bound + 1) credential (n + 1) info d).Begins (.password info) := by
  unfold goOn
  by_cases hindex : 1 < info.loop.index
  · -- The next pass begins with a read from this one.
    obtain ⟨k, hopen⟩ := Decryptor.exists_begins_openPass credential
    rw [if_pos hindex]
    have hfeed : (openPasses (bound + 1) credential (n + 1) ⟨1, ({ engine := d }, ())⟩).Begins
        (.password info) := by
      unfold openPasses Pipeline.feed
      exact ((hopen.serve_read (h.begins_read (Nat.succ_pos _) k)).bind _).bind _
    exact hfeed.bind _
  · rw [if_neg hindex]
    show (Pipeline.readFrom _ _ _ _ _).Begins _
    unfold Pipeline.readFrom Pipeline.read
    exact ((h.begins_read (Nat.succ_pos _) _).bind _).bind _

theorem run_goOn (bound n : Nat) (info : PassInfo) (d : Decryptor) (v : World) :
    v.run (goOn bound credential n info d)
      = match (if 1 < info.loop.index then
            v.run (openPasses bound credential n ⟨1, ({ engine := d }, ())⟩)
          else (.ok ⟨1, ({ engine := d }, ())⟩, v)) with
        | (.error fault, v) => (.error fault, v)
        | (.ok p, v) => v.run (p.readAll Decryptor.engine bound) := by
  unfold goOn
  by_cases hindex : 1 < info.loop.index
  · rw [if_pos hindex, if_pos hindex, World.run_bind]
    rcases v.run (openPasses bound credential n ⟨1, ({ engine := d }, ())⟩) with ⟨fault | p, v'⟩
    · rfl
    · rfl
  · rw [if_neg hindex, if_neg hindex]
    rfl

/-- **Decrypting a stream begins as asking for its metadata does**, and fails with it; otherwise the
first question is the one that goes with the metadata. -/
theorem decrypt_of_streamInfo (credential : Credential) (w : World) :
    match w.run (streamInfo credential) with
    | (.error fault, v) => w.run (openStream w.inputBound credential) = (.error fault, v) ∧
        w.decrypt credential = (.error fault, v) ∧ v.asked = w.asked
    | (.ok info, v) =>
        (info.loop.index = 1 →
          ∃ p, w.run (openStream w.inputBound credential) = (.ok p, v) ∧ v.asked = w.asked) ∧
        ∃ later, (w.decrypt credential).2.asked = w.asked ++ info :: later := by
  have hasked := (Decryptor.readsOnly_openPass credential).asked_run w
  have hopen := run_openStream credential w (itemsSize w.input + 1)
  have hdecrypt := World.decrypt_eq credential w
  change w.run (openStream w.inputBound credential) = _ at hopen
  rw [run_streamInfo]
  rw [hopen] at hdecrypt ⊢
  cases hrun : w.run (Decryptor.openPass credential) with
  | mk result v =>
    rw [hrun] at hasked hdecrypt
    rcases result with fault | ⟨info, d⟩
    · exact ⟨rfl, hdecrypt, hasked⟩
    · have hawaits := Decryptor.awaits_of_openPass hrun
      obtain ⟨later, hlater⟩ := (begins_goOn credential hawaits (itemsSize w.input + 1)
        (itemsSize w.input)).exists_asked v
      refine ⟨fun hindex : info.loop.index = 1 => ⟨_, if_neg ?_, hasked⟩, later, ?_⟩
      · rw [hindex]
        exact Nat.lt_irrefl 1
      · rw [← hasked, ← hlater, run_goOn]
        exact congrArg (fun x => x.2.asked) hdecrypt

/-! ### What calls keep -/

/-- A step that keeps a property of its state, unless it fails. -/
def Step.Keeps (P : σ → Prop) (step : Step σ α) : Prop :=
  ∀ (ρ : Type) (read : Source ρ) (s : σ) (l : ρ) (w : World), P s →
    Meets read step s l w (fun _ s' _ _ => P s') fun _ _ _ _ => True

namespace Step.Keeps

variable {τ : Type} {P : σ → Prop}

theorem ofProgram (p : Program Host α) : Keeps P (Step.ofProgram p : Step σ α) :=
  fun _ _ _ _ _ h => (meets_ofProgram p).2 h

theorem modify {f : σ → σ} (hf : ∀ s, P s → P (f s)) :
    Keeps P (modifyThe σ f : Step σ PUnit) :=
  fun _ _ s _ _ h => hf s h

theorem onPart {part : σ → τ} {update : σ → τ → σ} (step : Step τ α)
    (hupdate : ∀ s t, P s → P (update s t)) : (Step.onPart part update step).Keeps P :=
  fun _ _ _ _ _ h => (meets_onPart part update step).2
    ((Meets.trivial step).mono (fun _ _ _ _ _ => hupdate _ _ h) fun _ _ _ _ _ => trivial)

/-- **Steps that keep a property** make such steps. -/
theorem closed : Closed fun _ (step : Step σ _) => step.Keeps P where
  pure _ := fun _ _ _ _ _ h => h
  throw _ := fun _ _ _ _ _ _ => trivial
  get := fun _ _ _ _ _ h => h
  except x := fun _ _ _ _ _ h => (meets_except x).2 ⟨fun _ _ => h, fun _ _ => trivial⟩
  bind hx hf := fun ρ read s l w h => (meets_bind _ _).2 ((hx ρ read s l w h).mono
    (fun a s' l' w' h' => hf a ρ read s' l' w' h') fun _ _ _ _ _ => trivial)
  rethrow _ h := fun ρ read s l w hs => (meets_tryCatch _ _).2 ((h ρ read s l w hs).mono
    (fun _ _ _ _ h' => h') fun _ _ _ _ _ => (meets_bind _ _).2 ((Meets.trivial _).mono
      (fun _ _ _ _ _ => trivial) fun _ _ _ _ _ => trivial))

end Step.Keeps

namespace Decryptor

variable {info : PassInfo} {d : Decryptor}

/-- A session that has verified its head, and has not failed since. -/
structure Knows (info : PassInfo) (d : Decryptor) : Prop where
  metadata : d.metadata = some info
  stage : d.stage ≠ .failed

theorem knows_enter {next : Stage} (hnext : next ≠ .failed) :
    (enter next).Keeps (Knows info) := by
  intro ρ read d l w h
  unfold enter
  simp only [meets_bind, meets_get, meets_except, meets_modify]
  refine ⟨fun stage hstage => ?_, fun _ _ => trivial⟩
  obtain rfl := (ite_eq_ok.1 hstage).1
  exact ⟨h.metadata, hnext⟩

theorem knows_decodeHead : decodeHead.Keeps (Knows info) := by
  intro ρ read d l w h
  exact (meets_decodeHead_of_known h.metadata h.stage).2 h

theorem knows_onReader (step : Step ChunkReader α) : (onReader step).Keeps (Knows info) :=
  .onPart step fun _ _ h => ⟨h.metadata, h.stage⟩

theorem closed_knows : Closed fun _ step => step.Keeps (Knows info) where
  toClosed := Step.Keeps.closed
  modify _ hf := .modify fun d h =>
    ⟨(hf d).2.trans h.metadata, fun hfailed => h.stage ((hf d).1.symm.trans hfailed)⟩
  enter _ := knows_enter
  readFill _ _ := knows_onReader _
  readToLimit _ _ := knows_onReader _

/-- Asking and deriving do nothing to a session. -/
theorem knows_ask (question : PassInfo) : Step.Keeps (Knows info) (do
    liftM (← Step.ofProgram (Host.password question)) : Step Decryptor Answer) :=
  closed_knows.bind (.ofProgram _) fun _ => closed_knows.except _

/-- **Calls keep what a session knows** of its pass, unless they fail. -/
theorem knows_call (call : Call) : call.step.Keeps (Knows info) := by
  have h : Closed fun _ step => step.Keeps (Knows info) := closed_knows
  cases call with
  | info => exact h.bind (h.settle knows_decodeHead) fun _ => h.pure _
  | head =>
    exact h.bind (h.decryptHead knows_decodeHead knows_ask fun _ => .ofProgram _) fun _ => h.pure _
  | further => exact h.bind h.decryptFurther fun _ => h.pure _
  | block =>
    exact h.bind (h.decryptBlock knows_decodeHead knows_ask fun _ => .ofProgram _) fun _ => h.pure _

/-! ### Calls for the metadata -/

/-- The results of some calls, with calls for the metadata put between them: each `none` stands for
one of these. -/
def weave (info : PassInfo) :
    List (Option Call) → List (Except Fault Reply) → List (Except Fault Reply)
  | none :: marks, results => .ok (.inl info) :: weave info marks results
  | some _ :: marks, result :: results => result :: weave info marks results
  | _, _ => []

variable {read : Source ρ} {l : ρ} {w : World}

theorem run_bind_step {x : Step σ α} {f : α → Step σ β} {s : σ} :
    read.run ((x >>= f) s) l w = match read.run (x s) l w with
      | (((.ok a, s), l), w) => read.run (f a s) l w
      | (((.error fault, s), l), w) => (((.error fault, s), l), w) := by
  rw [Step.bind_apply, Source.run_bind]
  rcases read.run (x s) l w with ⟨⟨⟨fault | a, s'⟩, l'⟩, w'⟩
  · rfl
  · rfl

theorem run_bind_step_error {x : Step σ α} {f : α → Step σ β} {s s' : σ} {l' : ρ} {w' : World}
    {fault : Fault} (h : read.run (x s) l w = (((.error fault, s'), l'), w')) :
    (read.run ((x >>= f) s) l w).1.1.1 = .error fault := by
  rw [run_bind_step, h]

theorem run_bind_step_congr {x : Step σ α} {f : α → Step σ β} {s s' : σ} {l' : ρ} {w' : World}
    (h : read.run (x s) l w = read.run (x s') l' w') :
    read.run ((x >>= f) s) l w = read.run ((x >>= f) s') l' w' := by
  rw [run_bind_step, run_bind_step, h]

theorem run_settle {step : Step Decryptor α} {d : Decryptor} :
    read.run (settle step d) l w = match read.run (step d) l w with
      | (((.ok a, d), l), w) => (((.ok a, d), l), w)
      | (((.error fault, d), l), w) =>
        (((.error fault, { d.dropKeys with stage := .failed, head := none }), l), w) := by
  unfold settle
  rw [Step.tryCatch_apply, Source.run_bind]
  rcases read.run (step d) l w with ⟨⟨⟨fault | a, d'⟩, l'⟩, w'⟩
  · rfl
  · rfl

/-- A session that knows its metadata gives it, and does nothing else. -/
theorem info_of_knows (h : d.Knows info) : Decryptor.info d = .done (.ok info, d) := by
  unfold Decryptor.info settle
  rw [Step.tryCatch_apply, decodeHead_of_known h.metadata h.stage]
  rfl

/-- **Where the metadata is known**, calls for it may be put between the others. -/
theorem run_callAll_of_knows (hd : d.Knows info) (marks : List (Option Call))
    (hok : ∀ result ∈ (read.run (session.callAll marks.reduceOption d) l w).1.1.1,
      ∃ reply, result = .ok reply) :
    read.run (session.callAll (marks.map (·.getD .info)) d) l w =
      let plain := read.run (session.callAll marks.reduceOption d) l w
      (((weave info marks plain.1.1.1, plain.1.1.2), plain.1.2), plain.2) := by
  induction marks generalizing d l w with
  | nil => rfl
  | cons mark marks ih =>
    cases mark with
    | none =>
      have hstep : read.run (session.step (Option.getD none .info) d) l w
          = (((.ok (.inl info), d), l), w) := by
        show read.run ((Decryptor.info >>= fun a => pure (.inl a) : Step Decryptor Reply) d) l w = _
        rw [run_bind_step, info_of_knows hd]
        rfl
      rw [List.map_cons, Session.run_callAll_cons, hstep]
      dsimp only
      rw [ih hd hok]
      rfl
    | some call =>
      have hkeeps : Meets read (session.step call) d l w (fun _ d' _ _ => d'.Knows info)
          fun _ _ _ _ => True := knows_call call ρ read d l w hd
      unfold Meets at hkeeps
      rw [List.reduceOption_cons_of_some, Session.run_callAll_cons] at hok ⊢
      rw [List.map_cons, Option.getD_some, Session.run_callAll_cons]
      generalize read.run (session.step call d) l w = x at hkeeps hok ⊢
      rcases x with ⟨⟨⟨fault | reply, d'⟩, l'⟩, w'⟩
      · obtain ⟨reply, hreply⟩ := hok _ List.mem_cons_self
        cases hreply
      · dsimp only at hok ⊢
        rw [ih hkeeps fun result hresult => hok result (List.mem_cons_of_mem _ hresult)]
        rfl

/-! ### Before the metadata is known -/

/-- A session at the start of its pass, which knows nothing of it. -/
structure Unread (d : Decryptor) : Prop where
  stage : d.stage = .initialized
  metadata : d.metadata = none

/-- A session that verifies its head knows its metadata, and has not gone further. -/
theorem meets_decodeHead_of_unread (read : Source ρ) (hd : d.Unread) (l : ρ) (w : World) :
    Meets read decodeHead d l w
      (fun info d' _ _ => d'.stage = .headDecoded ∧ d'.metadata = some info)
      fun _ _ _ _ => True := by
  unfold decodeHead
  simp only [meets_bind, meets_get, hd.metadata]
  rw [meets_require (by rw [hd.stage]; decide)]
  split
  · trivial
  · simp only [meets_bind, meets_modify, meets_pure]
    refine (Meets.trivial _).mono (fun head d' _ _ _ => ?_) fun _ _ _ _ _ => trivial
    unfold enter
    simp only [meets_bind, meets_get, meets_except, meets_modify]
    refine ⟨fun stage hstage => ?_, fun _ _ => trivial⟩
    exact ⟨(ite_eq_ok.1 hstage).1, trivial⟩

/-- What is behind the check of its stage, and of the metadata, decides what a head opens to. -/
theorem run_decryptHead (hstage : d.stage ∈ [Stage.initialized, .headDecoded]) :
    read.run (decryptHead d) l w
      = read.run (settle (decodeHead >>= openHead) d) l w := by
  rw [decryptHead_eq, run_settle, run_settle, require_bind_of_mem hstage]

theorem decryptBlock_of_mem (hstage : d.stage ∈ [Stage.initialized, .headDecoded]) :
    decryptBlock d = decryptHead d := by
  unfold decryptBlock
  rw [Step.get_bind_apply]
  cases hs : d.stage with
  | initialized | headDecoded => rfl
  | headDone | finished | failed => simp [hs] at hstage

/-- **Whatever opens a pass verifies its head first**: a call finds the same as after one for the
metadata, and fails if that does. -/
theorem run_step_of_unread (read : Source ρ) (hd : d.Unread) (l : ρ) (w : World) {call : Call}
    (hcall : call ≠ .further) :
    match read.run (Decryptor.info d) l w with
    | (((.ok info, d'), l'), w') => d'.stage = .headDecoded ∧ d'.metadata = some info ∧
        read.run (call.step d) l w = read.run (call.step d') l' w'
    | (((.error _, _), _), _) => ∃ fault, (read.run (call.step d) l w).1.1.1 = .error fault := by
  have hdecode := meets_decodeHead_of_unread read hd l w
  have hinfo : read.run (Decryptor.info d) l w = _ := run_settle
  have hmem : d.stage ∈ [Stage.initialized, .headDecoded] := by
    rw [hd.stage]
    decide
  have hhead : read.run (decryptHead d) l w = _ := (run_decryptHead hmem).trans run_settle
  have hblock := decryptBlock_of_mem hmem
  rw [run_bind_step] at hhead
  unfold Meets at hdecode
  rw [hinfo]
  generalize read.run (decodeHead d) l w = x at hdecode hinfo hhead
  rcases x with ⟨⟨⟨fault | info, d'⟩, l'⟩, w'⟩
  · refine ⟨fault, ?_⟩
    cases call with
    | further => exact absurd rfl hcall
    | info => exact run_bind_step_error hinfo
    | head => exact run_bind_step_error hhead
    | block => exact run_bind_step_error ((congrArg (read.run · l w) hblock).trans hhead)
  · obtain ⟨hstage, hmetadata⟩ := hdecode
    have hmem' : d'.stage ∈ [Stage.initialized, .headDecoded] := by
      rw [hstage]
      decide
    have hknows : d'.Knows info := ⟨hmetadata, by rw [hstage]; decide⟩
    have hinfo' : read.run (Decryptor.info d') l' w' = (((.ok info, d'), l'), w') := by
      rw [info_of_knows hknows]
      rfl
    have hhead' : read.run (decryptHead d') l' w' = _ := (run_decryptHead hmem').trans run_settle
    -- The head is not verified again, so both go on with opening it.
    rw [run_bind_step, decodeHead_of_known hmetadata hknows.stage] at hhead'
    have hsame : read.run (decryptHead d) l w = read.run (decryptHead d') l' w' :=
      hhead.trans hhead'.symm
    refine ⟨hstage, hmetadata, ?_⟩
    cases call with
    | further => exact absurd rfl hcall
    | info => exact run_bind_step_congr (hinfo.trans hinfo'.symm)
    | head => exact run_bind_step_congr hsame
    | block =>
      refine run_bind_step_congr ?_
      rw [hblock, decryptBlock_of_mem hmem', hsame]

/-- A further block is no beginning. -/
theorem run_further_of_unread (read : Source ρ) (hd : d.Unread) (l : ρ) (w : World) :
    ∃ fault, (read.run (Call.further.step d) l w).1.1.1 = .error fault := by
  have hrefused : Call.further.step d = _ :=
    bind_reply_of_refused Sum.inr (decryptFurther_of_not_mem (by rw [hd.stage]; decide))
  rw [hrefused]
  exact ⟨_, rfl⟩

section asked

variable {d' : Decryptor} {l' : ρ} {w' : World}

/-- A session that has been asked for its metadata knows it. -/
theorem Unread.knows (hd : d.Unread)
    (hinfo : read.run (Decryptor.info d) l w = (((.ok info, d'), l'), w')) : d'.Knows info := by
  have hstep := run_step_of_unread read hd l w (show Call.info ≠ .further by decide)
  rw [hinfo] at hstep
  exact ⟨hstep.2.1, by rw [hstep.1]; decide⟩

/-- Calls that open the pass may begin behind the head. -/
theorem Unread.run_callAll (hd : d.Unread)
    (hinfo : read.run (Decryptor.info d) l w = (((.ok info, d'), l'), w')) {call : Call}
    (calls : List Call) (hcall : call ≠ .further) :
    read.run (session.callAll (call :: calls) d) l w
      = read.run (session.callAll (call :: calls) d') l' w' := by
  have hstep := run_step_of_unread read hd l w hcall
  rw [hinfo] at hstep
  have hsame : read.run (session.step call d) l w = read.run (session.step call d') l' w' :=
    hstep.2.2
  rw [Session.run_callAll_cons, Session.run_callAll_cons, hsame]

/-- The first of some calls that do not fail opens the pass, so it is not one for a further
block. -/
theorem Unread.exists_first (hd : d.Unread) {calls : List Call}
    (hok : ∀ result ∈ (read.run (session.callAll calls d) l w).1.1.1,
      ∃ reply, result = .ok reply)
    (hclears : clearsOf (read.run (session.callAll calls d) l w).1.1.1 ≠ []) :
    ∃ first others reply, calls = first :: others ∧ first ≠ .further ∧
      (read.run (first.step d) l w).1.1.1 = .ok reply := by
  cases calls with
  | nil => exact absurd rfl hclears
  | cons first others =>
    rw [Session.run_callAll_cons] at hok
    obtain ⟨reply, hreply⟩ : ∃ reply, (read.run (first.step d) l w).1.1.1 = .ok reply :=
      hok _ List.mem_cons_self
    refine ⟨first, others, reply, rfl, ?_, hreply⟩
    rintro rfl
    obtain ⟨fault, hfault⟩ := run_further_of_unread read hd l w
    cases hreply.symm.trans hfault

/-- **Calls for the metadata change nothing** for the others, from the start of a pass on, if none
of the others fails and one of them gives clear text. -/
theorem run_callAll_of_unread (read : Source ρ) (hd : d.Unread) (l : ρ) (w : World)
    (marks : List (Option Call))
    (hok : ∀ result ∈ (read.run (session.callAll marks.reduceOption d) l w).1.1.1,
      ∃ reply, result = .ok reply)
    (hclears : clearsOf (read.run (session.callAll marks.reduceOption d) l w).1.1.1 ≠ []) :
    ∃ info, (read.run (Decryptor.info d) l w).1.1.1 = .ok info ∧
      read.run (session.callAll (marks.map (·.getD .info)) d) l w =
        let plain := read.run (session.callAll marks.reduceOption d) l w
        (((weave info marks plain.1.1.1, plain.1.1.2), plain.1.2), plain.2) := by
  obtain ⟨first, others, reply, hcalls, hopens, hreply⟩ := hd.exists_first hok hclears
  cases hinfo : read.run (Decryptor.info d) l w with
  | mk x w' =>
  obtain ⟨⟨fault | info, d'⟩, l'⟩ := x
  · have hfails := run_step_of_unread read hd l w hopens
    rw [hinfo] at hfails
    obtain ⟨fault, hfault⟩ := hfails
    cases hreply.symm.trans hfault
  · -- All calls can be taken to begin behind the head, where the metadata is known.
    rw [hcalls] at hok ⊢
    rw [hd.run_callAll hinfo others hopens, ← hcalls] at hok ⊢
    refine ⟨info, rfl, ?_⟩
    rw [← run_callAll_of_knows (hd.knows hinfo) marks hok]
    cases marks with
    | nil => cases hcalls
    | cons mark marks =>
      refine hd.run_callAll hinfo _ ?_
      cases mark with
      | none => decide
      | some call =>
        rw [List.reduceOption_cons_of_some] at hcalls
        obtain ⟨rfl, -⟩ := List.cons.inj hcalls
        exact hopens

end asked

end Decryptor

/-! ### Streams -/

section streams

open Decryptor

/-- A session that has started has read no more than its first header. -/
theorem Decryptor.unread_of_run_start {w v : World} {d : Decryptor}
    (h : w.run (start credential) = (.ok d, v)) : d.Unread := by
  have hstart : Ends Source.host (start credential) () w _ _ :=
    ends_start (supplies_delivered w.delivered fun _ => True)
      (total_deliveredSupply w.delivered _) credential (deliveredSupply_start fun _ _ => trivial)
  obtain ⟨-, -, hfresh⟩ := hstart.of_run_ok h
  exact ⟨hfresh.stage, hfresh.metadata⟩

/-- The metadata of a stream is what its first session gives. -/
theorem fst_run_streamInfo {w v : World} {d : Decryptor}
    (h : w.run (start credential) = (.ok d, v)) :
    (w.run (streamInfo credential)).1 = (v.run (Decryptor.info d)).1.1 := by
  have hopen : w.run (openPass credential)
      = ((v.run (Decryptor.info d)).1.1.map (·, (v.run (Decryptor.info d)).1.2),
          (v.run (Decryptor.info d)).2) := by
    unfold openPass
    rw [World.run_bind, h]
    exact World.run_bind _ _ _
  rw [run_streamInfo, hopen]
  rcases v.run (Decryptor.info d) with ⟨⟨fault | info, d'⟩, v'⟩
  · rfl
  · rfl

/-- **The metadata of a framed stream** is told by its first header and as many bytes as that
says. -/
theorem streamInfo_congr {w v : World} (hw : w.InPieces) (hv : v.InPieces)
    (hm : WireFormat.ofHeader (w.bytes.extract 0 Limits.headerBytes) ≠ .ok .message)
    (h : w.bytes.extract 0 (Limits.headerBytes + readLE (w.bytes.extract 34 37))
      = v.bytes.extract 0 (Limits.headerBytes + readLE (w.bytes.extract 34 37))) :
    (w.run (streamInfo credential)).1 = (v.run (streamInfo credential)).1 := by
  have hheader := extract_of_extract_eq h (i := 0) (Nat.le_add_right Limits.headerBytes _)
  rw [streamInfo_eq_infoOf hw hm, streamInfo_eq_infoOf hv (hheader ▸ hm), infoOf_congr hm h]

/-- **Asking a session for its metadata** changes nothing for its other calls. -/
theorem run_callAll_of_run_start {w v : World} {d : Decryptor}
    (hstart : w.run (start credential) = (.ok d, v)) (marks : List (Option Call))
    (hok : ∀ result ∈ (v.run (callAll marks.reduceOption d)).1.1, ∃ reply, result = .ok reply)
    (hclears : clearsOf (v.run (callAll marks.reduceOption d)).1.1 ≠ []) :
    ∃ info, (w.run (streamInfo credential)).1 = .ok info ∧
      v.run (callAll (marks.map (·.getD .info)) d)
        = ((weave info marks (v.run (callAll marks.reduceOption d)).1.1,
              (v.run (callAll marks.reduceOption d)).1.2),
            (v.run (callAll marks.reduceOption d)).2) := by
  have hwoven := run_callAll_of_unread Source.host (unread_of_run_start hstart) () v marks
  simp only [session_callAll, Source.run_host] at hwoven
  obtain ⟨info, hinfo, hrun⟩ := hwoven hok hclears
  obtain ⟨hresults, hworld⟩ := Prod.mk.inj hrun
  exact ⟨info, (fst_run_streamInfo hstart).trans hinfo,
    Prod.ext (Prod.mk.inj hresults).1 hworld⟩

/-- **The metadata of a stream is in its head alone, and asking for it is harmless.**  It is the
same for all framed streams that agree on their first header and on as many bytes as that says.
Where there is none, decrypting fails in the same way and asks nothing; otherwise the first question
of decrypting is the one that goes with it, and a single pass is opened.  And wherever a session is
asked for it, between calls of which none fails and one gives clear text, it gives that metadata,
and nothing else is changed. -/
theorem metadata_of_head (credential : Credential) :
    (∀ w v : World, w.InPieces → v.InPieces →
      WireFormat.ofHeader (w.bytes.extract 0 Limits.headerBytes) ≠ .ok .message →
      w.bytes.extract 0 (Limits.headerBytes + readLE (w.bytes.extract 34 37))
        = v.bytes.extract 0 (Limits.headerBytes + readLE (w.bytes.extract 34 37)) →
      (w.run (streamInfo credential)).1 = (v.run (streamInfo credential)).1) ∧
    (∀ w : World, match w.run (streamInfo credential) with
      | (.error fault, v) => w.run (openStream w.inputBound credential) = (.error fault, v) ∧
          w.decrypt credential = (.error fault, v) ∧ v.asked = w.asked
      | (.ok info, v) =>
          (info.loop.index = 1 →
            ∃ p, w.run (openStream w.inputBound credential) = (.ok p, v) ∧ v.asked = w.asked) ∧
          ∃ later, (w.decrypt credential).2.asked = w.asked ++ info :: later) ∧
    ∀ (w v : World) (d : Decryptor) (marks : List (Option Call)),
      w.run (Decryptor.start credential) = (.ok d, v) →
      let plain := v.run (callAll marks.reduceOption d)
      (∀ result ∈ plain.1.1, ∃ reply, result = .ok reply) → clearsOf plain.1.1 ≠ [] →
      ∃ info, (w.run (streamInfo credential)).1 = .ok info ∧
        v.run (callAll (marks.map (·.getD .info)) d)
          = ((weave info marks plain.1.1, plain.1.2), plain.2) :=
  ⟨fun _ _ hw hv hm hsame => streamInfo_congr hw hv hm hsame, decrypt_of_streamInfo credential,
    fun _ _ _ marks hstart hok hclears => run_callAll_of_run_start hstart marks hok hclears⟩

/-- A pass of one block, and the same with a byte behind it: both have the metadata of the block,
and a session that is asked for it before and after the block gives it twice, and the block as
well. -/
theorem metadata_of_head_oneBlock :
    ∃ (items items' : List InputItem) (info : PassInfo) (d e : Decryptor) (v v' : World),
      let provider : List PassInfo → Except Fault Answer := fun _ => .ok ⟨"secret", none⟩
      let w : World := { input := items, provider }
      let w' : World := { input := items', provider }
      (w.InPieces ∧ w'.InPieces ∧ w.bytes ≠ w'.bytes ∧
        WireFormat.ofHeader (w.bytes.extract 0 Limits.headerBytes) ≠ .ok .message ∧
        w.bytes.extract 0 (Limits.headerBytes + readLE (w.bytes.extract 34 37))
          = w'.bytes.extract 0 (Limits.headerBytes + readLE (w.bytes.extract 34 37))) ∧
      (w.run (streamInfo ⟨.zeros 32⟩)).1 = .ok info ∧
      (w'.run (streamInfo ⟨.zeros 32⟩)).1 = .ok info ∧
      w.run (start ⟨.zeros 32⟩) = (.ok d, v) ∧
      v.run (callAll [.block] d) = (([.ok (.inr (ofList [1, 2, 3]))], e), v') ∧
      v.run (callAll [.info, .block, .info] d)
        = (([.ok (.inl info), .ok (.inr (ofList [1, 2, 3])), .ok (.inl info)], e), v') := by
  obtain ⟨b, hrange, haccepted⟩ := exists_accepted_head ⟨.zeros 32⟩ (by decide : "secret" ≠ "")
    (by decide : (ofList [1, 2, 3]).size ≤ Limits.readMax)
  obtain ⟨items, hitems, hbytes⟩ := exists_pieces (b.toByteArray .chained ++ .empty)
  obtain ⟨items', hitems', hbytes'⟩ := exists_pieces (b.toByteArray .chained ++ ofList [0])
  let w : World := { input := items, provider := fun _ => .ok ⟨"secret", none⟩ }
  let w' : World := { input := items', provider := fun _ => .ok ⟨"secret", none⟩ }
  have hw : w.InPieces := hitems
  have hw' : w'.InPieces := hitems'
  have hwbytes : w.bytes = b.toByteArray .chained ++ .empty := hbytes
  have hwbytes' : w'.bytes = b.toByteArray .chained ++ ofList [0] := hbytes'
  have hdiffer : w.bytes ≠ w'.bytes := by
    rw [hwbytes, hwbytes', ne_eq, ByteArray.append_right_inj]
    decide
  have hframed : WireFormat.ofHeader (w.bytes.extract 0 Limits.headerBytes) ≠ .ok .message := by
    rw [hwbytes, b.ofHeader_toByteArray (by decide)]
    decide
  have hsame : w.bytes.extract 0 (Limits.headerBytes + readLE (w.bytes.extract 34 37))
      = w'.bytes.extract 0 (Limits.headerBytes + readLE (w.bytes.extract 34 37)) := by
    have hfield : readLE (w.bytes.extract 34 37) = b.payload.size := by
      rw [hwbytes]
      exact hrange.readLE_size .empty
    rw [hfield, ← b.size_toByteArray .chained, hwbytes, hwbytes', extract_append_left rfl,
      extract_append_left rfl]
  obtain ⟨hheads, -, hharmless⟩ := metadata_of_head ⟨.zeros 32⟩
  obtain ⟨d, v, e, v', hstart, hrun, -⟩ := haccepted hw hwbytes rfl
  have hplain := run_callAll_block hrun
  have hwoven := hharmless w v d [none, some .block, none] hstart
  rw [show [none, some Call.block, none].reduceOption = [.block] from rfl, hplain] at hwoven
  obtain ⟨info, hinfo, hrun'⟩ := hwoven
    (fun result hresult => ⟨_, List.mem_singleton.1 hresult⟩) (List.cons_ne_nil _ _)
  exact ⟨items, items', info, d, e, v, v', ⟨hw, hw', hdiffer, hframed, hsame⟩, hinfo,
    (hheads w w' hw hw' hframed hsame).symm.trans hinfo, hstart, hplain, hrun'⟩

end streams

end SealedStream
