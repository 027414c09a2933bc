import SealedStream.Proofs.CommandLine.Session

/-!
# Writing an output

What the passes of a command give is written as it comes, or as one armored text.  As long as the
output is not the input, this writes what reading the passes to their end gives in a world that
mirrors the machine (`Mirrors.perform_drain`); it fails if that fails, or if there is no room.
-/

namespace SealedStream.CommandLine

variable {ε : Type} {provider : Provider} {input : Input} {m m' : Machine} {w : World}

/-! ### Outputs -/

/-- Whether a string can be written. -/
def Sink.takes (sink : Sink) (bytes : ByteArray) : Bool :=
  sink ≠ .device .full || bytes.isEmpty

namespace Machine

/-- What the output holds, if it keeps what is written. -/
def output? (m : Machine) : Option ByteArray :=
  match m.sink with
  | .file name => some (m.files.content name)
  | .device .standardOutput => some m.standardOutput
  | .device _ => none

/-- Some bytes have been added to the output. -/
structure Adds (m : Machine) (bytes : ByteArray) (m' : Machine) : Prop where
  sink : m'.sink = m.sink
  output : m'.output? = m.output?.map (· ++ bytes)
  has : ∀ name, m.sink = .file name → m.files.has name = true → m'.files.has name = true

theorem Aside.adds (h : m.Aside m') : m.Adds .empty m' := by
  refine ⟨h.sink, ?_, fun name _ hhas => by rwa [h.files]⟩
  rw [output?, output?, h.sink, h.files, h.standardOutput]
  simp

theorem Adds.trans {m'' : Machine} {bytes bytes' : ByteArray} (h : m.Adds bytes m')
    (h' : m'.Adds bytes' m'') : m.Adds (bytes ++ bytes') m'' := by
  refine ⟨h'.sink.trans h.sink, ?_, fun name hsink hhas =>
    h'.has name (h.sink.trans hsink) (h.has name hsink hhas)⟩
  rw [h'.output, h.output, Option.map_map]
  refine congrArg (m.output?.map ·) (funext fun before => ?_)
  exact ByteArray.append_assoc

/-- The input is no file that is written to. -/
def Apart (sink : Sink) (input : Input) (m : Machine) : Prop :=
  input.isDirect → ∀ name, m.source = .file name → sink ≠ .file name

theorem Apart.of_source_eq {sink : Sink} {input' : Input} (h : m.Apart sink input)
    (hsource : m'.source = m.source) (hkind : input'.isDirect = input.isDirect) :
    m'.Apart sink input' :=
  fun hdirect name hname => h (hkind ▸ hdirect) name (hsource ▸ hname)

theorem write_eq_ok (h : m.sink ≠ .device .full) (bytes : ByteArray) :
    ∃ m', m.write bytes = (.ok (), m') ∧ m.Adds bytes m' := by
  unfold write
  split
  next name hsink =>
    refine ⟨_, rfl, rfl, by simp [output?, hsink], fun other hother _ => ?_⟩
    cases hsink.symm.trans hother
    exact Files.has_put _ _ _
  next device hsink =>
    split
    next => exact ⟨_, rfl, rfl, by simp [output?, hsink], fun _ _ h => h⟩
    next => exact ⟨_, rfl, rfl, by simp [output?, hsink], fun _ _ h => h⟩
    next => exact absurd hsink h
    next hother _ _ => exact ⟨_, rfl, rfl, by simp [output?, hsink], fun _ _ h => h⟩

theorem write_eq_error (h : m.sink = .device .full) (bytes : ByteArray) :
    m.write bytes = (.error .noSpace, m) := by
  rw [write, h]

/-- Nothing has happened but to one output. -/
structure HasWritten (sink : Sink) (m m' : Machine) : Prop where
  contents : ∀ name, sink ≠ .file name → m'.files.content name = m.files.content name
  standardInput : m'.standardInput = m.standardInput
  inputRead : m'.inputRead = m.inputRead
  position : m'.position = m.position
  tape : m'.tape = m.tape
  drawn : m'.drawn = m.drawn
  keys : m'.keys = m.keys
  terminal : m'.terminal = m.terminal
  source : m'.source = m.source

theorem hasWritten_write (bytes : ByteArray) (m : Machine) :
    m.HasWritten m.sink (m.write bytes).2 := by
  unfold write
  split
  next name hsink =>
    refine ⟨fun other hother => Files.content_put_of_ne _ fun hname => hother ?_,
      rfl, rfl, rfl, rfl, rfl, rfl, rfl, rfl⟩
    rw [hname, hsink]
  next device hsink =>
    split <;> exact ⟨fun _ _ => rfl, rfl, rfl, rfl, rfl, rfl, rfl, rfl, rfl⟩

end Machine

/-- **What is written elsewhere** makes no difference to a session. -/
theorem Mirrors.written {sink : Sink} (h : Mirrors provider input m w)
    (hprovider : ∀ info, (provider info).Only ShellRequest.Prompts) (hapart : m.Apart sink input)
    (hwritten : m.HasWritten sink m') : Mirrors provider input m' w := by
  obtain ⟨rest, hrest, hinput⟩ := h.input
  refine ⟨⟨rest, ?_, hinput⟩, h.tape.trans hwritten.tape.symm, h.drawn.trans hwritten.drawn.symm,
    h.keys.trans hwritten.keys.symm, fun infos hne => (h.answers infos hne).trans
      (Machine.questioned_of_terminal_eq hprovider hwritten.terminal infos).symm⟩
  rw [← hrest]
  cases input with
  | memory bytes => rfl
  | direct =>
    exact Machine.unread?_eq hwritten.source hwritten.standardInput hwritten.inputRead
      hwritten.position (fun name hsource => hwritten.contents name (hapart rfl name hsource)) _

namespace Machine

/-- An action stops the command. -/
def Stops (a : Action Unit) (input : Input) (m : Machine) : Prop :=
  ∃ report input' m', m.perform a input = ((.error report, input'), m')

/-- An action adds some bytes to the output, or stops the command if there is no room for them. -/
def Delivers (a : Action Unit) (input : Input) (m : Machine) (bytes : ByteArray) : Prop :=
  if m.sink.takes bytes then
    ∃ input' m', m.perform a input = ((.ok (), input'), m') ∧ m.Adds bytes m'
  else m.Stops a input

theorem stops_bind {α : Type} {a : Action α} {f : α → Action Unit} {b : α} {input' : Input}
    (h : m.perform a input = ((.ok b, input'), m')) (hstops : m'.Stops (f b) input') :
    m.Stops (a >>= f) input := by
  rw [Stops, perform_bind_of_ok input m h]
  exact hstops

theorem stops_bind_of_error {α : Type} {a : Action α} {f : α → Action Unit} {report : Report}
    {input' : Input} (h : m.perform a input = ((.error report, input'), m')) :
    m.Stops (a >>= f) input :=
  ⟨_, _, _, perform_bind_of_error input m h⟩

theorem delivers_of_takes {a : Action Unit} {bytes : ByteArray} (h : m.sink.takes bytes = true) :
    m.Delivers a input bytes ↔
      ∃ input' m', m.perform a input = ((.ok (), input'), m') ∧ m.Adds bytes m' := by
  rw [Delivers, if_pos h]

theorem delivers_of_not_takes {a : Action Unit} {bytes : ByteArray}
    (h : ¬ m.sink.takes bytes = true) : m.Delivers a input bytes ↔ m.Stops a input := by
  rw [Delivers, if_neg h]

theorem Stops.of_perform_eq {a b : Action Unit} {input' : Input} (hb : m'.Stops b input')
    (h : m.perform a input = m'.perform b input') : m.Stops a input := by
  rwa [Stops, h]

end Machine

theorem Sink.takes_empty (sink : Sink) : sink.takes .empty = true := by
  rw [takes, isEmpty_iff.2 rfl, Bool.or_true]

theorem Sink.takes_of_ne {sink : Sink} (h : sink ≠ .device .full) (bytes : ByteArray) :
    sink.takes bytes = true := by
  rw [takes, decide_eq_true h, Bool.true_or]

theorem Sink.takes_full {bytes : ByteArray} : (Sink.device .full).takes bytes = bytes.isEmpty := rfl

namespace Machine

/-- What has been added before is a part of what is delivered. -/
theorem Delivers.of_perform_eq {a b : Action Unit} {input' : Input} {before bytes : ByteArray}
    (hb : m'.Delivers b input' bytes) (h : m.perform a input = m'.perform b input')
    (hadds : m.Adds before m') (hroom : m.sink ≠ .device .full) :
    m.Delivers a input (before ++ bytes) := by
  rw [delivers_of_takes (Sink.takes_of_ne (by rwa [hadds.sink]) _)] at hb
  obtain ⟨input'', m'', hperform, hlater⟩ := hb
  exact (delivers_of_takes (Sink.takes_of_ne hroom _)).2
    ⟨input'', m'', h.trans hperform, hadds.trans hlater⟩

/-- What comes after a session is delivered by both. -/
theorem Delivers.of_aside {a b : Action Unit} {input' : Input} {bytes : ByteArray}
    (hb : m'.Delivers b input' bytes) (h : m.perform a input = m'.perform b input')
    (haside : m.Aside m') : m.Delivers a input bytes := by
  by_cases htakes : m.sink.takes bytes
  · rw [delivers_of_takes (haside.sink ▸ htakes)] at hb
    obtain ⟨input'', m'', hperform, hadds⟩ := hb
    have hall := haside.adds.trans hadds
    rw [ByteArray.empty_append] at hall
    exact (delivers_of_takes htakes).2 ⟨input'', m'', h.trans hperform, hall⟩
  · rw [delivers_of_not_takes (haside.sink ▸ htakes)] at hb
    exact (delivers_of_not_takes htakes).2 (hb.of_perform_eq h)

theorem delivers_write (input : Input) {bytes : ByteArray} (report : OsError → Report)
    (h : bytes ≠ .empty) (m : Machine) : m.Delivers (Action.write bytes report) input bytes := by
  by_cases hfull : m.sink = .device .full
  · refine (delivers_of_not_takes ?_).2
      ⟨_, _, _, perform_orReport_of_error input m report (write_eq_error hfull bytes)⟩
    rw [hfull, Sink.takes_full, isEmpty_iff]
    exact h
  · obtain ⟨m', hwrite, hadds⟩ := write_eq_ok hfull bytes
    exact (delivers_of_takes (Sink.takes_of_ne hfull bytes)).2
      ⟨input, m', perform_orReport_of_ok (p := ask (.write bytes)) input m report hwrite, hadds⟩

/-- A piece is written before what follows, unless there is no room for it. -/
theorem perform_write_bind (input : Input) (piece : ByteArray) (report : OsError → Report)
    (rest : Action Unit) (m : Machine) :
    m.sink = .device .full ∧
        m.Stops (do
          Action.write piece report
          rest) input ∨
      ∃ m', m.sink ≠ .device .full ∧ m.HasWritten m.sink m' ∧ m.Adds piece m' ∧
        m.perform (do
          Action.write piece report
          rest) input = m'.perform rest input := by
  by_cases hfull : m.sink = .device .full
  · exact .inl ⟨hfull, stops_bind_of_error
      (perform_orReport_of_error input m report (write_eq_error hfull piece))⟩
  · obtain ⟨m', hwrite, hadds⟩ := write_eq_ok hfull piece
    have hwritten : m.HasWritten m.sink m' := by
      have := hasWritten_write piece m
      rwa [hwrite] at this
    exact .inr ⟨m', hfull, hwritten, hadds, perform_bind_of_ok input m
      (perform_orReport_of_ok (p := ask (.write piece)) input m report hwrite)⟩

end Machine

/-! ### Copying -/

/-- What is written for the bytes that the passes give. -/
def outputText (armor : Bool) (bytes : ByteArray) : ByteArray :=
  if armor then (Text.Base64Url.encodeArmor bytes).toUTF8 else bytes

/-- Armored text has a line end at least. -/
theorem outputText_armored_ne (bytes : ByteArray) : outputText true bytes ≠ .empty := by
  intro hempty
  have happend : (Text.Base64Url.encode bytes).toByteArray ++ "\n".toByteArray = .empty :=
    String.toByteArray_append.symm.trans hempty
  have hline := (ByteArray.append_eq_empty_iff.1 happend).2
  exact absurd hline (by decide)

section Copying

variable (E : Engine ε) (bound : Nat)
  (hprovider : ∀ info, (provider info).Only ShellRequest.Prompts)
include hprovider

/-- **What is copied** is what would be read.  The induction is on the number of pieces. -/
theorem Mirrors.perform_copy (n : Nat) (p : Pipeline ε) (out : ByteArray)
    (h : Mirrors provider input m w) (hapart : m.Apart m.sink input) :
    match (w.run (p.readFrom E bound n out)).1 with
    | .error _ => m.Stops (copy E bound provider n p) input
    | .ok all => ∃ written, all = out ++ written ∧
      m.Delivers (copy E bound provider n p) input written := by
  induction n generalizing input m w p out with
  | zero => exact ⟨_, input, m, rfl⟩
  | succ n ih =>
    obtain ⟨input₁, m₁, hsession, hmirrors, haside, hkind⟩ :=
      h.perform_session hprovider (p.read E bound Pipeline.pieceSize)
    have hapart₁ : m₁.Apart m₁.sink input₁ := by
      rw [haside.sink]
      exact hapart.of_source_eq haside.source hkind
    rw [Pipeline.readFrom, World.run_bind]
    unfold copy
    rcases hread : w.run (p.read E bound Pipeline.pieceSize) with ⟨⟨e | piece, p'⟩, w'⟩
    · rw [hread] at hsession
      exact Machine.stops_bind hsession ⟨_, _, _, rfl⟩
    rw [hread] at hsession hmirrors
    dsimp only at hmirrors ⊢
    have hcopy := Machine.perform_bind_of_ok input m hsession
      (f := fun x => (do
        let piece ← Action.orExplain (x.1.mapError Fault.ofIoFault)
        if piece.isEmpty then return
        Action.write piece fun e => .explain e.toFault
        copy E bound provider n x.2 : Action Unit))
    by_cases hempty : piece.isEmpty
    · -- The passes are at their end.
      rw [if_pos hempty]
      refine ⟨.empty, ByteArray.append_empty.symm, ?_⟩
      refine (Machine.delivers_of_takes (Sink.takes_empty _)).2 ⟨input₁, m₁, ?_, haside.adds⟩
      refine hcopy.trans ?_
      show m₁.perform (if piece.isEmpty then pure () else _) input₁ = _
      rw [if_pos hempty]
      rfl
    -- There is a piece, which is written before anything else is read.
    rw [if_neg hempty]
    have hpiece : m.perform (copy E bound provider (n + 1) p) input
        = m₁.perform (do
          Action.write piece fun e => .explain e.toFault
          copy E bound provider n p') input₁ := by
      refine hcopy.trans ?_
      show m₁.perform (if piece.isEmpty then pure () else _) input₁ = _
      rw [if_neg hempty]
    obtain ⟨hfull, hstops⟩ | ⟨m₂, hroom, hwritten, hadds, hrest⟩ :=
      m₁.perform_write_bind input₁ piece (fun e => .explain e.toFault) (copy E bound provider n p')
    · have hih := ih p' (out ++ piece) hmirrors hapart₁
      generalize (w'.run (p'.readFrom E bound n (out ++ piece))).1 = result at hih ⊢
      cases result with
      | error fault => exact hstops.of_perform_eq hpiece
      | ok all =>
        obtain ⟨written, rfl, -⟩ := hih
        refine ⟨piece ++ written, ByteArray.append_assoc, ?_⟩
        refine (Machine.delivers_of_not_takes ?_).2 (hstops.of_perform_eq hpiece)
        rw [← haside.sink, hfull, Sink.takes_full, isEmpty_iff, ByteArray.append_eq_empty_iff]
        exact fun h => hempty (isEmpty_iff.2 h.1)
    · have hmirrors₂ := hmirrors.written hprovider hapart₁ hwritten
      have hapart₂ : m₂.Apart m₂.sink input₁ := by
        rw [hadds.sink]
        exact hapart₁.of_source_eq hwritten.source rfl
      have hih := ih p' (out ++ piece) hmirrors₂ hapart₂
      generalize (w'.run (p'.readFrom E bound n (out ++ piece))).1 = result at hih ⊢
      cases result with
      | error fault => exact hih.of_perform_eq (hpiece.trans hrest)
      | ok all =>
        obtain ⟨written, rfl, hdelivers⟩ := hih
        refine ⟨piece ++ written, ByteArray.append_assoc, ?_⟩
        have hall := haside.adds.trans hadds
        rw [ByteArray.empty_append] at hall
        exact hdelivers.of_perform_eq (hpiece.trans hrest) hall (haside.sink ▸ hroom)

/-- **What an output is filled with** is what the passes give to their end. -/
theorem Mirrors.perform_drain (armor : Bool) (p : Pipeline ε) (h : Mirrors provider input m w)
    (hapart : m.Apart m.sink input) :
    match (w.run (p.readAll E bound)).1 with
    | .error _ => m.Stops (drain E bound provider armor p) input
    | .ok bytes => m.Delivers (drain E bound provider armor p) input (outputText armor bytes) := by
  cases armor with
  | false =>
    have hcopy := Mirrors.perform_copy E bound hprovider bound p .empty h hapart
    rw [Pipeline.readAll]
    generalize (w.run (p.readFrom E bound bound .empty)).1 = result at hcopy ⊢
    cases result with
    | error fault => exact hcopy
    | ok all =>
      obtain ⟨written, rfl, hdelivers⟩ := hcopy
      rw [ByteArray.empty_append]
      exact hdelivers
  | true =>
    obtain ⟨input₁, m₁, hsession, -, haside, -⟩ := h.perform_session hprovider (p.readAll E bound)
    generalize (w.run (p.readAll E bound)).1 = result at hsession ⊢
    cases result with
    | error fault => exact Machine.stops_bind hsession ⟨_, _, _, rfl⟩
    | ok bytes =>
      have hdrain := Machine.perform_bind_of_ok input m hsession
        (f := fun result => (do
          let bytes ← Action.orExplain result
          writeText (Text.Base64Url.encodeArmor bytes).toUTF8 : Action Unit))
      refine Machine.Delivers.of_aside ?_ hdrain haside
      exact Machine.delivers_write input₁ _ (outputText_armored_ne bytes) m₁

end Copying

end SealedStream.CommandLine
