import SealedStream.Proofs.Bound
import SealedStream.Proofs.CommandLine.Requests

/-!
# Sessions of a command

A session of a command runs as it does in a world of values: the rest of the input is the input
there, in one piece, random bytes and stretched keys are the same, and what is typed at the terminal
determines the answers (`Mirrors`).

* `Mirrors.perform_session`: what comes of a session.
-/

namespace SealedStream.CommandLine

variable {α : Type} {provider : Provider} {input : Input} {m m' : Machine} {w : World}

/-! ### Input -/

/-- Whether input is read as it comes. -/
def Input.isDirect : Input → Bool
  | direct => true
  | memory _ => false

/-- A string as items: in one piece, unless there is none of it. -/
def itemsOf (bytes : ByteArray) : List InputItem :=
  if bytes.isEmpty then [] else [.data bytes]

/-- A part of a string ends with it. -/
theorem extract_min (bytes : ByteArray) (i j : Nat) :
    bytes.extract i j = bytes.extract i (min j bytes.size) := by
  have h := ByteArray.extract_extract (a := bytes) (i := 0) (j := bytes.size) (k := i) (l := j)
  rwa [ByteArray.extract_zero_size, Nat.zero_add, Nat.zero_add] at h

theorem extract_empty (i j : Nat) : ByteArray.empty.extract i j = .empty :=
  ByteArray.extract_eq_empty_iff.2 (Nat.le_trans (Nat.min_le_right j _) (Nat.zero_le i))

theorem readItems_itemsOf (size : Nat) (bytes : ByteArray) :
    readItems size (itemsOf bytes)
      = (.ok (bytes.extract 0 size), itemsOf (bytes.extract size bytes.size)) := by
  unfold itemsOf
  by_cases hempty : bytes = .empty
  · subst hempty
    rw [extract_empty, extract_empty]
    rfl
  rw [if_neg (mt isEmpty_iff.1 hempty), readItems]
  split
  next hfits =>
    have hall : bytes.extract 0 size = bytes := by
      rw [extract_min, Nat.min_eq_right hfits, ByteArray.extract_zero_size]
    have hnone : bytes.extract size bytes.size = .empty :=
      ByteArray.extract_eq_empty_iff.2 (by omega)
    rw [hall, hnone]
    rfl
  next hlong =>
    have hmore : bytes.extract size bytes.size ≠ .empty := fun hnone => by
      have := ByteArray.extract_eq_empty_iff.1 hnone
      omega
    rw [if_neg (mt isEmpty_iff.1 hmore)]

/-- What is read behind some bytes, and what is left then. -/
theorem extract_rest (all : ByteArray) (start size : Nat) :
    all.extract start (start + size) = (all.extract start all.size).extract 0 size ∧
      all.extract (start + (all.extract start (start + size)).size) all.size
        = (all.extract start all.size).extract size (all.extract start all.size).size := by
  constructor
  · rw [ByteArray.extract_extract, Nat.add_zero, ← extract_min]
  · have hend : min (start + (all.extract start all.size).size) all.size = all.size := by
      rw [ByteArray.size_extract]
      omega
    rw [ByteArray.extract_extract, hend, ByteArray.extract_eq_extract_left, ByteArray.size_extract]
    omega

namespace Machine

/-- The rest of the input, if it has an end. -/
def unread? (m : Machine) : Input → Option ByteArray
  | .memory bytes => some bytes
  | .direct =>
    match m.source with
    | .directory | .device .zero | .device .full => none
    | .file name =>
      some ((m.files.content name).extract m.position (m.files.content name).size)
    | .device .standardInput => some (m.standardInput.extract m.inputRead m.standardInput.size)
    | .device _ => some .empty

/-- The rest of the input is that of one place, whatever becomes of others. -/
theorem unread?_eq (hsource : m'.source = m.source) (hinput : m'.standardInput = m.standardInput)
    (hread : m'.inputRead = m.inputRead) (hposition : m'.position = m.position)
    (hcontent : ∀ name, m.source = .file name → m'.files.content name = m.files.content name)
    (input : Input) : m'.unread? input = m.unread? input := by
  cases input with
  | memory bytes => rfl
  | direct =>
    rw [unread?, unread?, hsource]
    cases hplace : m.source with
    | directory => rfl
    | file name =>
      dsimp only
      rw [hcontent name hplace, hposition]
    | device device =>
      rw [hinput, hread]
      cases device <;> rfl

/-- Only input has been read. -/
structure HasRead (m m' : Machine) : Prop extends Idle m m' where
  source : m'.source = m.source

theorem HasRead.toAside (h : m.HasRead m') : m.Aside m' :=
  ⟨h.toKeeps, h.source⟩

theorem HasRead.refl (m : Machine) : m.HasRead m :=
  ⟨⟨.refl m, rfl, rfl, rfl⟩, rfl⟩

theorem HasRead.trans {m'' : Machine} (h : m.HasRead m') (h' : m'.HasRead m'') : m.HasRead m'' :=
  ⟨h.toIdle.trans h'.toIdle, h'.source.trans h.source⟩

/-- **A read** takes bytes from the front of the rest. -/
theorem exists_read {rest : ByteArray} (h : m.unread? .direct = some rest) (size : Nat) :
    ∃ m', m.read size = (.ok (rest.extract 0 size), m') ∧
      m'.unread? .direct = some (rest.extract size rest.size) ∧ HasRead m m' := by
  cases hsource : m.source with
  | directory =>
    rw [unread?, hsource] at h
    cases h
  | file name =>
    rw [unread?, hsource] at h
    cases h
    obtain ⟨hpiece, hrest⟩ := extract_rest (m.files.content name) m.position size
    refine ⟨{ m with position := m.position
      + ((m.files.content name).extract m.position (m.position + size)).size }, ?_, ?_,
      ⟨⟨rfl, rfl, rfl, rfl, rfl, rfl⟩, rfl, rfl, rfl⟩, rfl⟩
    · rw [read, hsource, ← hpiece]
    · rw [unread?, hsource]
      exact congrArg some hrest
  | device device =>
    rw [unread?, hsource] at h
    cases device with
    | zero | full => cases h
    | standardInput =>
      cases h
      obtain ⟨hpiece, hrest⟩ := extract_rest m.standardInput m.inputRead size
      refine ⟨{ m with inputRead := m.inputRead
        + (m.standardInput.extract m.inputRead (m.inputRead + size)).size }, ?_, ?_,
        ⟨⟨rfl, rfl, rfl, rfl, rfl, rfl⟩, rfl, rfl, rfl⟩, rfl⟩
      · rw [read, hsource, ← hpiece]
      · rw [unread?, hsource]
        exact congrArg some hrest
    | null | terminal | standardOutput | standardError =>
      cases h
      refine ⟨m, ?_, ?_, .refl m⟩
      · rw [read, hsource, extract_empty]
      · rw [unread?, hsource, extract_empty]

/-- So does a read of what was decoded. -/
theorem run_read {rest : ByteArray} (h : m.unread? input = some rest) (size : Nat) :
    ∃ input' m', m.run (input.read size) = ((.ok (rest.extract 0 size), input'), m') ∧
      m'.unread? input' = some (rest.extract size rest.size) ∧ HasRead m m' ∧
      input'.isDirect = input.isDirect := by
  cases input with
  | memory bytes =>
    cases h
    exact ⟨_, _, rfl, rfl, .refl m, rfl⟩
  | direct =>
    obtain ⟨m', hread, hleft, hhas⟩ := exists_read h size
    refine ⟨.direct, m', ?_, hleft, hhas, rfl⟩
    refine (m.run_bind (ask (.read size)) _).trans ?_
    rw [run_ask, show m.answer (.read size) = _ from hread]
    rfl

end Machine

/-! ### Answers -/

theorem Machine.prompt_of_terminal_eq (text : String) {m₁ m₂ : Machine}
    (h : m₁.terminal = m₂.terminal) :
    (m₁.prompt text).1 = (m₂.prompt text).1 ∧
      (m₁.prompt text).2.terminal = (m₂.prompt text).2.terminal := by
  cases hterminal : m₂.terminal with
  | none => simp [prompt, h, hterminal]
  | some typed =>
    simp only [prompt, h, hterminal]
    rcases HiddenLine.type .none {} typed with ⟨ending, line, rest⟩
    cases ending <;> exact ⟨rfl, rfl⟩

/-- What has been typed determines an answer, and what is left for the next. -/
theorem Machine.run_of_terminal_eq {p : Program Shell α} (h : p.Only ShellRequest.Prompts)
    {m₁ m₂ : Machine} (hterminal : m₁.terminal = m₂.terminal) :
    (m₁.run p).1 = (m₂.run p).1 ∧ (m₁.run p).2.terminal = (m₂.run p).2.terminal := by
  induction h generalizing m₁ m₂ with
  | done a => exact ⟨rfl, hterminal⟩
  | @ask r next hr _ ih =>
    obtain ⟨text, rfl⟩ := hr
    obtain ⟨hreply, hleft⟩ := prompt_of_terminal_eq text hterminal
    have hnext := ih (m₁.prompt text).1 hleft
    have hrun : ∀ m : Machine, m.run (.ask (I := Shell) (.prompt text) next)
        = (m.prompt text).2.run (next (m.prompt text).1) := fun _ => rfl
    rw [hrun, hrun, ← hreply]
    exact hnext

/-- Only questions have been asked. -/
structure Machine.HasAsked (m m' : Machine) : Prop extends Aside m m' where
  inputRead : m'.inputRead = m.inputRead
  position : m'.position = m.position
  drawn : m'.drawn = m.drawn
  keys : m'.keys = m.keys

theorem Machine.hasAsked_prompt (text : String) (m : Machine) : m.HasAsked (m.prompt text).2 := by
  have haside : m.Aside (m.prompt text).2 := Aside.answer (r := .prompt text) trivial m
  revert haside
  unfold prompt
  split
  · exact fun haside => ⟨haside, rfl, rfl, rfl, rfl⟩
  · dsimp only
    split <;> exact fun haside => ⟨haside, rfl, rfl, rfl, rfl⟩

theorem Machine.hasAsked_run {p : Program Shell α} (h : p.Only ShellRequest.Prompts)
    (m : Machine) : m.HasAsked (m.run p).2 := by
  refine h.run m.HasAsked (fun r m' hr hasked => ?_) ⟨.refl m, rfl, rfl, rfl, rfl⟩
  obtain ⟨text, rfl⟩ := hr
  have hprompt := hasAsked_prompt text m'
  exact ⟨hasked.toAside.trans hprompt.toAside, hprompt.inputRead.trans hasked.inputRead,
    hprompt.position.trans hasked.position, hprompt.drawn.trans hasked.drawn,
    hprompt.keys.trans hasked.keys⟩

/-- The reply to the last of some questions in turn, and the machine after them. -/
def Machine.questioned (provider : Provider) (m : Machine) (infos : List PassInfo) :
    Except Fault Answer × Machine :=
  infos.foldl (fun x info => x.2.run (provider info)) (.error .cancelled, m)

/-- The replies depend on what has been typed, and on nothing else about a machine. -/
theorem Machine.questioned_of_terminal_eq
    (hprovider : ∀ info, (provider info).Only ShellRequest.Prompts)
    (h : m'.terminal = m.terminal) (infos : List PassInfo) :
    (m'.questioned provider infos).1 = (m.questioned provider infos).1 := by
  suffices hfold : ∀ x x' : Except Fault Answer × Machine, x'.1 = x.1 →
      x'.2.terminal = x.2.terminal →
      (infos.foldl (fun x info => x.2.run (provider info)) x').1
        = (infos.foldl (fun x info => x.2.run (provider info)) x).1 from hfold _ _ rfl h
  clear h
  induction infos with
  | nil => exact fun x x' hreply _ => hreply
  | cons info infos ih =>
    intro x x' _ hterminal
    obtain ⟨hreply, hleft⟩ := run_of_terminal_eq (hprovider info) hterminal
    exact ih _ _ hreply hleft

/-- A reply does not depend on those before it, but for what they left to be typed. -/
theorem Machine.questioned_cons (info : PassInfo) {infos : List PassInfo} (h : infos ≠ [])
    (m : Machine) :
    m.questioned provider (info :: infos)
      = (m.run (provider info)).2.questioned provider infos := by
  obtain ⟨next, infos, rfl⟩ := List.exists_cons_of_ne_nil h
  rfl

/-! ### Worlds -/

/-- A world in which a session runs as on a machine. -/
structure Mirrors (provider : Provider) (input : Input) (m : Machine) (w : World) : Prop where
  input : ∃ rest, m.unread? input = some rest ∧ w.input = itemsOf rest
  tape : w.tape = m.tape
  drawn : w.drawn = m.drawn
  keys : w.keys = m.keys
  answers : ∀ infos, infos ≠ [] →
    w.provider (w.asked ++ infos) = (m.questioned provider infos).1

/-- The world that some input makes of a machine. -/
def Machine.world (provider : Provider) (m : Machine) (bytes : ByteArray) : World where
  input := itemsOf bytes
  tape := m.tape
  drawn := m.drawn
  provider infos := (m.questioned provider infos).1
  keys := m.keys

namespace Mirrors

variable (hprovider : ∀ info, (provider info).Only ShellRequest.Prompts)
include hprovider

/-- A machine that has only opened and read its input is mirrored by its world. -/
theorem of_idle {bytes : ByteArray} (h : m.Idle m') (hrest : m'.unread? input = some bytes) :
    Mirrors provider input m' (m.world provider bytes) :=
  ⟨⟨bytes, hrest, rfl⟩, h.tape.symm, h.drawn.symm, h.keys.symm, fun infos _ =>
    (Machine.questioned_of_terminal_eq hprovider h.terminal infos).symm⟩

/-- **A request of a session** is answered as in the world. -/
theorem answer (h : Mirrors provider input m w) (r : HostRequest) :
    ∃ input' m', m.run (serveSession provider r input) = (((World.answer r w).1, input'), m') ∧
      Mirrors provider input' m' (World.answer r w).2 ∧ m.Aside m' ∧
      input'.isDirect = input.isDirect := by
  have hanswers : ∀ m' : Machine, m'.terminal = m.terminal → ∀ infos, infos ≠ [] →
      w.provider (w.asked ++ infos) = (m'.questioned provider infos).1 :=
    fun m' hterminal infos hne => (h.answers infos hne).trans
      (Machine.questioned_of_terminal_eq hprovider hterminal infos).symm
  cases r with
  | read size =>
    obtain ⟨rest, hrest, hinput⟩ := h.input
    obtain ⟨input', m', hread, hleft, hhas, hkind⟩ := Machine.run_read hrest size
    have hanswer : World.answer (.read size) w = (.ok (rest.extract 0 size),
        { w with input := itemsOf (rest.extract size rest.size) }) := by
      rw [World.answer, hinput, readItems_itemsOf]
    refine ⟨input', m', ?_, ?_, hhas.toAside, hkind⟩
    · refine (m.run_bind (input.read size) _).trans ?_
      rw [hread, hanswer]
      rfl
    · rw [hanswer]
      exact ⟨⟨_, hleft, rfl⟩, h.tape.trans hhas.tape.symm, h.drawn.trans hhas.drawn.symm,
        h.keys.trans hhas.keys.symm, hanswers m' hhas.terminal⟩
  | draw size =>
    have hbytes : World.tapeBytes w.tape w.drawn size = World.tapeBytes m.tape m.drawn size := by
      rw [h.tape, h.drawn]
    refine ⟨input, { m with drawn := m.drawn + size }, ?_, ?_,
      ⟨⟨rfl, rfl, rfl, rfl, rfl, rfl⟩, rfl⟩, rfl⟩
    · show _ = ((World.tapeBytes w.tape w.drawn size, input), _)
      rw [hbytes]
      rfl
    · exact ⟨h.input, h.tape, congrArg (· + size) h.drawn, h.keys,
        hanswers { m with drawn := m.drawn + size } rfl⟩
  | password info =>
    have hasked := Machine.hasAsked_run (hprovider info) m
    refine ⟨input, (m.run (provider info)).2, ?_, ?_, hasked.toAside, rfl⟩
    · refine (m.run_bind (provider info) _).trans ?_
      show _ = ((w.provider (w.asked ++ [info]), input), _)
      rw [h.answers [info] (List.cons_ne_nil _ _)]
      rfl
    · obtain ⟨rest, hrest, hinput⟩ := h.input
      refine ⟨⟨rest, ?_, hinput⟩, h.tape.trans hasked.tape.symm, h.drawn.trans hasked.drawn.symm,
        h.keys.trans hasked.keys.symm, fun infos hne => ?_⟩
      · rw [← hrest]
        exact Machine.unread?_eq hasked.source hasked.standardInput hasked.inputRead
          hasked.position (fun name _ => congrArg (·.content name) hasked.files) input
      · show w.provider (w.asked ++ [info] ++ infos) = _
        rw [List.append_assoc, List.singleton_append, h.answers _ (List.cons_ne_nil _ _),
          Machine.questioned_cons info hne]
  | derive d =>
    refine ⟨input, { m with keys := (m.keys.derive d).2 }, ?_, ?_,
      ⟨⟨rfl, rfl, rfl, rfl, rfl, rfl⟩, rfl⟩, rfl⟩
    · show _ = (((w.keys.derive d).1, input), _)
      rw [h.keys]
      rfl
    · refine ⟨h.input, h.tape, h.drawn, ?_, hanswers { m with keys := (m.keys.derive d).2 } rfl⟩
      show (w.keys.derive d).2 = _
      rw [h.keys]

/-- A program that is served as a session runs as in the world.  The induction is on the program. -/
theorem run_session (h : Mirrors provider input m w) (p : Program Host α) :
    ∃ input' m', m.run (p.serve (J := Shell) (serveSession provider) input)
        = (((w.run p).1, input'), m') ∧
      Mirrors provider input' m' (w.run p).2 ∧ m.Aside m' ∧
      input'.isDirect = input.isDirect := by
  induction p generalizing input m w with
  | done a => exact ⟨input, m, rfl, h, .refl m, rfl⟩
  | ask r next ih =>
    obtain ⟨input₁, m₁, hfirst, hmirrors, haside, hkind⟩ := answer hprovider h r
    obtain ⟨input', m', hrest, hmirrors', haside', hkind'⟩ := ih (World.answer r w).1 hmirrors
    refine ⟨input', m', ?_, hmirrors', haside.trans haside', hkind'.trans hkind⟩
    refine (m.run_bind (serveSession provider r input) _).trans ?_
    rw [hfirst]
    exact hrest

/-- **A session** runs as in the world. -/
theorem perform_session (h : Mirrors provider input m w) (p : Program Host α) :
    ∃ input' m', m.perform (Action.session provider p) input
        = ((.ok (w.run p).1, input'), m') ∧
      Mirrors provider input' m' (w.run p).2 ∧ m.Aside m' ∧
      input'.isDirect = input.isDirect := by
  obtain ⟨input', m', hrun, hsession⟩ := run_session hprovider h p
  exact ⟨input', m', Machine.perform_session input m provider p hrun, hsession⟩

end Mirrors

end SealedStream.CommandLine
