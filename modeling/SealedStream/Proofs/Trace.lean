import SealedStream.Proofs.ChunkReader

/-!
# What happens to a session

A program can be run so that its requests and the replies to them are kept (`Program.traced`).  This
changes nothing else (`fst_map_traced`), and what is kept is all that the program ever learns of the
world around it: wherever the replies are the same, it does the same (`run_of_replays`).

A step is traced in the same way, with its events as a part of the state (`Step.traced`).  There is
one rule for each way of building a step, as for steps that are not traced.
-/

namespace SealedStream

/-! ### Programs as a monad -/

namespace Program

variable {I : Interface} {α β γ : Type}

theorem id_map (p : Program I α) : id <$> p = p := by
  show Program.bind p _ = p
  induction p with
  | done a => rfl
  | ask r next ih => exact congrArg (ask r) (funext ih)

theorem bind_assoc (p : Program I α) (f : α → Program I β) (g : β → Program I γ) :
    p >>= f >>= g = p >>= fun a => f a >>= g := by
  show Program.bind (Program.bind p f) g = Program.bind p _
  induction p with
  | done a => rfl
  | ask r next ih => exact congrArg (ask r) (funext ih)

end Program

instance (I : Interface) : LawfulMonad (Program I) :=
  .mk' _ Program.id_map (fun _ _ => rfl) Program.bind_assoc

/-! ### Events -/

/-- A request of a session and the reply to it. -/
abbrev Event := (r : HostRequest) × r.Reply

/-- Leaves a request to the host, and keeps it with its reply. -/
def keepEvent (r : HostRequest) (events : List Event) : Program Host (r.Reply × List Event) := do
  let reply ← Program.request (I := Host) r
  return (reply, events ++ [⟨r, reply⟩])

namespace Program

variable {α β : Type}

/-- The same program, which keeps its events behind those given. -/
def traced (p : Program Host α) (events : List Event) : Program Host (α × List Event) :=
  p.serve (J := Host) keepEvent events

theorem traced_ask (r : HostRequest) (next : r.Reply → Program Host α) (events : List Event) :
    traced (.ask (I := Host) r next) events =
      .ask (I := Host) r fun reply => (next reply).traced (events ++ [⟨r, reply⟩]) := rfl

theorem traced_bind (p : Program Host α) (f : α → Program Host β) (events : List Event) :
    (p >>= f).traced events = p.traced events >>= fun x => (f x.1).traced x.2 :=
  serve_bind (I := Host) (J := Host) keepEvent p f events

/-- **Keeping its events changes nothing** about a program. -/
theorem fst_map_traced (p : Program Host α) (events : List Event) :
    Prod.fst <$> p.traced events = p := by
  induction p generalizing events with
  | done a => rfl
  | ask r next ih => exact congrArg (ask (I := Host) r) (funext fun reply => ih reply _)

end Program

/-- What a program asks for in a world, and what it gets. -/
def World.eventsOf {α : Type} (p : Program Host α) (w : World) : List Event :=
  (w.run (p.traced [])).1.2

namespace World

variable {α : Type}

theorem run_map {β : Type} (f : α → β) (p : Program Host α) (w : World) :
    w.run (f <$> p) = (f (w.run p).1, (w.run p).2) := by
  rw [map_eq_pure_bind, run_bind]
  rfl

/-- A traced program ends as it does otherwise. -/
theorem run_traced (p : Program Host α) (events : List Event) (w : World) :
    w.run p = ((w.run (p.traced events)).1.1, (w.run (p.traced events)).2) := by
  have h := run_map Prod.fst (p.traced events) w
  rw [p.fst_map_traced events] at h
  exact h

theorem run_ask (r : HostRequest) (next : r.Reply → Program Host α) (w : World) :
    w.run (.ask (I := Host) r next) = (answer r w).2.run (next (answer r w).1) := rfl

theorem eventsOf_append (p : Program Host α) (events : List Event) (w : World) :
    (w.run (p.traced events)).1.2 = events ++ w.eventsOf p := by
  rw [eventsOf]
  suffices h : ∀ events later, (w.run (p.traced (events ++ later))).1.2
      = events ++ (w.run (p.traced later)).1.2 by
    have := h events []
    rwa [List.append_nil] at this
  intro events later
  induction p generalizing later w with
  | done a => rfl
  | ask r next ih =>
    rw [Program.traced_ask, Program.traced_ask, run_ask, run_ask, List.append_assoc]
    exact ih _ _ _

@[simp] theorem eventsOf_ask (r : HostRequest) (next : r.Reply → Program Host α) (w : World) :
    w.eventsOf (.ask (I := Host) r next) =
      ⟨r, (answer r w).1⟩ :: (answer r w).2.eventsOf (next (answer r w).1) := by
  rw [eventsOf, Program.traced_ask, run_ask, List.nil_append, eventsOf_append]
  rfl

/-- The world replies to some requests, one after another, as the events have it. -/
def Replays : World → List Event → Prop
  | _, [] => True
  | w, ⟨r, reply⟩ :: events => (answer r w).1 = reply ∧ (answer r w).2.Replays events

/-- **What a program learns decides what it does**: where its requests get the same replies, its
result is the same. -/
theorem run_of_replays (p : Program Host α) (w : World) {v : World} (h : v.Replays (w.eventsOf p)) :
    (v.run p).1 = (w.run p).1 ∧ v.eventsOf p = w.eventsOf p := by
  induction p generalizing w v with
  | done a => exact ⟨rfl, rfl⟩
  | ask r next ih =>
    rw [eventsOf_ask] at h ⊢
    obtain ⟨hreply, hrest⟩ := h
    rw [run_ask, run_ask, eventsOf_ask, hreply]
    obtain ⟨hresult, hevents⟩ := ih (answer r w).1 (answer r w).2 hrest
    exact ⟨hresult, congrArg _ hevents⟩

end World

/-! ### What was drawn and what was asked -/

/-- The random bytes that were drawn, one after another. -/
def drawnBytes (events : List Event) : ByteArray :=
  concat (events.map fun
    | ⟨.draw _, bytes⟩ => bytes.data
    | _ => .empty)

/-- The questions for passwords, and what they were answered with. -/
def questions (events : List Event) : List (PassInfo × Except Fault Answer) :=
  events.filterMap fun
    | ⟨.password info, reply⟩ => some (info, reply)
    | _ => none

@[simp] theorem drawnBytes_append (events later : List Event) :
    drawnBytes (events ++ later) = drawnBytes events ++ drawnBytes later := by
  rw [drawnBytes, List.map_append, concat_append]
  rfl

@[simp] theorem questions_append (events later : List Event) :
    questions (events ++ later) = questions events ++ questions later :=
  List.filterMap_append

/-- A question with its reply is an event. -/
theorem mem_of_mem_questions {events : List Event} {info : PassInfo} {reply : Except Fault Answer}
    (h : (info, reply) ∈ questions events) : ⟨.password info, reply⟩ ∈ events := by
  obtain ⟨event, hevent, hquestion⟩ := List.mem_filterMap.1 h
  obtain ⟨_ | _ | info' | _, reply'⟩ := event
  all_goals cases hquestion
  exact hevent

theorem drawnBytes_draw {n : Nat} (bytes : Bytes n) :
    drawnBytes [⟨.draw n, bytes⟩] = bytes.data :=
  ByteArray.append_empty

/-- Events that say nothing of random bytes and passwords. -/
structure Plain (events : List Event) : Prop where
  drawn : drawnBytes events = .empty
  asked : questions events = []

namespace Plain

theorem nil : Plain [] :=
  ⟨rfl, rfl⟩

theorem append {events later : List Event} (h : Plain events) (h' : Plain later) :
    Plain (events ++ later) where
  drawn := by rw [drawnBytes_append, h.drawn, h'.drawn, ByteArray.append_empty]
  asked := by rw [questions_append, h.asked, h'.asked, List.append_nil]

theorem read (n : Nat) (reply : Except IoFault ByteArray) : Plain [⟨.read n, reply⟩] :=
  ⟨rfl, rfl⟩

theorem derive (d : Derivation) (key : Key) : Plain [⟨.derive d, key⟩] :=
  ⟨rfl, rfl⟩

end Plain

/-- The tape has some bytes, from a position on. -/
def OnTape (tape : Nat → UInt8) (start : Nat) (bytes : ByteArray) : Prop :=
  (World.tapeBytes tape start bytes.size).data = bytes

namespace OnTape

variable {tape : Nat → UInt8} {start : Nat}

theorem tapeBytes_add (tape : Nat → UInt8) (start m n : Nat) :
    (World.tapeBytes tape start (m + n)).data
      = (World.tapeBytes tape start m).data ++ (World.tapeBytes tape (start + m) n).data :=
  ByteArray.ext (by simp [World.tapeBytes, Array.ofFn_add, Nat.add_assoc])

theorem tapeBytes (tape : Nat → UInt8) (start n : Nat) :
    OnTape tape start (World.tapeBytes tape start n).data := by
  rw [OnTape, Bytes.size_data]

theorem empty : OnTape tape start .empty := rfl

theorem append_iff {bytes later : ByteArray} :
    OnTape tape start (bytes ++ later) ↔
      OnTape tape start bytes ∧ OnTape tape (start + bytes.size) later := by
  rw [OnTape, ByteArray.size_append, tapeBytes_add]
  constructor
  · exact fun h => append_inj h (Bytes.size_data _)
  · rintro ⟨h, h'⟩
    rw [h, h']

/-- What is drawn from there. -/
theorem eq_tapeBytes {n : Nat} {bytes : Bytes n} (h : OnTape tape start bytes.data) :
    bytes = World.tapeBytes tape start n := by
  obtain ⟨data, rfl⟩ := bytes
  exact Bytes.ext h.symm

end OnTape

namespace World

/-- The questions are answered by a provider, the first after those in `asked`. -/
def Answers (provider : List PassInfo → Except Fault Answer) :
    (asked : List PassInfo) → List (PassInfo × Except Fault Answer) → Prop
  | _, [] => True
  | asked, (info, reply) :: later =>
    provider (asked ++ [info]) = reply ∧ Answers provider (asked ++ [info]) later

/-- A question is answered by the provider. -/
theorem Answers.exists_of_mem {provider : List PassInfo → Except Fault Answer} {info : PassInfo}
    {reply : Except Fault Answer} {put : List (PassInfo × Except Fault Answer)} :
    ∀ {asked}, Answers provider asked put → (info, reply) ∈ put →
      ∃ before, provider (before ++ [info]) = reply := by
  induction put with
  | nil => exact fun _ h => absurd h List.not_mem_nil
  | cons question later ih =>
    intro asked hanswers h
    rcases List.mem_cons.1 h with rfl | h
    · exact ⟨asked, hanswers.1⟩
    · exact ih hanswers.2 h

variable {α : Type} (p : Program Host α) (w : World)

/-- What a program draws is on the tape. -/
theorem onTape_eventsOf :
    OnTape w.tape w.drawn (drawnBytes (w.eventsOf p)) ∧ (w.run p).2.tape = w.tape ∧
      (w.run p).2.drawn = w.drawn + (drawnBytes (w.eventsOf p)).size := by
  induction p generalizing w with
  | done a => exact ⟨.empty, rfl, rfl⟩
  | ask r next ih =>
    obtain ⟨hdrawn, htape, hcount⟩ := ih (answer r w).1 (answer r w).2
    rw [run_ask, eventsOf_ask, ← List.singleton_append, drawnBytes_append]
    cases r with
    | draw n =>
      have hsize : (tapeBytes w.tape w.drawn n).data.size = n := Bytes.size_data _
      rw [show drawnBytes [⟨.draw n, (answer (.draw n) w).1⟩] = (tapeBytes w.tape w.drawn n).data
        from drawnBytes_draw _, OnTape.append_iff, ByteArray.size_append, hsize, ← Nat.add_assoc]
      exact ⟨⟨.tapeBytes _ _ _, hdrawn⟩, htape, hcount⟩
    | read n =>
      rw [(Plain.read n _).drawn, ByteArray.empty_append]
      exact ⟨hdrawn, htape, hcount⟩
    | password info =>
      rw [show drawnBytes [⟨.password info, (answer (.password info) w).1⟩] = .empty from rfl,
        ByteArray.empty_append]
      exact ⟨hdrawn, htape, hcount⟩
    | derive d =>
      rw [(Plain.derive d _).drawn, ByteArray.empty_append]
      exact ⟨hdrawn, htape, hcount⟩

/-- What a program asks is answered. -/
theorem answers_eventsOf :
    Answers w.provider w.asked (questions (w.eventsOf p)) ∧
      (w.run p).2.provider = w.provider ∧
      (w.run p).2.asked = w.asked ++ (questions (w.eventsOf p)).map Prod.fst := by
  induction p generalizing w with
  | done a => exact ⟨trivial, rfl, (List.append_nil _).symm⟩
  | ask r next ih =>
    obtain ⟨hanswers, hprovider, hasked⟩ := ih (answer r w).1 (answer r w).2
    rw [run_ask, eventsOf_ask, ← List.singleton_append, questions_append]
    cases r with
    | password info =>
      refine ⟨⟨rfl, hanswers⟩, hprovider, hasked.trans ?_⟩
      exact List.append_assoc _ _ _
    | read n => exact ⟨hanswers, hprovider, hasked⟩
    | draw n => exact ⟨hanswers, hprovider, hasked⟩
    | derive d => exact ⟨hanswers, hprovider, hasked⟩

end World

/-- A program that does no more than read. -/
inductive Program.ReadsOnly {α : Type} : Program Host α → Prop
  | done (a : α) : ReadsOnly (.done a)
  | ask {n : Nat} {next : Except IoFault ByteArray → Program Host α} :
    (∀ reply, ReadsOnly (next reply)) → ReadsOnly (.ask (HostRequest.read n) next)

theorem Program.ReadsOnly.bind {α β : Type} {p : Program Host α} (h : p.ReadsOnly)
    {f : α → Program Host β} (hf : ∀ a, (f a).ReadsOnly) : (p >>= f).ReadsOnly := by
  induction h with
  | done a => exact hf a
  | ask _ ih => exact .ask ih

/-! ### Traced steps -/

section steps

variable {ρ σ τ α β : Type} {read : Source ρ}

/-- A traced program whose reads are served by a source does what it does otherwise. -/
theorem Source.run_traced (p : Program Host α) (events : List Event) (l : ρ) (w : World) :
    read.run p l w = (((read.run (p.traced events) l w).1.1.1,
      (read.run (p.traced events) l w).1.2), (read.run (p.traced events) l w).2) := by
  have h : p = p.traced events >>= fun x => pure x.1 := by
    rw [bind_pure_comp, p.fst_map_traced]
  conv =>
    lhs
    rw [h]
  rw [Source.run_bind]
  rfl

/-- The events of a program that only reads. -/
theorem Program.ReadsOnly.run_traced {p : Program Host α} (h : p.ReadsOnly) (read : Source ρ)
    (events : List Event) (l : ρ) (w : World) :
    ∃ reads, Plain reads ∧ read.run (p.traced events) l w =
      (((((read.run p l w).1.1, events ++ reads)), (read.run p l w).1.2), (read.run p l w).2) := by
  induction h generalizing events l w with
  | done a => exact ⟨[], .nil, by rw [List.append_nil]; rfl⟩
  | @ask n next _ ih =>
    rw [Program.traced_ask, Source.run_ask_read, Source.run_ask_read]
    generalize w.run (read n l) = x
    obtain ⟨⟨reply, l'⟩, w'⟩ := x
    obtain ⟨reads, hplain, hrun⟩ := ih reply (events ++ [⟨.read n, reply⟩]) l' w'
    refine ⟨⟨.read n, reply⟩ :: reads, (Plain.read n reply).append hplain, ?_⟩
    rw [hrun, List.append_assoc]
    rfl

namespace Step

/-- The same step, with its events as a part of the state. -/
def traced (step : Step σ α) : Step (σ × List Event) α := fun s => do
  let ((result, t), events) ← Program.traced (step s.1) s.2
  return (result, (t, events))

/-- A step that does no more than read. -/
def ReadsOnly (step : Step σ α) : Prop :=
  ∀ s, Program.ReadsOnly (step s)

namespace ReadsOnly

theorem bind {x : Step σ α} {f : α → Step σ β} (hx : x.ReadsOnly) (hf : ∀ a, (f a).ReadsOnly) :
    (x >>= f).ReadsOnly := by
  intro s
  refine (hx s).bind fun r => ?_
  obtain ⟨fault | a, t⟩ := r
  · exact .done _
  · exact hf a t

theorem onPart {part : σ → τ} {update : σ → τ → σ} {step : Step τ α} (h : step.ReadsOnly) :
    (Step.onPart part update step).ReadsOnly :=
  fun s => (h (part s)).bind fun _ => .done _

end ReadsOnly

theorem bind_apply (x : Step σ α) (f : α → Step σ β) (s : σ) :
    (x >>= f) s = x s >>= fun r => match r with
      | (.ok a, s) => f a s
      | (.error fault, s) => pure (.error fault, s) := by
  refine congrArg (Program.bind (x s)) (funext fun r => ?_)
  obtain ⟨a | a, s⟩ := r <;> rfl

theorem tryCatch_apply (x : Step σ α) (handle : Fault → Step σ α) (s : σ) :
    (tryCatch x handle : Step σ α) s = x s >>= fun r => match r with
      | (.ok a, s) => pure (.ok a, s)
      | (.error fault, s) => handle fault s := by
  refine congrArg (Program.bind (x s)) (funext fun r => ?_)
  obtain ⟨a | a, s⟩ := r <;> rfl

theorem traced_bind (x : Step σ α) (f : α → Step σ β) :
    traced (x >>= f) = traced x >>= fun a => traced (f a) := by
  funext s
  rw [bind_apply, traced, bind_apply, Program.traced_bind, traced]
  simp only [bind_assoc, pure_bind]
  refine congrArg (Program.bind _) (funext fun r => ?_)
  obtain ⟨⟨fault | a, t⟩, events⟩ := r
  · rfl
  · rfl

theorem traced_tryCatch (x : Step σ α) (handle : Fault → Step σ α) :
    traced (tryCatch x handle) = tryCatch (traced x) fun fault => traced (handle fault) := by
  funext s
  rw [tryCatch_apply, traced, tryCatch_apply, Program.traced_bind, traced]
  simp only [bind_assoc, pure_bind]
  refine congrArg (Program.bind _) (funext fun r => ?_)
  obtain ⟨⟨fault | a, t⟩, events⟩ := r
  · rfl
  · rfl

end Step

variable {s : σ × List Event} {l : ρ} {w : World}
  {bad : Fault → σ × List Event → ρ → World → Prop}

/-- What a traced step on the input of a world ends with is known of the step and its events. -/
theorem Meets.of_run_traced {step : Step σ α} {s : σ}
    {good : α → σ × List Event → Unit → World → Prop}
    {fails : Fault → σ × List Event → Unit → World → Prop}
    (h : Meets Source.host (Step.traced step) (s, []) () w good fails) :
    match w.run (step s) with
    | ((.ok a, s'), w') => good a (s', w.eventsOf (step s)) () w'
    | ((.error fault, s'), w') => fails fault (s', w.eventsOf (step s)) () w' := by
  unfold Meets at h
  rw [Source.run_host, Step.traced, World.run_bind] at h
  rw [World.run_traced (step s) [] w, World.eventsOf]
  generalize w.run (Program.traced (step s) []) = x at h
  rcases x with ⟨⟨⟨fault | a, s'⟩, events⟩, w'⟩
  · exact h
  · exact h

/-- A step that only reads draws and asks nothing. -/
theorem Meets.traced_of_readsOnly {step : Step σ α} (hr : step.ReadsOnly)
    {good : α → σ → ρ → World → Prop} {fails : Fault → σ → ρ → World → Prop}
    (h : Meets read step s.1 l w good fails) :
    Meets read (Step.traced step) s l w
      (fun a s' l w => good a s'.1 l w ∧ ∃ reads, Plain reads ∧ s'.2 = s.2 ++ reads)
      fun fault s' l w => fails fault s'.1 l w ∧ ∃ reads, Plain reads ∧ s'.2 = s.2 ++ reads := by
  unfold Meets at h ⊢
  obtain ⟨reads, hplain, hrun⟩ := (hr s.1).run_traced read s.2 l w
  rw [Step.traced, Source.run_bind, hrun]
  generalize read.run (step s.1) l w = x at h
  obtain ⟨⟨⟨fault | a, t⟩, l'⟩, w'⟩ := x
  · exact ⟨h, reads, hplain, rfl⟩
  · exact ⟨h, reads, hplain, rfl⟩

theorem meets_traced_bind (x : Step σ α) (f : α → Step σ β)
    {good : β → σ × List Event → ρ → World → Prop} :
    Meets read (Step.traced (x >>= f)) s l w good bad ↔
      Meets read (Step.traced x) s l w
        (fun a s l w => Meets read (Step.traced (f a)) s l w good bad) bad := by
  rw [Step.traced_bind, meets_bind]

theorem meets_traced_tryCatch (x : Step σ α) (handle : Fault → Step σ α)
    {good : α → σ × List Event → ρ → World → Prop} :
    Meets read (Step.traced (tryCatch x handle)) s l w good bad ↔
      Meets read (Step.traced x) s l w good
        fun fault s l w => Meets read (Step.traced (handle fault)) s l w good bad := by
  rw [Step.traced_tryCatch, meets_tryCatch]

theorem meets_traced_pure (a : α) {good : α → σ × List Event → ρ → World → Prop} :
    Meets read (Step.traced (pure a : Step σ α)) s l w good bad ↔ good a s l w := Iff.rfl

theorem meets_traced_throw (fault : Fault) {good : α → σ × List Event → ρ → World → Prop} :
    Meets read (Step.traced (throw fault : Step σ α)) s l w good bad ↔ bad fault s l w := Iff.rfl

theorem meets_traced_get {good : σ → σ × List Event → ρ → World → Prop} :
    Meets read (Step.traced (get : Step σ σ)) s l w good bad ↔ good s.1 s l w := Iff.rfl

theorem meets_traced_modify (f : σ → σ) {good : PUnit → σ × List Event → ρ → World → Prop} :
    Meets read (Step.traced (modify f : Step σ PUnit)) s l w good bad ↔
      good ⟨⟩ (f s.1, s.2) l w := Iff.rfl

theorem meets_traced_onPart (part : σ → τ) (update : σ → τ → σ) (step : Step τ α)
    {good : α → σ × List Event → ρ → World → Prop} :
    Meets read (Step.traced (Step.onPart part update step)) s l w good bad ↔
      Meets read (Step.traced step) (part s.1, s.2) l w
        (fun a t l w => good a (update s.1 t.1, t.2) l w)
        fun fault t l w => bad fault (update s.1 t.1, t.2) l w := by
  have h : Step.traced (Step.onPart part update step) s
      = Step.traced step (part s.1, s.2) >>= fun x =>
          pure (x.1, (update s.1 x.2.1, x.2.2)) := by
    have hpart : (Step.onPart part update step) s.1
        = step (part s.1) >>= fun x => pure (x.1, update s.1 x.2) := rfl
    rw [Step.traced, hpart, Program.traced_bind, Step.traced]
    simp only [bind_assoc, pure_bind]
    rfl
  unfold Meets
  rw [h, Source.run_bind]
  generalize read.run (Step.traced step (part s.1, s.2)) l w = r
  obtain ⟨⟨⟨a | a, t⟩, l⟩, w⟩ := r
  · rfl
  · rfl

theorem meets_traced_except (x : Except Fault α) {good : α → σ × List Event → ρ → World → Prop} :
    Meets read (Step.traced (liftM x : Step σ α)) s l w good bad ↔
      (∀ a, x = .ok a → good a s l w) ∧ ∀ fault, x = .error fault → bad fault s l w :=
  meets_except x

theorem meets_traced_except_of_ok {x : Except Fault α} {a : α} (h : x = .ok a)
    {good : α → σ × List Event → ρ → World → Prop} :
    Meets read (Step.traced (liftM x : Step σ α)) s l w good bad ↔ good a s l w := by
  subst h
  rfl

theorem meets_traced_draw (n : Nat) {good : Bytes n → σ × List Event → ρ → World → Prop} :
    Meets read (Step.traced (Step.ofProgram (Host.draw n) : Step σ (Bytes n))) s l w good bad ↔
      good (World.tapeBytes w.tape w.drawn n)
        (s.1, s.2 ++ [⟨.draw n, World.tapeBytes w.tape w.drawn n⟩]) l
        { w with drawn := w.drawn + n } := Iff.rfl

theorem meets_traced_password (info : PassInfo)
    {good : Except Fault Answer → σ × List Event → ρ → World → Prop} :
    Meets read (Step.traced (Step.ofProgram (Host.password info) : Step σ _)) s l w good bad ↔
      good (w.provider (w.asked ++ [info]))
        (s.1, s.2 ++ [⟨.password info, w.provider (w.asked ++ [info])⟩]) l
        { w with asked := w.asked ++ [info] } := Iff.rfl

theorem meets_traced_derive (d : Derivation) {good : Key → σ × List Event → ρ → World → Prop} :
    Meets read (Step.traced (Step.ofProgram (Host.derive d) : Step σ Key)) s l w good bad ↔
      good d.key (s.1, s.2 ++ [⟨.derive d, d.key⟩]) l
        { w with keys := (w.keys.derive d).2 } := by
  rw [← w.keys.derive_fst d]
  exact Iff.rfl

end steps

/-! ### Chunk readers -/

namespace ChunkReader

theorem readsOnly_fill (want : Nat) (inUse : Bool) (r : ChunkReader) :
    (fill want inUse r).ReadsOnly := by
  fun_induction fill want inUse r with
  | case1 r hmissing room ih =>
    refine .ask fun reply => ?_
    cases reply with
    | error e => exact .done _
    | ok bytes =>
      dsimp only
      split
      · exact .done _
      next h0 => exact ih bytes h0
  | case2 r hmissing => exact .done _

end ChunkReader

end SealedStream
