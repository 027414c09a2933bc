import Mathlib.Data.List.Forall2
import SealedStream.Proofs.Trace

/-!
# How input is delivered does not show

What a source holds is a course: bytes, with failures here and there between them, up to the end
(`Course`).  The pieces that it comes in are not part of that.  A plain reader is right in front of
such a course: it takes bytes from there, and never holds any (`CourseReader`).

* `ChunkReader.run_collect`: what a chunk reader holds and what its source still has are one course,
  which collecting bytes leaves alone, but for a failure that is used up.
* `reads_as_course`: whatever is read, and in whatever order, a chunk reader gives what the plain
  reader gives in front of the course of its source, and loses nothing.
-/

namespace SealedStream

/-! ### Courses -/

/-- Bytes up to the end, with failures here and there between them. -/
inductive Course
  /-- Bytes, and then the end. -/
  | last (bytes : ByteArray)
  /-- Bytes, a failure, and what comes after it. -/
  | failing (bytes : ByteArray) (e : IoFault) (later : Course)
  deriving DecidableEq

namespace Course

/-- The bytes in front of the first failure. -/
def ahead : Course → ByteArray
  | last bytes | failing bytes _ _ => bytes

/-- The same with other bytes in front of the first failure. -/
def withAhead (bytes : ByteArray) : Course → Course
  | last _ => last bytes
  | failing _ e later => failing bytes e later

/-- The same behind some more bytes. -/
def behind (bytes : ByteArray) (c : Course) : Course :=
  c.withAhead (bytes ++ c.ahead)

/-- The same without the first `n` bytes. -/
def drop (n : Nat) (c : Course) : Course :=
  c.withAhead (c.ahead.extract n c.ahead.size)

/-- What the reads of some items find.  A piece without bytes is the end, whatever follows. -/
def ofItems : List InputItem → Course
  | [] => last .empty
  | .failure e :: items => failing .empty e (ofItems items)
  | .data bytes :: items => if bytes.isEmpty then last .empty else behind bytes (ofItems items)

@[simp] theorem ahead_withAhead (bytes : ByteArray) (c : Course) :
    (c.withAhead bytes).ahead = bytes := by
  cases c <;> rfl

@[simp] theorem withAhead_withAhead (a b : ByteArray) (c : Course) :
    (c.withAhead b).withAhead a = c.withAhead a := by
  cases c <;> rfl

theorem withAhead_ahead (c : Course) : c.withAhead c.ahead = c := by
  cases c <;> rfl

theorem behind_behind (a b : ByteArray) (c : Course) :
    behind a (behind b c) = behind (a ++ b) c := by
  simp only [behind, ahead_withAhead, withAhead_withAhead, ByteArray.append_assoc]

theorem behind_empty (c : Course) : behind .empty c = c := by
  rw [behind, ByteArray.empty_append, withAhead_ahead]

/-- What is behind enough bytes goes on behind the others. -/
theorem drop_behind {n : Nat} {bytes : ByteArray} (h : n ≤ bytes.size) (c : Course) :
    drop n (behind bytes c) = behind (bytes.extract n bytes.size) c := by
  have hcut : bytes ++ c.ahead
      = bytes.extract 0 n ++ (bytes.extract n bytes.size ++ c.ahead) := by
    rw [← ByteArray.append_assoc,
      ← ByteArray.extract_eq_extract_append_extract n (Nat.zero_le _) h,
      ByteArray.extract_zero_size]
  have hfirst : (bytes.extract 0 n).size = n := by
    rw [ByteArray.size_extract]
    omega
  simp only [drop, behind, ahead_withAhead, withAhead_withAhead]
  rw [hcut, extract_append_right hfirst rfl]

/-- One read takes the next part of a course, or its next failure; no bytes are its end. -/
theorem ofItems_eq_of_readItems {n : Nat} (hn : 0 < n) (items : List InputItem) :
    match readItems n items with
    | (.ok bytes, left) =>
      ofItems items = if bytes.isEmpty then last .empty else behind bytes (ofItems left)
    | (.error e, left) => ofItems items = failing .empty e (ofItems left) := by
  fun_cases readItems n items with
  | case1 => rfl
  | case2 e items => rfl
  | case3 bytes items hfits => rfl
  | case4 bytes items hlong =>
    -- A longer piece is cut, and neither part is empty.
    have hne : ∀ {i j : Nat}, i < j → j ≤ bytes.size → ¬ (bytes.extract i j).isEmpty = true := by
      intro i j hi hj h
      have hsize := congrArg ByteArray.size (isEmpty_iff.1 h)
      rw [ByteArray.size_extract, ByteArray.size_empty] at hsize
      omega
    have hwhole : ¬ bytes.isEmpty = true := by
      rw [isEmpty_iff, ← ByteArray.size_eq_zero_iff]
      omega
    dsimp only
    rw [if_neg (hne hn (by omega)), ofItems, if_neg hwhole, ofItems,
      if_neg (hne (by omega) (Nat.le_refl _)), behind_behind,
      ← ByteArray.extract_eq_extract_append_extract n (Nat.zero_le _) (by omega),
      ByteArray.extract_zero_size]

end Course

/-! ### The plain reader -/

/-- A call of a reader. -/
inductive ReadCall
  | fill (n : Nat)
  | available (n : Nat)
  | toLimit (limit : Nat)
  deriving DecidableEq

/-- How many bytes a call looks at. -/
def ReadCall.wanted : ReadCall → Nat
  | fill n => n
  | available n | toLimit n => n + 1

/-- Why a call of the plain reader fails. -/
inductive Trouble
  /-- The source failed. -/
  | source (e : IoFault)
  /-- There are more bytes than the limit. -/
  | tooLong (limit : Nat)
  deriving DecidableEq

/-- A reader in front of a course. -/
structure CourseReader where
  left : Course
  /-- Whether the end has been seen. -/
  ended : Bool := false
  deriving DecidableEq

namespace CourseReader

/-- Looks at the next `n` bytes.  If there are fewer in front of a failure, that is used up; if
there are fewer in front of the end, that is seen. -/
def look (n : Nat) (r : CourseReader) : Except IoFault Unit × CourseReader :=
  match r.left with
  | .failing bytes e later =>
    if bytes.size < n then (.error e, { r with left := later.behind bytes }) else (.ok (), r)
  | .last bytes => (.ok (), { r with ended := r.ended || bytes.size < n })

/-- Whether no byte is left. -/
def isEmpty (r : CourseReader) : Bool :=
  r.left.ahead.isEmpty

/-- Takes the next `n` bytes, or all in front of a failure or the end. -/
def take (n : Nat) (r : CourseReader) : ByteArray × CourseReader :=
  (r.left.ahead.extract 0 n, { r with left := r.left.drop n })

/-- What a call gives, after it has looked at the bytes that it wants.  A call that looks farther
than it takes knows whether no byte is left. -/
def give (call : ReadCall) (r : CourseReader) : Except Trouble Chunk × CourseReader :=
  match call with
  | .fill n =>
    let (bytes, rest) := r.take n
    (.ok ⟨bytes, rest.ended && rest.isEmpty⟩, rest)
  | .available n =>
    let (bytes, rest) := r.take n
    (.ok ⟨bytes, rest.isEmpty⟩, rest)
  | .toLimit limit =>
    if limit < r.left.ahead.size then (.error (.tooLong limit), r)
    else (.ok ⟨r.left.ahead, true⟩, { r with left := r.left.withAhead .empty })

/-- What a call gives. -/
def read (call : ReadCall) (r : CourseReader) : Except Trouble Chunk × CourseReader :=
  match r.look call.wanted with
  | (.error e, r) => (.error (.source e), r)
  | (.ok (), r) => r.give call

/-- What some calls in turn give. -/
def readAll : List ReadCall → CourseReader → List (Except Trouble Chunk) × CourseReader
  | [], r => ([], r)
  | call :: calls, r =>
    let (result, r) := r.read call
    let (results, r) := r.readAll calls
    (result :: results, r)

/-- Enough bytes in front are looked at and left alone. -/
theorem look_of_le {n : Nat} {r : CourseReader} (h : n ≤ r.left.ahead.size) :
    r.look n = (.ok (), r) := by
  obtain ⟨bytes | ⟨bytes, e, later⟩, ended⟩ := r
  · have hn : decide (bytes.size < n) = false := decide_eq_false (Nat.not_lt.2 h)
    show (_, CourseReader.mk _ (ended || decide (bytes.size < n))) = _
    rw [hn, Bool.or_false]
  · exact if_neg (Nat.not_lt.2 h)

theorem look_failing {n : Nat} {bytes : ByteArray} (h : bytes.size < n) (e : IoFault)
    (later : Course) (ended : Bool) :
    look n ⟨.failing bytes e later, ended⟩ = (.error e, ⟨later.behind bytes, ended⟩) :=
  if_pos h

theorem look_last {n : Nat} {bytes : ByteArray} {ended : Bool}
    (h : bytes.size < n ∨ ended = true) :
    look n ⟨.last bytes, ended⟩ = (.ok (), ⟨.last bytes, true⟩) := by
  have hended : (ended || decide (bytes.size < n)) = true := by
    rw [Bool.or_eq_true, decide_eq_true_iff]
    exact h.symm
  show (_, CourseReader.mk _ (ended || decide (bytes.size < n))) = _
  rw [hended]

theorem give_toLimit_last {limit : Nat} {bytes : ByteArray} (h : ¬ limit < bytes.size)
    (ended : Bool) :
    give (.toLimit limit) ⟨.last bytes, ended⟩ = (.ok ⟨bytes, true⟩, ⟨.last .empty, ended⟩) :=
  if_neg h

end CourseReader

/-! ### Chunk readers -/

/-- What a call gives is what the plain reader gives.  How many bytes more than the limit had been
collected is known to the chunk reader only. -/
def Agrees : Except Fault Chunk → Except Trouble Chunk → Prop
  | .ok chunk, .ok chunk' => chunk = chunk'
  | .error fault, .error (.source e) => fault = .ofIoFault e
  | .error fault, .error (.tooLong limit) =>
    ∃ collected, limit < collected ∧ fault = .sizeMismatch "message" limit collected
  | _, _ => False

/-- The bytes that reads have brought, one after another. -/
def broughtIn (events : List Event) : ByteArray :=
  concat (events.map fun
    | ⟨.read _, reply⟩ =>
      match (reply : Except IoFault ByteArray) with
      | .ok bytes => bytes
      | .error _ => .empty
    | _ => .empty)

/-- The bytes that have been handed out, one after another. -/
def handedOut (results : List (Except Fault Chunk)) : ByteArray :=
  concat (results.map fun
    | .ok chunk => chunk.bytes
    | .error _ => .empty)

theorem handedOut_append (results later : List (Except Fault Chunk)) :
    handedOut (results ++ later) = handedOut results ++ handedOut later := by
  rw [handedOut, List.map_append, concat_append]
  rfl

theorem broughtIn_append (events later : List Event) :
    broughtIn (events ++ later) = broughtIn events ++ broughtIn later := by
  rw [broughtIn, List.map_append, concat_append]
  rfl

namespace World

/-- The events of a sequence are those of its parts. -/
theorem eventsOf_bind {α β : Type} (p : Program Host α) (f : α → Program Host β) (w : World) :
    w.eventsOf (p >>= f) = w.eventsOf p ++ (w.run p).2.eventsOf (f (w.run p).1) := by
  have h := w.run_traced p []
  rw [eventsOf, Program.traced_bind, run_bind, eventsOf_append]
  rw [← eventsOf, h]

end World

namespace ChunkReader

/-- The call of a chunk reader.  A chunk that was handed out before may still be in use. -/
def call (inUse : Bool) : ReadCall → Step ChunkReader Chunk
  | .fill n => readFill n inUse
  | .available n => readAvailable n inUse
  | .toLimit limit => readToLimit limit inUse

/-- Some calls in turn, whether or not they fail. -/
def callAll : List (ReadCall × Bool) → ChunkReader →
    Program Host (List (Except Fault Chunk) × ChunkReader)
  | [], r => return ([], r)
  | (c, inUse) :: calls, r => do
    let (result, r) ← call inUse c r
    let (results, r) ← callAll calls r
    return (result :: results, r)

/-- What a chunk reader holds and what its source still has, as one course.  Behind the end there is
nothing. -/
def course (r : ChunkReader) (w : World) : CourseReader :=
  ⟨if r.ended then .last r.buffer else .behind r.buffer (.ofItems w.input), r.ended⟩

variable {r : ChunkReader} {w : World} {n : Nat} {inUse : Bool}

theorem course_of_ended (h : r.ended = true) (w : World) :
    r.course w = ⟨.last r.buffer, true⟩ := by
  rw [course, h]
  rfl

theorem course_of_not_ended (h : r.ended = false) (w : World) :
    r.course w = ⟨.behind r.buffer (.ofItems w.input), false⟩ := by
  rw [course, h]
  rfl

/-- In front there are the bytes that are held, and no more than these behind the end. -/
theorem exists_ahead_course (r : ChunkReader) (w : World) :
    ∃ more, (r.course w).left.ahead = r.buffer ++ more ∧ (r.ended = true → more = .empty) := by
  by_cases hended : r.ended = true
  · rw [course_of_ended hended]
    exact ⟨.empty, ByteArray.append_empty.symm, fun _ => rfl⟩
  · rw [course_of_not_ended (Bool.eq_false_iff.2 hended), Course.behind, Course.ahead_withAhead]
    exact ⟨_, rfl, fun h => absurd h hended⟩

/-- What a collecting step ends with: the course that was looked at, and enough bytes of it, unless
there are fewer; or the failure that was met. -/
def CollectsAs (want : Nat) (looked : Except IoFault Unit × CourseReader) :
    (Except Fault Unit × ChunkReader) × World → Prop
  | ((.ok _, r), w) => looked = (.ok (), r.course w) ∧ (want ≤ r.buffer.size ∨ r.ended = true)
  | ((.error fault, r), w) => ∃ e, looked = (.error e, r.course w) ∧ fault = .ofIoFault e

/-- **Collecting bytes is looking at them.**  The induction is on the pieces that are missing; none
of them changes the course. -/
theorem collectsAs (want : Nat) (inUse : Bool) (r : ChunkReader) (w : World) :
    CollectsAs want ((r.course w).look want) (w.run (collect want inUse r)) := by
  unfold collect
  fun_induction fill want inUse r generalizing w with
  | case1 r hmissing room ih =>
    have hpos : 0 < room.capacity - r.buffer.size := by
      have hcap : want ≤ room.capacity := Room.le_capacity_reserve want r.buffer.size inUse r.room
      omega
    have hread := Course.ofItems_eq_of_readItems hpos w.input
    rw [World.run_ask, course_of_not_ended hmissing.2]
    show CollectsAs _ _ (World.run _ { w with input := (readItems _ w.input).2 })
    rw [show (World.answer (.read (room.capacity - r.buffer.size)) w).1
      = (readItems (room.capacity - r.buffer.size) w.input).1 from rfl]
    generalize readItems (room.capacity - r.buffer.size) w.input = x at hread
    obtain ⟨e | bytes, left⟩ := x
    · -- A failure is met before enough bytes are there, and used up.
      rw [show Course.ofItems w.input = .failing .empty e (.ofItems left) from hread]
      refine ⟨e, ?_, rfl⟩
      rw [course_of_not_ended (r := { r with room }) hmissing.2]
      show CourseReader.look want ⟨.failing (r.buffer ++ .empty) e _, false⟩ = _
      rw [ByteArray.append_empty, CourseReader.look_failing hmissing.1]
    change Course.ofItems w.input
      = (if bytes.isEmpty then _ else Course.behind bytes (.ofItems left)) at hread
    by_cases h0 : bytes.size = 0
    · -- A piece without bytes ends the input.
      obtain rfl := ByteArray.size_eq_zero_iff.1 h0
      rw [show Course.ofItems w.input = .last .empty from hread]
      refine ⟨?_, .inr rfl⟩
      rw [course_of_ended rfl]
      show CourseReader.look want ⟨.last (r.buffer ++ .empty), false⟩ = _
      rw [ByteArray.append_empty, CourseReader.look_last (.inl hmissing.1)]
    · have hne : ¬ bytes.isEmpty = true := by
        rw [isEmpty_iff, ← ByteArray.size_eq_zero_iff]
        exact h0
      have hrest := ih bytes h0 { w with input := left }
      rw [course_of_not_ended (r := { r with buffer := r.buffer ++ bytes, room }) hmissing.2]
        at hrest
      rw [hread, if_neg hne, Course.behind_behind]
      simp only [dif_neg h0]
      exact hrest
  | case2 r hmissing =>
    -- Enough is there, or the end has been seen before.
    by_cases hw : r.buffer.size < want
    · have hended : r.ended = true := by simpa using fun he => hmissing ⟨hw, he⟩
      refine ⟨?_, .inr hended⟩
      rw [course_of_ended hended, CourseReader.look_last (.inr rfl)]
    · obtain ⟨more, hahead, -⟩ := r.exists_ahead_course w
      refine ⟨CourseReader.look_of_le ?_, .inl (Nat.le_of_not_lt hw)⟩
      rw [hahead, ByteArray.size_append]
      omega

/-- A chunk of bytes that are held, or of all that are left, is taken from the course. -/
theorem course_split (h : n ≤ r.buffer.size ∨ r.ended = true) (w : World) :
    (r.course w).take n = ((split n r).1.bytes, (split n r).2.course w) := by
  have hbuffer : (split n r).2.buffer = r.buffer.extract n r.buffer.size := rfl
  have hsplit : (split n r).2.ended = r.ended := rfl
  by_cases hended : r.ended = true
  · rw [course_of_ended hended, course_of_ended (hsplit.trans hended), hbuffer]
    rfl
  · have hn : n ≤ r.buffer.size := h.resolve_right hended
    rw [course_of_not_ended (Bool.eq_false_iff.2 hended),
      course_of_not_ended (hsplit.trans (Bool.eq_false_iff.2 hended)), hbuffer,
      ← Course.drop_behind hn]
    refine congrArg (·, _) ?_
    show ((Course.behind r.buffer _).ahead).extract 0 n = r.buffer.extract 0 n
    rw [Course.behind, Course.ahead_withAhead, ByteArray.extract_append, Nat.zero_sub,
      Nat.sub_eq_zero_of_le hn, ByteArray.extract_same, ByteArray.append_empty]

/-- What a call gives, once bytes have been collected for it. -/
def finish (c : ReadCall) (r : ChunkReader) : Except Fault Chunk × ChunkReader :=
  match c with
  | .fill n | .available n => (.ok (split n r).1, (split n r).2)
  | .toLimit limit =>
    if limit < r.buffer.size then (.error (.sizeMismatch "message" limit r.buffer.size), r)
    else (.ok (split limit r).1, (split limit r).2)

/-- A call collects what it wants, and needs nothing more of its source then. -/
theorem call_eq (inUse : Bool) (c : ReadCall) (r : ChunkReader) :
    call inUse c r = collect c.wanted inUse r >>= fun x => pure (match x with
      | (.ok _, r) => finish c r
      | (.error fault, r) => (.error fault, r)) := by
  cases c with
  | fill n =>
    refine (Step.bind_apply _ _ r).trans (congrArg (Program.bind _) (funext fun x => ?_))
    obtain ⟨fault | u, r⟩ := x <;> rfl
  | available n =>
    refine (Step.bind_apply _ _ r).trans (congrArg (Program.bind _) (funext fun x => ?_))
    obtain ⟨fault | u, r⟩ := x <;> rfl
  | toLimit limit =>
    refine (Step.bind_apply _ _ r).trans (congrArg (Program.bind _) (funext fun x => ?_))
    obtain ⟨fault | u, r⟩ := x
    · rfl
    · have hfinish : finish (.toLimit limit) r = if limit < r.buffer.size
          then (.error (.sizeMismatch "message" limit r.buffer.size), r)
          else (.ok (split limit r).1, (split limit r).2) := rfl
      show (if limit < r.buffer.size then _ else _ : Step ChunkReader Chunk) r = pure (finish _ r)
      rw [hfinish]
      by_cases hlimit : limit < r.buffer.size
      · rw [if_pos hlimit, if_pos hlimit]
        rfl
      · rw [if_neg hlimit, if_neg hlimit]
        rfl

/-- Whether everything has been handed out, of the course. -/
theorem isDone_eq (r : ChunkReader) (w : World) :
    r.isDone = ((r.course w).ended && (r.course w).isEmpty) := by
  by_cases hended : r.ended = true
  · rw [course_of_ended hended, isDone, hended]
    rfl
  · rw [Bool.not_eq_true] at hended
    rw [course_of_not_ended hended, isDone, hended]
    rfl

/-- Where a byte is held or the end has been seen, that is the same as whether no byte is left. -/
theorem isEmpty_course (h : r.buffer ≠ .empty ∨ r.ended = true) (w : World) :
    (r.course w).isEmpty = r.isDone := by
  rw [isDone_eq r w]
  by_cases hended : r.ended = true
  · rw [course_of_ended hended]
    rfl
  · rw [Bool.not_eq_true] at hended
    obtain ⟨more, hahead, -⟩ := r.exists_ahead_course w
    have hne : (r.course w).isEmpty = false := by
      rw [CourseReader.isEmpty, hahead, ← Bool.not_eq_true, isEmpty_iff,
        ByteArray.append_eq_empty_iff]
      exact fun he => h.resolve_right (by rw [hended]; decide) he.1
    rw [hne, Bool.and_false]

/-- A chunk of no fewer bytes than are held is all of them. -/
theorem split_of_le (h : r.buffer.size ≤ n) :
    (split n r).1 = ⟨r.buffer, r.ended⟩ ∧ (split n r).2.buffer = .empty := by
  have hrest : (split n r).2.buffer = .empty := by
    rw [← ByteArray.size_eq_zero_iff, size_split_buffer]
    exact Nat.sub_eq_zero_of_le h
  have hbytes := append_split n r
  rw [hrest, ByteArray.append_empty] at hbytes
  have hdone : (split n r).1.done = r.ended := by
    show (r.ended && (split n r).2.buffer.isEmpty) = r.ended
    rw [hrest]
    exact Bool.and_true r.ended
  exact ⟨by rw [← hbytes, ← hdone], hrest⟩

/-- **What a call gives** then is what the plain reader gives. -/
theorem agrees_finish {c : ReadCall} (h : c.wanted ≤ r.buffer.size ∨ r.ended = true) (w : World) :
    Agrees (finish c r).1 ((r.course w).give c).1 ∧
      (finish c r).2.course w = ((r.course w).give c).2 := by
  cases c with
  | fill n =>
    have htake := course_split (n := n) h w
    rw [finish, CourseReader.give, htake]
    refine ⟨?_, rfl⟩
    show (split n r).1 = _
    rw [← isDone_eq]
    rfl
  | available n =>
    have htake := course_split (n := n) (h.imp_left Nat.le_of_succ_le) w
    rw [finish, CourseReader.give, htake]
    refine ⟨?_, rfl⟩
    show (split n r).1 = _
    rw [isEmpty_course]
    · rfl
    · refine h.imp_left fun hn => ?_
      rw [ne_eq, ← ByteArray.size_eq_zero_iff, size_split_buffer]
      exact Nat.sub_ne_zero_of_lt hn
  | toLimit limit =>
    obtain ⟨more, hahead, hmore⟩ := r.exists_ahead_course w
    by_cases hlimit : limit < r.buffer.size
    · have hlonger : limit < (r.course w).left.ahead.size := by
        rw [hahead, ByteArray.size_append]
        omega
      rw [finish, if_pos hlimit, CourseReader.give, if_pos hlonger]
      exact ⟨⟨_, hlimit, rfl⟩, rfl⟩
    · have hended : r.ended = true := h.resolve_left hlimit
      obtain ⟨hchunk, hrest⟩ := split_of_le (Nat.le_of_not_lt hlimit)
      have hcourse : (split limit r).2.course w = ⟨.last .empty, true⟩ := by
        rw [course_of_ended (r := (split limit r).2) hended, hrest]
      rw [finish, if_neg hlimit, hchunk, hended, hcourse, course_of_ended hended,
        CourseReader.give_toLimit_last hlimit]
      exact ⟨rfl, rfl⟩

/-- A chunk and what is held then are what was held. -/
theorem append_finish (c : ReadCall) (r : ChunkReader) :
    handedOut [(finish c r).1] ++ (finish c r).2.buffer = r.buffer := by
  have hsplit : ∀ n, handedOut [.ok (split n r).1] ++ (split n r).2.buffer = r.buffer := by
    intro n
    show (split n r).1.bytes ++ .empty ++ (split n r).2.buffer = _
    rw [ByteArray.append_empty, append_split]
  cases c with
  | fill n => exact hsplit n
  | available n => exact hsplit n
  | toLimit limit =>
    rw [finish]
    by_cases hlimit : limit < r.buffer.size
    · rw [if_pos hlimit]
      exact ByteArray.empty_append
    · rw [if_neg hlimit]
      exact hsplit limit

/-- What is collected is what reads bring. -/
theorem buffer_collect (want : Nat) (inUse : Bool) (r : ChunkReader) (w : World) :
    (w.run (collect want inUse r)).1.2.buffer
      = r.buffer ++ broughtIn (w.eventsOf (collect want inUse r)) := by
  unfold collect
  fun_induction fill want inUse r generalizing w with
  | case1 r hmissing room ih =>
    rw [World.run_ask, World.eventsOf_ask]
    generalize World.answer (.read (room.capacity - r.buffer.size)) w = x
    obtain ⟨e | bytes, w⟩ := x
    · exact ByteArray.append_empty.symm
    · by_cases h0 : bytes.size = 0
      · obtain rfl := ByteArray.size_eq_zero_iff.1 h0
        exact ByteArray.append_empty.symm
      · simp only [dif_neg h0]
        rw [ih bytes h0 w, ByteArray.append_assoc]
        rfl
  | case2 r hmissing => exact ByteArray.append_empty.symm

/-- **One call** gives what the plain reader gives, and loses nothing. -/
theorem agrees_call (inUse : Bool) (c : ReadCall) (r : ChunkReader) (w : World) :
    let x := w.run (call inUse c r)
    Agrees x.1.1 ((r.course w).read c).1 ∧ x.1.2.course x.2 = ((r.course w).read c).2 ∧
      handedOut [x.1.1] ++ x.1.2.buffer
        = r.buffer ++ broughtIn (w.eventsOf (call inUse c r)) := by
  have hcollects := collectsAs c.wanted inUse r w
  have hbuffer := buffer_collect c.wanted inUse r w
  dsimp only
  rw [call_eq, World.run_bind, World.eventsOf_bind, broughtIn_append, ← ByteArray.append_assoc,
    ← hbuffer]
  generalize w.run (collect c.wanted inUse r) = x at hcollects
  obtain ⟨⟨fault | u, r'⟩, w'⟩ := x
  · obtain ⟨e, hlook, rfl⟩ := hcollects
    rw [CourseReader.read, hlook]
    exact ⟨rfl, rfl, ByteArray.empty_append.trans ByteArray.append_empty.symm⟩
  · obtain ⟨hlook, hwanted⟩ := hcollects
    obtain ⟨hagrees, hcourse⟩ := agrees_finish hwanted w'
    rw [CourseReader.read, hlook]
    exact ⟨hagrees, hcourse, (append_finish c r').trans ByteArray.append_empty.symm⟩

/-- **Calls in any order**, from any state.  The induction is on the calls. -/
theorem agrees_callAll (calls : List (ReadCall × Bool)) (r : ChunkReader) (w : World) :
    let x := w.run (callAll calls r)
    let y := (r.course w).readAll (calls.map Prod.fst)
    List.Forall₂ Agrees x.1.1 y.1 ∧ x.1.2.course x.2 = y.2 ∧
      handedOut x.1.1 ++ x.1.2.buffer = r.buffer ++ broughtIn (w.eventsOf (callAll calls r)) := by
  induction calls generalizing r w with
  | nil => exact ⟨.nil, rfl, ByteArray.empty_append.trans ByteArray.append_empty.symm⟩
  | cons c calls ih =>
    obtain ⟨c, inUse⟩ := c
    obtain ⟨hagrees, hcourse, hbytes⟩ := agrees_call inUse c r w
    dsimp only
    rw [callAll, World.run_bind, World.eventsOf_bind, broughtIn_append, ← ByteArray.append_assoc,
      ← hbytes]
    generalize w.run (call inUse c r) = x at hagrees hcourse
    obtain ⟨⟨result, r'⟩, w'⟩ := x
    obtain ⟨hrest, hleft, hlater⟩ := ih r' w'
    dsimp only at hcourse hleft hlater hagrees hrest ⊢
    rw [World.run_bind, World.eventsOf_bind, broughtIn_append, ByteArray.append_assoc,
      ← ByteArray.append_assoc (a := r'.buffer), ← hlater, List.map_cons, CourseReader.readAll]
    generalize w'.run (callAll calls r') = y at hrest hleft
    obtain ⟨⟨results, r''⟩, w''⟩ := y
    rw [hcourse] at hrest hleft
    refine ⟨.cons hagrees hrest, hleft, ?_⟩
    show handedOut ([result] ++ results) ++ _ = _
    rw [handedOut_append, ByteArray.append_assoc]
    refine congrArg _ ?_
    exact ByteArray.append_empty.symm

end ChunkReader

/-- **Whatever is read, how input is delivered does not show.**  Any calls in any order give what
the plain reader gives in front of the course of the source: up to its end, bytes and failures in
their order, however these came in pieces and whether or not a chunk was still in use.  What a chunk
reader and its source have left is what the plain reader has left.  And nothing is lost: what has
been handed out and what is still held are what the source has brought, in its order, also if calls
have failed. -/
theorem reads_as_course (calls : List (ReadCall × Bool)) (w : World) :
    let x := w.run (ChunkReader.callAll calls {})
    let y := CourseReader.readAll (calls.map Prod.fst) ⟨.ofItems w.input, false⟩
    List.Forall₂ Agrees x.1.1 y.1 ∧ x.1.2.course x.2 = y.2 ∧
      handedOut x.1.1 ++ x.1.2.buffer = broughtIn (w.eventsOf (ChunkReader.callAll calls {})) := by
  have h := ChunkReader.agrees_callAll calls {} w
  rw [ChunkReader.course_of_not_ended rfl, Course.behind_empty, ByteArray.empty_append] at h
  exact h

end SealedStream
