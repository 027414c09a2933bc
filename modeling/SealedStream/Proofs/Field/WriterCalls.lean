import SealedStream.Proofs.Field.Sequence

/-!
# Calls of a writer

Whoever has a field writer can call it for any field, for bytes of any kind and for another place,
in any order and however often, also when a call before was refused (`WriterCall`,
`FieldWriter.after`).

A call that is refused changes nothing: all its checks come before it writes (`Field.atomic_write`).
A sealed hint could as well be written in two parts, its length and then its bytes, since the room
for both is checked first (`FieldWriter.hint_eq_hintInParts`).  What a call writes that is not
refused is known from `WritesWhen`; for any sequence of calls the induction is on the calls, and
carries that the place is within the string.

* `writer_calls_are_local`: what any call does to a writer, after any others.
-/

namespace SealedStream

/-! ### Calls that are refused -/

namespace FieldWriter

theorem atomic_put (field : String) (b : ByteArray) : Atomic (put field b) :=
  inert_get.bind fun w => (atomic_set (w.replace b)).unless

theorem atomic_putNat (field : String) (n width : Nat) : Atomic (putNat field n width) :=
  (atomic_put field _).unless

theorem atomic_seek (offset : Nat) : Atomic (seek offset) :=
  inert_get.bind fun w => (atomic_set { w with offset }).unless

/-- The place is moved anywhere within the string. -/
theorem run_seek_eq_ok {offset : Nat} {w w' : FieldWriter} {u : Unit} :
    (seek offset).run w = (.ok u, w') ↔ offset ≤ w.buffer.size ∧ w' = { w with offset } := by
  simp only [seek, run_bind_eq_ok, run_get_eq_ok]
  constructor
  · rintro ⟨_, _, ⟨rfl, rfl⟩, h⟩
    obtain ⟨hle, hset⟩ := run_unless_eq_ok.1 h
    exact ⟨Nat.le_of_not_lt hle, run_set_eq_ok.1 hset⟩
  · rintro ⟨hle, rfl⟩
    exact ⟨_, _, ⟨rfl, rfl⟩, run_unless_eq_ok.2 ⟨Nat.not_lt_of_le hle, run_set_eq_ok.2 rfl⟩⟩

end FieldWriter

/-- **A field that is refused** changes nothing. -/
theorem Field.atomic_write (last : Option Algorithm) (f : Field) : Atomic (f.write last) := by
  obtain ⟨kind, value⟩ := f
  cases kind with
  | mac => exact (FieldWriter.atomic_put "mac" value).unless
  | algorithm => exact FieldWriter.atomic_putNat "alg" _ _
  | iv =>
    cases last with
    | none => exact (inert_throw _).atomic
    | some a => exact (FieldWriter.atomic_put "iv" value).unless
  | salt => exact (FieldWriter.atomic_put "slt" value).unless
  | iterations => exact (inert_check _).bind fun n => FieldWriter.atomic_putNat "ic" n _
  | version => exact (inert_check _).bind fun n => FieldWriter.atomic_putNat "ver" n _
  | loopIndex => exact (inert_check _).bind fun l => FieldWriter.atomic_put "lpp" _
  | flags => exact (inert_check _).bind fun n => FieldWriter.atomic_put "flags" _
  | hint => exact (FieldWriter.atomic_put "hint" _).unless
  | size => exact (inert_check _).bind fun n => FieldWriter.atomic_putNat "size" n _

/-! ### Hints in two parts -/

namespace FieldWriter

/-- Every writer whose place is within its string is between what stands before the place and what
stands after it. -/
theorem exists_eq_between {w : FieldWriter} (h : w.offset ≤ w.buffer.size) :
    ∃ done ahead, w = between done ahead := by
  obtain ⟨buffer, offset⟩ := w
  obtain ⟨done, ahead, rfl, rfl⟩ := exists_eq_append_of_le h
  exact ⟨done, ahead, rfl⟩

/-- Writes a sealed hint as two fields, the length and the bytes. -/
def hintInParts (bytes : ByteArray) : Writing Unit := do
  if Limits.sealedHintMax < bytes.size then throw (.hintField bytes.size)
  let w ← get
  let needed := Limits.hintLengthBytes + bytes.size
  if w.free < needed then
    throw (.malformedField "hint" s!"needs {needed} bytes, {w.free} free")
  put "hint" (writeLE Limits.hintLengthBytes bytes.size)
  put "hint" bytes

theorem run_hintInParts (bytes : ByteArray) (w : FieldWriter) :
    (hintInParts bytes).run w = (hint bytes).run w := by
  have hsize : (writeLE Limits.hintLengthBytes bytes.size ++ bytes).size
      = Limits.hintLengthBytes + bytes.size := by
    rw [ByteArray.size_append, size_writeLE]
  unfold hint hintInParts
  by_cases hlong : Limits.sealedHintMax < bytes.size
  · rw [if_pos hlong, if_pos hlong]
    rfl
  rw [if_neg hlong, if_neg hlong, run_bind_of_ok (run_get w)]
  by_cases hroom : w.free < Limits.hintLengthBytes + bytes.size
  · -- Both are refused with the same text, before anything is written.
    rw [if_pos hroom]
    have hput : (put "hint" (writeLE Limits.hintLengthBytes bytes.size ++ bytes)).run w
        = (.error (.malformedField "hint"
            s!"needs {Limits.hintLengthBytes + bytes.size} bytes, {w.free} free"), w) := by
      rw [put, run_bind_of_ok (run_get w), hsize, if_pos hroom]
      rfl
    exact (run_bind_of_error rfl).trans hput.symm
  · -- There is room, so that the place is within the string, and both parts are written.
    rw [if_neg hroom]
    have hle : w.offset ≤ w.buffer.size := by
      have h1 : Limits.hintLengthBytes = 1 := rfl
      unfold free at hroom
      omega
    obtain ⟨done, ahead, rfl⟩ := exists_eq_between hle
    rw [free_between, ← hsize] at hroom
    obtain ⟨old, rest, rfl, hold⟩ := exists_eq_append_of_le (Nat.le_of_not_lt hroom)
    have hparts := ((writesWhen_put "hint" (writeLE Limits.hintLengthBytes bytes.size)).bind
      (writesWhen_put "hint" bytes)).writes ⟨trivial, trivial⟩ done old rest hold
    have hwhole := (writesWhen_put "hint" _).writes trivial done old rest hold
    exact hparts.trans hwhole.symm

/-- **A hint in two parts** is one field: if there is room for both, neither part is refused. -/
theorem hint_eq_hintInParts (bytes : ByteArray) : hint bytes = hintInParts bytes :=
  funext fun w => (run_hintInParts bytes w).symm

end FieldWriter

/-! ### Calls -/

/-- What a writer can be called for. -/
inductive WriterCall
  /-- A field; if it is a nonce, it is one of the algorithm `a`. -/
  | field (a : Algorithm) (f : Field)
  /-- Bytes of any kind. -/
  | bytes (b : ByteArray)
  /-- Another place. -/
  | seek (offset : Nat)

namespace WriterCall

/-- What a call does. -/
def program : WriterCall → Writing Unit
  | field a f => f.write (some a)
  | bytes b => FieldWriter.bytes b
  | seek offset => FieldWriter.seek offset

end WriterCall

namespace FieldWriter

/-- A writer after some calls, whether or not they were refused. -/
def after (calls : List WriterCall) (w : FieldWriter) : FieldWriter :=
  calls.foldl (fun w call => (call.program.run w).2) w

/-- Only the bytes from the place on have been replaced, by the bytes `b`, and the place is behind
them. -/
structure Wrote (w w' : FieldWriter) (b : ByteArray) : Prop where
  moved : w'.offset = w.offset + b.size
  wrote : w'.buffer.extract w.offset w'.offset = b
  kept : ∀ i, i < w.offset ∨ w'.offset ≤ i → byteAt w'.buffer i = byteAt w.buffer i

theorem wrote_between {done old rest b : ByteArray} (h : old.size = b.size) :
    (between done (old ++ rest)).Wrote (between (done ++ b) rest) b where
  moved := ByteArray.size_append
  wrote := by
    show (done ++ b ++ rest).extract done.size (done ++ b).size = b
    rw [ByteArray.append_assoc, ByteArray.size_append]
    exact FieldReader.extract_passed rfl
  kept i hi := by
    show byteAt (done ++ b ++ rest) i = byteAt (done ++ (old ++ rest)) i
    have hs : (done ++ b).size = done.size + b.size := ByteArray.size_append
    -- Both strings begin with `done` and end with `rest`, which stands in the same place.
    rcases hi with hi | hi
    · have hdone : i < done.size := hi
      rw [byteAt_append_left (by omega), byteAt_append_left hdone, byteAt_append_left hdone]
    · have hrest : (done ++ b).size ≤ i := hi
      rw [← ByteArray.append_assoc, byteAt_append_right hrest, byteAt_append_right (by
        rw [ByteArray.size_append, h]
        omega), ByteArray.size_append, ByteArray.size_append, h]

end FieldWriter

namespace WriterCall

/-- A call that is not refused: its values are in range, and there is room. -/
def Fits (w : FieldWriter) : WriterCall → Prop
  | field a f => f.InRange (some a) ∧ f.bytes.size ≤ w.free
  | bytes b => b.size ≤ w.free
  | seek offset => offset ≤ w.buffer.size

/-- What a call that is not refused makes of a writer. -/
def Makes (w w' : FieldWriter) : WriterCall → Prop
  | field _ f => w.Wrote w' f.bytes
  | bytes b => w.Wrote w' b
  | seek offset => w' = { w with offset }

/-- What a call does to a writer: the string keeps its length, the place stays within it, and a call
that is refused changes nothing. -/
structure Effect (call : WriterCall) (w : FieldWriter) (result : Except Fault Unit)
    (w' : FieldWriter) : Prop where
  size_buffer : w'.buffer.size = w.buffer.size
  offset_le : w'.offset ≤ w'.buffer.size
  fits_iff : result = .ok ⟨⟩ ↔ call.Fits w
  makes : result = .ok ⟨⟩ → call.Makes w w'
  refused : ∀ fault, result = .error fault → w' = w

/-- A call that changes nothing if it fails, and does what it should if it succeeds. -/
theorem effect_of_ok {call : WriterCall} {w : FieldWriter} (hw : w.offset ≤ w.buffer.size)
    (hatomic : Atomic call.program)
    (hfits : call.Fits w ↔ ∃ w', call.program.run w = (.ok ⟨⟩, w'))
    (hmakes : ∀ w', call.program.run w = (.ok ⟨⟩, w') →
      w'.buffer.size = w.buffer.size ∧ w'.offset ≤ w'.buffer.size ∧ call.Makes w w') :
    call.Effect w (call.program.run w).1 (call.program.run w).2 := by
  have hrefused := hatomic w
  cases hrun : call.program.run w with
  | mk result w' =>
  rw [hrun] at hrefused
  cases result with
  | ok u =>
    obtain ⟨hsize, hle, hmade⟩ := hmakes w' hrun
    exact {
      size_buffer := hsize
      offset_le := hle
      fits_iff := iff_of_true rfl (hfits.2 ⟨w', hrun⟩)
      makes := fun _ => hmade
      refused := nofun }
  | error fault =>
    obtain rfl : w' = w := hrefused fault rfl
    have hnot : ¬ call.Fits w' := by
      intro h
      obtain ⟨_, hok⟩ := hfits.1 h
      rw [hrun] at hok
      cases hok
    exact {
      size_buffer := rfl
      offset_le := hw
      fits_iff := iff_of_false nofun hnot
      makes := nofun
      refused := fun _ _ => rfl }

/-- A call that writes the bytes `b`. -/
theorem effect_of_writesWhen {call : WriterCall} {w : FieldWriter} {p : Prop} {b : ByteArray}
    (hw : w.offset ≤ w.buffer.size) (hatomic : Atomic call.program)
    (hwrites : FieldWriter.WritesWhen p call.program b)
    (hfits : call.Fits w ↔ p ∧ b.size ≤ w.free) (hmakes : ∀ w', w.Wrote w' b → call.Makes w w') :
    call.Effect w (call.program.run w).1 (call.program.run w).2 := by
  obtain ⟨done, ahead, rfl⟩ := FieldWriter.exists_eq_between hw
  rw [FieldWriter.free_between] at hfits
  refine effect_of_ok hw hatomic (hfits.trans ⟨?_, ?_⟩) ?_
  · -- If there is room, the bytes ahead begin with as many as are written.
    rintro ⟨hp, hroom⟩
    obtain ⟨old, rest, rfl, hsize⟩ := exists_eq_append_of_le hroom
    exact ⟨_, hwrites.writes hp done old rest hsize⟩
  · rintro ⟨w', hrun⟩
    obtain ⟨hp, old, rest, rfl, hsize, -⟩ := (hwrites ..).1 hrun
    exact ⟨hp, by rw [ByteArray.size_append]; omega⟩
  · intro w' hrun
    obtain ⟨-, old, rest, rfl, hsize, rfl⟩ := (hwrites ..).1 hrun
    refine ⟨?_, ?_, hmakes _ (FieldWriter.wrote_between hsize)⟩
    · show (done ++ b ++ rest).size = (done ++ (old ++ rest)).size
      simp only [ByteArray.size_append, hsize]
      omega
    · show (done ++ b).size ≤ (done ++ b ++ rest).size
      simp only [ByteArray.size_append]
      omega

/-- **A call**, of a writer whose place is within its string. -/
theorem effect (call : WriterCall) {w : FieldWriter} (hw : w.offset ≤ w.buffer.size) :
    call.Effect w (call.program.run w).1 (call.program.run w).2 := by
  cases call with
  | field a f =>
    exact effect_of_writesWhen hw (f.atomic_write (some a)) (f.writesWhen (some a)) Iff.rfl
      fun _ h => h
  | bytes b =>
    have hfits : (bytes b).Fits w ↔ True ∧ b.size ≤ w.free := (iff_of_eq (true_and _)).symm
    exact effect_of_writesWhen hw (FieldWriter.atomic_put "bytes" b)
      (FieldWriter.writesWhen_put "bytes" b) hfits fun _ h => h
  | seek offset =>
    refine effect_of_ok hw (FieldWriter.atomic_seek offset) ⟨?_, ?_⟩ ?_
    · exact fun hle => ⟨_, FieldWriter.run_seek_eq_ok.2 ⟨hle, rfl⟩⟩
    · rintro ⟨w', hrun⟩
      exact (FieldWriter.run_seek_eq_ok.1 hrun).1
    · intro w' hrun
      obtain ⟨hle, rfl⟩ := FieldWriter.run_seek_eq_ok.1 hrun
      exact ⟨rfl, hle, rfl⟩

end WriterCall

/-! ### Any calls -/

namespace FieldWriter

theorem ofSize_offset_le (size offset : Nat) :
    (ofSize size offset).offset ≤ (ofSize size offset).buffer.size := by
  show min offset size ≤ (zeros size).size
  rw [size_zeros]
  exact Nat.min_le_right offset size

/-- After any calls the string has the length it had, and the place is within it. -/
theorem after_keeps (calls : List WriterCall) {w : FieldWriter} (hw : w.offset ≤ w.buffer.size) :
    (w.after calls).buffer.size = w.buffer.size ∧
      (w.after calls).offset ≤ (w.after calls).buffer.size := by
  induction calls generalizing w with
  | nil => exact ⟨rfl, hw⟩
  | cons call calls ih =>
    have hcall := call.effect hw
    obtain ⟨hsize, hoffset⟩ := ih hcall.offset_le
    exact ⟨hsize.trans hcall.size_buffer, hoffset⟩

/-- What has been written is the string up to the place. -/
theorem buffer_eq_written_append (w : FieldWriter) (hw : w.offset ≤ w.buffer.size) :
    w.written.size = w.offset ∧
      w.buffer = w.written ++ w.buffer.extract w.offset w.buffer.size := by
  obtain ⟨done, ahead, rfl⟩ := exists_eq_between hw
  rw [written_between]
  exact ⟨rfl, congrArg (done ++ ·) (extract_append_right rfl rfl).symm⟩

end FieldWriter

/-- **Calls of a writer are local, and those that are refused change nothing.**  From any number of
zero bytes and any place on, after any calls, also refused ones, the string has its length and the
place is within it; what has been written is the string up to the place.  One more call succeeds if
its values are in range and there is room for its bytes.  Then it replaces just the bytes between
the old place and the new one, by its own, or moves the place and changes no byte; and if it fails,
string and place are as they were.  This includes a sealed hint, which is as good as written in two
parts. -/
theorem writer_calls_are_local :
    (∀ bytes, FieldWriter.hint bytes = FieldWriter.hintInParts bytes) ∧
    ∀ (size offset : Nat) (calls : List WriterCall) (call : WriterCall),
      let w := (FieldWriter.ofSize size offset).after calls
      w.buffer.size = size ∧ w.offset ≤ size ∧
        w.written.size = w.offset ∧ w.buffer = w.written ++ w.buffer.extract w.offset size ∧
        call.Effect w (call.program.run w).1 (call.program.run w).2 := by
  refine ⟨FieldWriter.hint_eq_hintInParts, ?_⟩
  intro size offset calls call w
  have hkeeps := FieldWriter.after_keeps calls (FieldWriter.ofSize_offset_le size offset)
  have hsize : w.buffer.size = size := hkeeps.1.trans (size_zeros size)
  have hoffset : w.offset ≤ w.buffer.size := hkeeps.2
  obtain ⟨hwritten, hbuffer⟩ := w.buffer_eq_written_append hoffset
  rw [hsize] at hbuffer
  exact ⟨hsize, hsize ▸ hoffset, hwritten, hbuffer, call.effect hoffset⟩

end SealedStream
