import SealedStream.Proofs.Field.Sequence

/-!
# Calls of a reader

Whoever has a field reader can call it for a field of any kind and for all that remains, in any
order and however often, also when a call before has failed (`ReaderCall`, `FieldReader.after`).

A call ends in one of three ways (`ReaderCall.Ends`): with a value, behind just its bytes; where it
was, because bytes are missing; or behind a field whose bytes hold no value in range.  How many
bytes a call needs is known before it, except for a nonce if no algorithm has been read
(`ReaderCall.width?`).

All fields but the nonce and the hint take a fixed number of bytes and then only look at them, so
that they fail alike (`FailsWithin.take_bind`); a hint is read in two steps, and a failure of the
second takes the first back.  What a call reads if it succeeds is known from `run_read_eq_ok`.  For
any sequence of calls the induction is on the calls, and carries that the place is within the
string.

* `reader_calls_keep_to_fields`: how any call of a reader ends, after any others.
-/

namespace SealedStream

/-! ### Calls -/

/-- What a field of a kind is called in a fault. -/
def FieldKind.name : FieldKind → String
  | .mac => "mac"
  | .algorithm => "alg"
  | .iv => "iv"
  | .salt => "slt"
  | .iterations => "ic"
  | .version => "ver"
  | .loopIndex => "lpp"
  | .flags => "flags"
  | .hint => "hint"
  | .size => "size"

/-- How many bytes a field of a kind has, where a reader stands: a nonce as many as the algorithm
needs that was read last, a hint as many as its length says, and one for the length. -/
def FieldKind.width? (r : FieldReader) : FieldKind → Option Nat
  | .mac => some Limits.macBytes
  | .algorithm => some Limits.algorithmBytes
  | .iv => r.algorithm.map Algorithm.ivBytes
  | .salt => some Limits.saltBytes
  | .iterations => some Limits.iterationsBytes
  | .version => some Limits.versionBytes
  | .loopIndex => some Limits.loopBytes
  | .flags => some Limits.flagsBytes
  | .hint => some (Limits.hintLengthBytes
      + readLE (r.bytes.extract r.offset (r.offset + Limits.hintLengthBytes)))
  | .size => some Limits.sizeBytes

/-- What a reader can be called for. -/
inductive ReaderCall
  /-- A field. -/
  | field (kind : FieldKind)
  /-- All that remains. -/
  | rest (name : String)

namespace ReaderCall

/-- What a call gives. -/
abbrev Value : ReaderCall → Type
  | field kind => kind.Value
  | rest _ => ByteArray

/-- What a call does. -/
def read : (call : ReaderCall) → Reading call.Value
  | field kind => kind.read
  | rest name => FieldReader.rest name

/-- What a fault says was called for. -/
def name : ReaderCall → String
  | field kind => kind.name
  | rest name => name

/-- How many bytes a call needs, where a reader stands; that is at least one for what remains. -/
def width? (r : FieldReader) : ReaderCall → Option Nat
  | field kind => kind.width? r
  | rest _ => some (max 1 r.remaining)

/-- The values that a call may give. -/
def InRange (last : Option Algorithm) : (call : ReaderCall) → call.Value → Prop
  | field kind, value => (Field.mk kind value).InRange last
  | rest _, value => value ≠ ByteArray.empty

/-- The bytes of a value. -/
def bytes : (call : ReaderCall) → call.Value → ByteArray
  | field kind, value => (Field.mk kind value).bytes
  | rest _, value => value

/-- The algorithm that was read last, after a value. -/
def remember (last : Option Algorithm) : (call : ReaderCall) → call.Value → Option Algorithm
  | field kind, value => (Field.mk kind value).remember last
  | rest _, _ => last

/-- How a call ends that begins where `r` stands. -/
inductive Ends (call : ReaderCall) (r : FieldReader) :
    Except Fault call.Value → FieldReader → Prop
  /-- With a value that is in range.  The bytes passed are those of the value. -/
  | value (v : call.Value) (inRange : call.InRange r.algorithm v)
      (width : call.width? r = some (call.bytes v).size)
      (enough : r.offset + (call.bytes v).size ≤ r.bytes.size)
      (passed : r.bytes.extract r.offset (r.offset + (call.bytes v).size) = call.bytes v) :
      Ends call r (.ok v)
        ⟨r.bytes, r.offset + (call.bytes v).size, call.remember r.algorithm v⟩
  /-- Where it began, because bytes are missing, or nothing says how many there should be. -/
  | short (reason : String) (missing : ∀ n, call.width? r = some n → r.remaining < n) :
      Ends call r (.error (.malformedField call.name reason)) r
  /-- After the field, because its bytes are not those of any value in range. -/
  | outOfRange (fault : Fault) (n : Nat) (width : call.width? r = some n)
      (enough : n ≤ r.remaining)
      (none : ∀ v, call.InRange r.algorithm v →
        r.bytes.extract r.offset (r.offset + n) ≠ call.bytes v) :
      Ends call r (.error fault) { r with offset := r.offset + n }

end ReaderCall

namespace FieldReader

/-- A reader after some calls, whether or not they failed. -/
def after (calls : List ReaderCall) (r : FieldReader) : FieldReader :=
  calls.foldl (fun r call => (call.read.run r).2) r

/-! ### Bytes that remain, or are missing -/

variable {α : Type} {field : String} {n : Nat} {r : FieldReader}

/-- Every reader whose place is within its string is between what stands before the place and what
stands after it. -/
theorem exists_eq_between (h : r.offset ≤ r.bytes.size) :
    ∃ passed ahead a, r = between passed ahead a := by
  obtain ⟨bytes, offset, a⟩ := r
  obtain ⟨passed, ahead, rfl, rfl⟩ := exists_eq_append_of_le h
  exact ⟨passed, ahead, a, rfl⟩

theorem run_take_of_lt (h : r.remaining < n) :
    (take field n).run r
      = (.error (.malformedField field s!"needs {n} bytes, {r.remaining} remain"), r) := by
  rw [take, run_bind_of_ok (run_get r), if_pos h]
  rfl

theorem run_take_of_le (h : n ≤ r.remaining) :
    (take field n).run r
      = (.ok (r.bytes.extract r.offset (r.offset + n)), { r with offset := r.offset + n }) := by
  rw [take, run_bind_of_ok (run_get r), if_neg (Nat.not_lt_of_le h)]
  rfl

theorem run_takeNat_of_lt (h : r.remaining < n) :
    (takeNat field n).run r
      = (.error (.malformedField field s!"needs {n} bytes, {r.remaining} remain"), r) :=
  run_bind_of_error (run_take_of_lt h)

theorem run_takeNat_of_le (h : n ≤ r.remaining) :
    (takeNat field n).run r
      = (.ok (readLE (r.bytes.extract r.offset (r.offset + n))),
        { r with offset := r.offset + n }) :=
  (run_bind_of_ok (run_take_of_le h)).trans rfl

/-- Bytes with their number in the type are taken as others are. -/
theorem run_data_takeBytes (h : r.offset ≤ r.bytes.size) :
    (Bytes.data <$> takeBytes field n).run r = (take field n).run r := by
  rw [map_eq_pure_bind, takeBytes, bind_assoc, run_bind_of_ok (run_get r)]
  -- The one looks where the bytes would end, the other how many remain: within the string these
  -- are the same.
  by_cases hn : r.offset + n ≤ r.bytes.size
  · rw [dif_pos hn, run_take_of_le (by unfold remaining; omega)]
    rfl
  · rw [dif_neg hn, run_take_of_lt (by unfold remaining; omega)]
    rfl

/-! ### Failures -/

/-- How a program fails, if it does, that needs `width?` bytes for a field: where it began if they
are not there, and after them if they are. -/
structure FailsWithin (field : String) (width? : Option Nat) (x : Reading α) (r : FieldReader) :
    Prop where
  short : (∀ n, width? = some n → r.remaining < n) →
    ∃ reason, x.run r = (.error (.malformedField field reason), r)
  refused : ∀ n, width? = some n → n ≤ r.remaining →
    ∀ fault r', x.run r = (.error fault, r') → r' = { r with offset := r.offset + n }

/-- Bytes that are taken, and then only looked at. -/
theorem FailsWithin.take_bind {f : ByteArray → Reading α} (hf : ∀ b, Atomic (f b)) :
    FailsWithin field (some n) (take field n >>= f) r where
  short h := ⟨_, run_bind_of_error (run_take_of_lt (h n rfl))⟩
  refused := by
    rintro _ ⟨⟩ hn fault r' hrun
    rw [run_bind_of_ok (run_take_of_le hn)] at hrun
    have hkept := hf _ _ fault (congrArg Prod.fst hrun)
    rw [hrun] at hkept
    exact hkept

theorem FailsWithin.take : FailsWithin field (some n) (take field n) r := by
  have h : FailsWithin field (some n) (FieldReader.take field n >>= pure) r :=
    FailsWithin.take_bind fun b => (inert_pure b).atomic
  rwa [bind_pure] at h

theorem FailsWithin.takeNat_bind {f : Nat → Reading α} (hf : ∀ v, Atomic (f v)) :
    FailsWithin field (some n) (takeNat field n >>= f) r := by
  rw [takeNat, bind_assoc]
  exact FailsWithin.take_bind fun b => (inert_pure (readLE b)).bind hf

theorem FailsWithin.congr {width? : Option Nat} {x y : Reading α} (h : x.run r = y.run r)
    (hy : FailsWithin field width? y r) : FailsWithin field width? x r where
  short := h ▸ hy.short
  refused := h ▸ hy.refused

theorem failsWithin_data (h : r.offset ≤ r.bytes.size) :
    FailsWithin field (some n) (Bytes.data <$> takeBytes field n) r :=
  FailsWithin.take.congr (run_data_takeBytes h)

/-- A nonce before any algorithm. -/
theorem run_iv_of_none (h : r.algorithm = none) :
    iv.run r = (.error (.malformedField "iv" "algorithm must be read first"), r) := by
  rw [iv, run_bind_of_ok (run_get r), h]
  rfl

theorem failsWithin_iv : FailsWithin "iv" (r.algorithm.map Algorithm.ivBytes) iv r := by
  cases ha : r.algorithm with
  | none => exact ⟨fun _ => ⟨_, run_iv_of_none ha⟩, nofun⟩
  | some a =>
    have hrun : iv.run r = (FieldReader.take "iv" a.ivBytes).run r := by
      rw [iv, run_bind_of_ok (run_get r), ha]
    exact FailsWithin.take.congr hrun

/-- A hint whose length or whose bytes are missing is not read at all. -/
theorem failsWithin_hint :
    FailsWithin "hint" (some (Limits.hintLengthBytes
      + readLE (r.bytes.extract r.offset (r.offset + Limits.hintLengthBytes)))) hint r := by
  by_cases hlength : r.remaining < Limits.hintLengthBytes
  · -- There is not even a length.
    constructor
    · intro _
      rw [hint, run_bind_of_ok (run_get r), run_bind_of_error (run_takeNat_of_lt hlength)]
      exact ⟨_, rfl⟩
    · rintro _ ⟨⟩ hn
      omega
  have hremaining : ({ r with offset := r.offset + Limits.hintLengthBytes } : FieldReader).remaining
      = r.remaining - Limits.hintLengthBytes :=
    Nat.sub_add_eq ..
  rw [Nat.not_lt] at hlength
  constructor
  · -- The length is there and is taken, and the handler takes it back.
    intro h
    have hshort := h _ rfl
    rw [hint, run_bind_of_ok (run_get r), run_bind_of_ok (run_takeNat_of_le hlength), run_tryCatch,
      run_take_of_lt (by rw [hremaining]; omega)]
    exact ⟨_, rfl⟩
  · rintro _ ⟨⟩ hn fault r' hfail
    rw [hint, run_bind_of_ok (run_get r), run_bind_of_ok (run_takeNat_of_le hlength), run_tryCatch,
      run_take_of_le (by rw [hremaining]; omega)] at hfail
    cases hfail

theorem failsWithin_rest : FailsWithin field (some (max 1 r.remaining)) (rest field) r := by
  constructor
  · intro h
    have hnone : r.remaining = 0 := by
      have := h _ rfl
      omega
    rw [rest, run_bind_of_ok (run_get r), if_pos hnone]
    exact ⟨_, rfl⟩
  · rintro _ ⟨⟩ hn fault r' hfail
    rw [rest, run_bind_of_ok (run_get r), if_neg (by omega)] at hfail
    cases hfail

end FieldReader

/-! ### How calls end -/

namespace FieldKind

open FieldReader

/-- **A field that is not read** is passed if its bytes are there, and else is not. -/
theorem failsWithin (kind : FieldKind) {r : FieldReader} (hr : r.offset ≤ r.bytes.size) :
    FailsWithin kind.name (kind.width? r) kind.read r := by
  cases kind with
  | mac => exact failsWithin_data hr
  | algorithm =>
    -- An unknown number is refused before anything is remembered.
    refine FailsWithin.takeNat_bind fun n => ?_
    cases Algorithm.ofId? n with
    | none => exact (inert_throw _).atomic
    | some a => exact nofun
  | iv => exact failsWithin_iv
  | salt => exact failsWithin_data hr
  | iterations => exact FailsWithin.takeNat_bind fun n => (inert_check _).atomic
  | version => exact FailsWithin.takeNat_bind fun n => (inert_check _).atomic
  | loopIndex => exact FailsWithin.take_bind fun b => (inert_check _).atomic
  | flags => exact FailsWithin.takeNat_bind fun n => (inert_check _).atomic
  | hint => exact failsWithin_hint
  | size => exact FailsWithin.takeNat_bind fun n => (inert_check _).atomic

/-- A reader that stands before the bytes of a value in range knows how many they are. -/
theorem width?_between {kind : FieldKind} {value : kind.Value} {passed after : ByteArray}
    {last : Option Algorithm} (h : (Field.mk kind value).InRange last) :
    kind.width? (between passed ((Field.mk kind value).bytes ++ after) last)
      = some (Field.mk kind value).bytes.size := by
  cases kind with
  | mac | salt => exact congrArg some (Eq.symm h)
  | iv =>
    obtain ⟨a, rfl, hsize⟩ := h
    exact congrArg some hsize.symm
  | algorithm | iterations | version | flags | size => exact congrArg some (size_writeLE _ _).symm
  | loopIndex => rfl
  | hint =>
    have hlength : (passed ++ ((Field.mk .hint value).bytes ++ after)).extract passed.size
        (passed.size + Limits.hintLengthBytes) = writeLE Limits.hintLengthBytes value.size := by
      rw [Field.bytes, ByteArray.append_assoc]
      exact extract_passed (size_writeLE _ _)
    rw [width?, bytes_between, offset_between, hlength, readLE_writeLE (Nat.lt_succ_of_le h),
      Field.bytes, ByteArray.size_append, size_writeLE]

end FieldKind

namespace ReaderCall

open FieldReader

theorem failsWithin (call : ReaderCall) {r : FieldReader} (hr : r.offset ≤ r.bytes.size) :
    FailsWithin call.name (call.width? r) call.read r := by
  cases call with
  | field kind => exact kind.failsWithin hr
  | rest name => exact failsWithin_rest

/-- **A call succeeds** if the bytes of a value in range are ahead, and as many as it needs. -/
theorem run_read_eq_ok {call : ReaderCall} {v : call.Value} {passed ahead : ByteArray}
    {last : Option Algorithm} {r' : FieldReader} :
    call.read.run (between passed ahead last) = (.ok v, r') ↔
      call.InRange last v ∧ call.width? (between passed ahead last) = some (call.bytes v).size ∧
        ∃ after, ahead = call.bytes v ++ after ∧
          r' = between (passed ++ call.bytes v) after (call.remember last v) := by
  cases call with
  | field kind =>
    refine SealedStream.run_read_eq_ok.trans (and_congr_right fun h => ?_)
    constructor
    · rintro ⟨after, rfl, rfl⟩
      exact ⟨FieldKind.width?_between h, after, rfl, rfl⟩
    · exact And.right
  | rest name =>
    refine run_rest_eq_ok.trans ?_
    constructor
    · rintro ⟨hne, rfl, rfl⟩
      have hsize : v.size ≠ 0 := fun h => hne (ByteArray.size_eq_zero_iff.1 h)
      refine ⟨hne, ?_, .empty, ByteArray.append_empty.symm, rfl⟩
      rw [width?, remaining_between]
      exact congrArg some (Nat.max_eq_right (Nat.pos_of_ne_zero hsize))
    · rintro ⟨hne, hwidth, after, rfl, rfl⟩
      -- All that remains is no more than the value.
      have hsize : max 1 (v ++ after).size = v.size := by
        rw [width?, remaining_between] at hwidth
        exact Option.some.inj hwidth
      obtain rfl : after = .empty := by
        rw [ByteArray.size_append] at hsize
        exact ByteArray.size_eq_zero_iff.1 (by omega)
      rw [bytes, ByteArray.append_empty]
      exact ⟨hne, rfl, rfl⟩

/-- **A call ends** in one of the three ways, if it begins within the string. -/
theorem ends (call : ReaderCall) {r : FieldReader} (hr : r.offset ≤ r.bytes.size) :
    call.Ends r (call.read.run r).1 (call.read.run r).2 := by
  have hfails := call.failsWithin hr
  by_cases hmissing : ∀ n, call.width? r = some n → r.remaining < n
  · obtain ⟨reason, hrun⟩ := hfails.short hmissing
    rw [hrun]
    exact .short reason hmissing
  simp only [Classical.not_forall, Nat.not_lt, exists_prop] at hmissing
  obtain ⟨n, hwidth, hn⟩ := hmissing
  cases hrun : call.read.run r with
  | mk result r' =>
  obtain ⟨passed, ahead, last, rfl⟩ := exists_eq_between hr
  cases result with
  | ok v =>
    obtain ⟨hrange, hsize, after, rfl, rfl⟩ := run_read_eq_ok.1 hrun
    rw [← mk_eq_between]
    exact .value v hrange hsize (by simp) (extract_passed rfl)
  | error fault =>
    obtain rfl := hfails.refused n hwidth hn fault r' hrun
    refine .outOfRange fault n hwidth hn fun v hrange hpassed => ?_
    -- Else the call would have succeeded.
    rw [remaining_between] at hn
    obtain ⟨b, after, rfl, hb⟩ := exists_eq_append_of_le hn
    rw [bytes_between, offset_between, extract_passed hb] at hpassed
    have hsize : call.width? (between passed (b ++ after) last) = some (call.bytes v).size := by
      rw [hwidth, ← hpassed, hb]
    have hok := run_read_eq_ok.2 ⟨hrange, hsize, after, by rw [hpassed], rfl⟩
    cases hrun.symm.trans hok

variable {call : ReaderCall} {r r' : FieldReader} {result : Except Fault call.Value}

/-- The string stays, and the place moves on within it. -/
theorem Ends.keeps (h : call.Ends r result r') (hr : r.offset ≤ r.bytes.size) :
    r'.bytes = r.bytes ∧ r.offset ≤ r'.offset ∧ r'.offset ≤ r.bytes.size := by
  cases h with
  | value v _ _ enough => exact ⟨rfl, Nat.le_add_right .., enough⟩
  | short => exact ⟨rfl, Nat.le_refl _, hr⟩
  | outOfRange _ n _ enough =>
    have hle : r.offset + n ≤ r.bytes.size := by
      unfold FieldReader.remaining at enough
      omega
    exact ⟨rfl, Nat.le_add_right .., hle⟩

/-- Only a call for an algorithm changes which was read last. -/
theorem Ends.algorithm_eq (h : call.Ends r result r') (hcall : call ≠ .field .algorithm) :
    r'.algorithm = r.algorithm := by
  cases h with
  | value v =>
    cases call with
    | field kind =>
      cases kind with
      | algorithm => exact absurd rfl hcall
      | _ => rfl
    | rest name => rfl
  | short => rfl
  | outOfRange => rfl

end ReaderCall

/-! ### Any calls -/

namespace FieldReader

/-- After any calls the string is the same, and the place is not before where it was, nor beyond the
end. -/
theorem after_keeps (calls : List ReaderCall) {r : FieldReader} (hr : r.offset ≤ r.bytes.size) :
    (r.after calls).bytes = r.bytes ∧ r.offset ≤ (r.after calls).offset ∧
      (r.after calls).offset ≤ r.bytes.size := by
  induction calls generalizing r with
  | nil => exact ⟨rfl, Nat.le_refl _, hr⟩
  | cons call calls ih =>
    obtain ⟨hbytes, hfrom, hto⟩ := (call.ends hr).keeps hr
    obtain ⟨hbytes', hfrom', hto'⟩ := ih (hbytes ▸ hto)
    exact ⟨hbytes'.trans hbytes, Nat.le_trans hfrom hfrom', hbytes ▸ hto'⟩

/-- Calls of which none is for an algorithm leave it as it was. -/
theorem algorithm_after {calls : List ReaderCall} {r : FieldReader} (hr : r.offset ≤ r.bytes.size)
    (hcalls : ∀ call ∈ calls, call ≠ .field .algorithm) :
    (r.after calls).algorithm = r.algorithm := by
  induction calls generalizing r with
  | nil => rfl
  | cons call calls ih =>
    have hends := call.ends hr
    obtain ⟨hbytes, -, hto⟩ := hends.keeps hr
    have hcall := hends.algorithm_eq (hcalls call (List.mem_cons_self ..))
    exact (ih (hbytes ▸ hto) fun c hc => hcalls c (List.mem_cons_of_mem _ hc)).trans hcall

end FieldReader

/-- **Calls of a reader keep to the fields.**  From the start of any string on, after any calls,
also failed ones, the place is within the string, and one more call does not move it back, nor
beyond the end.  That call gives the value of just the bytes that it passes; or it leaves the reader
as it was, because bytes are missing, those of a hint among them; or it passes just the field,
because its bytes hold no value in range.  Before any call for an algorithm, a nonce is not read. -/
theorem reader_calls_keep_to_fields (bytes : ByteArray) (calls : List ReaderCall)
    (call : ReaderCall) :
    let r := FieldReader.after calls { bytes }
    let result := (call.read.run r).1
    let r' := (call.read.run r).2
    r.bytes = bytes ∧ r'.bytes = bytes ∧ r.offset ≤ r'.offset ∧ r'.offset ≤ bytes.size ∧
      call.Ends r result r' ∧
      ((∀ c ∈ calls, c ≠ .field .algorithm) →
        FieldKind.iv.read.run r
          = (.error (.malformedField "iv" "algorithm must be read first"), r)) := by
  intro r result r'
  have hstart : ({ bytes } : FieldReader).offset ≤ bytes.size := Nat.zero_le _
  have ⟨(hbytes : r.bytes = bytes), _, hle⟩ := FieldReader.after_keeps calls hstart
  have hr : r.offset ≤ r.bytes.size := hbytes ▸ hle
  have hends : call.Ends r result r' := call.ends hr
  obtain ⟨hbytes', hfrom, hto⟩ := hends.keeps hr
  refine ⟨hbytes, hbytes'.trans hbytes, hfrom, hbytes ▸ hto, hends, fun hcalls => ?_⟩
  exact FieldReader.run_iv_of_none (FieldReader.algorithm_after hstart hcalls)

end SealedStream
