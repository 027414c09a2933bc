import SealedStream.Decryptor
import SealedStream.Proofs.Message

/-!
# Parts that are there

A part of some bytes can be asked for that they do not have, and a number taken from a smaller one.
What runs gives something even then: what there is of the part, or zero.  Here, whatever takes
received bytes apart is stated a second time, with operations that give nothing in such a case
(`slice?`, `minus?`, `byte?`, `fit?`, `Bytes.ofByteArray?`).  Both give the same on all bytes, so
that nothing is ever asked for that is not there.

* `FieldReader.InBounds`: a reading that stays within its bytes, wherever it starts.
* `parts_are_there`: so does all that opening a block does with its bytes.
-/

namespace SealedStream

variable {α β : Type}

/-! ### Operations that can give nothing -/

/-- The bytes from `i` up to `j`, if they are there. -/
def slice? (b : ByteArray) (i j : Nat) : Option ByteArray :=
  if i ≤ j ∧ j ≤ b.size then some (b.extract i j) else none

/-- The difference of two numbers, if the second is not the greater. -/
def minus? (m n : Nat) : Option Nat :=
  if n ≤ m then some (m - n) else none

/-- The byte at index `i`, if it is there. -/
def byte? (b : ByteArray) (i : Nat) : Option UInt8 :=
  if i < b.size then some (byteAt b i) else none

/-- A number, if it fits in a byte. -/
def fit? (n : Nat) : Option Nat :=
  if n < 256 then some n else none

theorem slice?_eq {b : ByteArray} {i j : Nat} (hi : i ≤ j) (hj : j ≤ b.size) :
    slice? b i j = some (b.extract i j) :=
  if_pos ⟨hi, hj⟩

theorem minus?_eq {m n : Nat} (h : n ≤ m) : minus? m n = some (m - n) :=
  if_pos h

theorem byte?_eq {b : ByteArray} {i : Nat} (h : i < b.size) : byte? b i = some (byteAt b i) :=
  if_pos h

theorem fit?_eq {n : Nat} (h : n < 256) : fit? n = some n :=
  if_pos h

theorem Bytes.ofByteArray?_eq {n : Nat} {b : ByteArray} (h : b.size = n) :
    Bytes.ofByteArray? n b = some ⟨b, h⟩ :=
  dif_pos h

/-- A check that can give nothing. -/
abbrev Partial (α : Type) := ExceptT Fault Option α

/-- A check gives something if its parts do. -/
theorem Partial.bind {x? : Partial α} {f? : α → Partial β} {x : Except Fault α}
    {f : α → Except Fault β} (hx : x? = some x) (hf : ∀ a, x = .ok a → f? a = some (f a)) :
    x? >>= f? = some (x >>= f) := by
  subst hx
  cases x with
  | error fault => rfl
  | ok a => exact hf a rfl

theorem Partial.ite {c : Prop} [Decidable c] {x? y? : Partial α} {x y : Except Fault α}
    (hx : x? = some x) (hy : y? = some y) :
    (if c then x? else y?) = some (if c then x else y) := by
  split
  · exact hx
  · exact hy

theorem Partial.except (x : Except Fault α) : (liftM x : Partial α) = some x := by
  cases x with
  | error fault => rfl
  | ok a => rfl

theorem Partial.bind_part {o : Option α} {a : α} (ho : o = some a) (f? : α → Partial β) :
    (liftM o : Partial α) >>= f? = f? a := by
  subst ho
  rfl

/-! ### Fields -/

/-- A reading that can give nothing. -/
abbrev PartialReading (α : Type) := ExceptT Fault (StateT FieldReader Option) α

namespace FieldReader

/-- `FieldReader.take`, of bytes that are there. -/
def take? (field : String) (n : Nat) : PartialReading ByteArray := do
  let r ← get
  let remaining ← minus? r.bytes.size r.offset
  if remaining < n then
    throw (.malformedField field s!"needs {n} bytes, {remaining} remain")
  set { r with offset := r.offset + n }
  slice? r.bytes r.offset (r.offset + n)

/-- `FieldReader.takeBytes`, with as many bytes as its type says. -/
def takeBytes? (field : String) (n : Nat) : PartialReading (Bytes n) := do
  let b ← take? field n
  Bytes.ofByteArray? n b

/-- `FieldReader.takeNat`. -/
def takeNat? (field : String) (n : Nat) : PartialReading Nat := do
  return readLE (← take? field n)

/-- A single byte, which is there. -/
def takeByte? (field : String) : PartialReading UInt8 := do
  let b ← take? field 1
  byte? b 0

/-- `FieldReader.readAlgorithm`. -/
def readAlgorithm? : PartialReading Algorithm := do
  let n ← takeNat? "alg" Limits.algorithmBytes
  match Algorithm.ofId? n with
  | some a =>
    modify ({ · with algorithm := some a })
    return a
  | none => throw (.malformedField "alg" s!"unknown algorithm id {n}")

/-- `FieldReader.iv`. -/
def iv? : PartialReading ByteArray := do
  match (← get).algorithm with
  | some a => take? "iv" a.ivBytes
  | none => throw (.malformedField "iv" "algorithm must be read first")

/-- `FieldReader.iterations`. -/
def iterations? : PartialReading Nat := do
  let n ← takeNat? "ic" Limits.iterationsBytes
  checkIterationsField n

/-- `FieldReader.version`. -/
def version? : PartialReading Nat := do
  let n ← takeNat? "ver" Limits.versionBytes
  checkVersion n

/-- `FieldReader.loopIndex`, of numbers that fit in a byte. -/
def loopIndex? : PartialReading LoopIndex := do
  let b ← takeByte? "lpp"
  let index ← fit? (b.toNat % 16 + 1)
  let count ← fit? (b.toNat / 16 + 1)
  LoopIndex.check ⟨index, count⟩

/-- `FieldReader.flags`. -/
def flags? : PartialReading Nat := do
  let b ← takeByte? "flags"
  checkFlags b.toNat

/-- `FieldReader.hint`. -/
def hint? : PartialReading ByteArray := do
  let start ← get
  let b ← takeByte? "hint"
  tryCatch (take? "hint" b.toNat) fun fault => do
    set start
    throw fault

/-- `FieldReader.size`. -/
def size? : PartialReading Nat := do
  let n ← takeNat? "size" Limits.sizeBytes
  checkSize n

/-- `FieldReader.rest`, of bytes that are there. -/
def rest? (field : String) : PartialReading ByteArray := do
  let r ← get
  let remaining ← minus? r.bytes.size r.offset
  if remaining = 0 then throw (.malformedField field "no bytes remain")
  set { r with offset := r.bytes.size }
  slice? r.bytes r.offset r.bytes.size

/-! ### Readings that stay within their bytes -/

/-- **A reading stays within its bytes**: wherever in them it starts, `x?` gives what it gives, and
it leaves a place in them. -/
def InBounds (x? : PartialReading α) (x : Reading α) : Prop :=
  ∀ r : FieldReader, r.offset ≤ r.bytes.size →
    x?.run.run r = some (x.run r) ∧ (x.run r).2.offset ≤ (x.run r).2.bytes.size

variable {x? : PartialReading α} {x : Reading α} {f? : α → PartialReading β} {f : α → Reading β}

/-- A sequence stays within the bytes if its parts do, the second after whatever the first can
give. -/
theorem InBounds.bind_of {P : α → Prop} (hx : InBounds x? x)
    (hP : ∀ r a, (x.run r).1 = .ok a → P a) (hf : ∀ a, P a → InBounds (f? a) (f a)) :
    InBounds (x? >>= f?) (x >>= f) := by
  intro r hr
  obtain ⟨hrun, hplace⟩ := hx r hr
  have hgives := hP r
  have h? : (x? >>= f?).run.run r
      = x?.run.run r >>= fun y => (ExceptT.bindCont f? y.1).run y.2 := rfl
  have h : (x >>= f).run r = ExceptT.bindCont f (x.run r).1 (x.run r).2 := rfl
  rw [h?, h, hrun]
  generalize x.run r = y at hplace hgives
  rcases y with ⟨fault | a, r'⟩
  · exact ⟨rfl, hplace⟩
  · exact hf a (hgives a rfl) r' hplace

theorem inBounds_pure (a : α) : InBounds (pure a) (pure a) := fun _ hr => ⟨rfl, hr⟩

theorem InBounds.bind (hx : InBounds x? x) (hf : ∀ a, InBounds (f? a) (f a)) :
    InBounds (x? >>= f?) (x >>= f) :=
  hx.bind_of (fun _ _ _ => trivial) fun a _ => hf a

theorem InBounds.discard (hx : InBounds x? x) :
    InBounds (Functor.discard x?) (Functor.discard x) := by
  rw [Functor.discard, Functor.discard, map_const, map_const, Function.comp_apply,
    Function.comp_apply, map_eq_pure_bind, map_eq_pure_bind]
  exact hx.bind fun _ => inBounds_pure _

/-- A reading that looks where it is. -/
theorem InBounds.get_bind {f? : FieldReader → PartialReading β} {f : FieldReader → Reading β}
    (hf : ∀ s : FieldReader, s.offset ≤ s.bytes.size → InBounds (f? s) (f s)) :
    InBounds (get >>= f?) (get >>= f) :=
  fun r hr => hf r hr r hr

theorem inBounds_throw (fault : Fault) :
    InBounds (throw fault : PartialReading α) (throw fault) := fun _ hr => ⟨rfl, hr⟩

theorem inBounds_set {s : FieldReader} (hs : s.offset ≤ s.bytes.size) :
    InBounds (set s : PartialReading PUnit) (set s) := fun _ _ => ⟨rfl, hs⟩

theorem inBounds_except (e : Except Fault α) :
    InBounds (liftM e : PartialReading α) (liftM e) := by
  intro r hr
  cases e with
  | error fault => exact ⟨rfl, hr⟩
  | ok a => exact ⟨rfl, hr⟩

theorem inBounds_unless {c : Prop} [Decidable c] {fault : Fault} (hx : ¬ c → InBounds x? x) :
    InBounds (do
      if c then throw fault
      x?) (do
      if c then throw fault
      x) := by
  by_cases hc : c
  · rw [if_pos hc, if_pos hc]
    exact fun r hr => ⟨rfl, hr⟩
  · rw [if_neg hc, if_neg hc]
    exact hx hc

theorem InBounds.tryCatch {handle? : Fault → PartialReading α} {handle : Fault → Reading α}
    (hx : InBounds x? x) (hhandle : ∀ fault, InBounds (handle? fault) (handle fault)) :
    InBounds (MonadExcept.tryCatch x? handle?) (MonadExcept.tryCatch x handle) := by
  intro r hr
  obtain ⟨hrun, hplace⟩ := hx r hr
  rw [ExceptT.run_tryCatch, StateT.run_bind, hrun, run_tryCatch]
  generalize x.run r = y at hplace
  rcases y with ⟨fault | a, r'⟩
  · exact hhandle fault r' hplace
  · exact ⟨rfl, hplace⟩

/-- A part that is there. -/
theorem inBounds_part {o : Option α} {a : α} (ho : o = some a) :
    InBounds (liftM o : PartialReading α) (pure a) := by
  subst ho
  exact inBounds_pure a

/-- A reading that goes on with a part that is there. -/
theorem InBounds.part_bind {o : Option α} {a : α} (ho : o = some a) {x : Reading β}
    (h : InBounds (f? a) x) : InBounds ((liftM o : PartialReading α) >>= f?) x := by
  subst ho
  exact h

theorem size_take {field : String} {n : Nat} {r : FieldReader} {b : ByteArray}
    (h : ((take field n).run r).1 = .ok b) : b.size = n := by
  obtain ⟨r', h⟩ := fst_run_eq_ok.1 h
  simp only [take, run_bind_eq_ok, run_get_eq_ok, run_ite_eq_ok, run_throw_ne_ok, run_set_eq_ok,
    run_pure_eq_ok, false_and, and_false, exists_false, false_or] at h
  obtain ⟨_, _, ⟨rfl, rfl⟩, hn, _, _, rfl, rfl, rfl⟩ := h
  unfold remaining at hn
  rw [ByteArray.size_extract]
  omega

theorem inBounds_take (field : String) (n : Nat) : InBounds (take? field n) (take field n) := by
  refine InBounds.get_bind fun r hr => ?_
  refine .part_bind (minus?_eq hr) (inBounds_unless fun hn => ?_)
  have hfits : r.offset + n ≤ r.bytes.size := by
    change ¬ r.bytes.size - r.offset < n at hn
    omega
  exact (inBounds_set hfits).bind fun _ =>
    inBounds_part (slice?_eq (Nat.le_add_right r.offset n) hfits)

theorem inBounds_takeBytes (field : String) (n : Nat) :
    InBounds (takeBytes? field n) (takeBytes field n) := by
  unfold takeBytes? take?
  rw [bind_assoc]
  refine InBounds.get_bind fun r hr => ?_
  rw [bind_assoc]
  refine .part_bind (minus?_eq hr) ?_
  by_cases hfits : r.offset + n ≤ r.bytes.size
  · have hpart := slice?_eq (Nat.le_add_right r.offset n) hfits
    rw [if_neg (by omega), dif_pos hfits, bind_assoc]
    exact (inBounds_set hfits).bind fun _ =>
      .part_bind hpart (inBounds_part (Bytes.ofByteArray?_eq _))
  · rw [if_pos (by omega), dif_neg hfits]
    exact fun _ hr => ⟨rfl, hr⟩

theorem inBounds_takeNat (field : String) (n : Nat) :
    InBounds (takeNat? field n) (takeNat field n) :=
  (inBounds_take field n).bind fun b => inBounds_pure (readLE b)

/-- A byte that is taken is the first, and the number in it. -/
theorem inBounds_takeByte (field : String) {f? : UInt8 → PartialReading β}
    {f : ByteArray → Reading β} (hf : ∀ b, b.size = 1 → InBounds (f? (byteAt b 0)) (f b)) :
    InBounds (takeByte? field >>= f?) (take field 1 >>= f) := by
  unfold takeByte?
  rw [bind_assoc]
  exact (inBounds_take field 1).bind_of (fun _ _ => size_take) fun b hb =>
    .part_bind (byte?_eq (by omega)) (hf b hb)

theorem readLE_of_size {b : ByteArray} (hb : b.size = 1) : readLE b = (byteAt b 0).toNat := by
  obtain ⟨x, rfl⟩ : ∃ x, b = ofList [x] := ⟨_, eq_ofList_byteAt hb⟩
  rfl

theorem inBounds_readAlgorithm : InBounds readAlgorithm? readAlgorithm := by
  refine (inBounds_takeNat _ _).bind fun n => ?_
  cases Algorithm.ofId? n with
  | none => exact inBounds_throw _
  | some a => exact fun r hr => ⟨rfl, hr⟩

theorem inBounds_iv : InBounds iv? iv := by
  refine InBounds.get_bind fun r _ => ?_
  cases r.algorithm with
  | none => exact inBounds_throw _
  | some a => exact inBounds_take "iv" a.ivBytes

theorem inBounds_iterations : InBounds iterations? iterations :=
  (inBounds_takeNat _ _).bind fun n => inBounds_except (checkIterationsField n)

theorem inBounds_version : InBounds version? version :=
  (inBounds_takeNat _ _).bind fun n => inBounds_except (checkVersion n)

theorem inBounds_size : InBounds size? size :=
  (inBounds_takeNat _ _).bind fun n => inBounds_except (checkSize n)

theorem inBounds_loopIndex : InBounds loopIndex? loopIndex :=
  inBounds_takeByte "lpp" fun b _ => by
    have hbyte := (byteAt b 0).toNat_lt
    exact .part_bind (fit?_eq (by omega)) (.part_bind (fit?_eq (by omega)) (inBounds_except _))

theorem inBounds_flags : InBounds flags? flags := by
  unfold flags takeNat
  rw [bind_assoc]
  refine inBounds_takeByte "flags" fun b hb => ?_
  rw [pure_bind, readLE_of_size hb]
  exact inBounds_except _

theorem inBounds_hint : InBounds hint? hint := by
  refine InBounds.get_bind fun start hstart => ?_
  unfold takeNat
  rw [bind_assoc]
  refine inBounds_takeByte "hint" fun b hb => ?_
  rw [pure_bind, readLE_of_size hb]
  -- If the hint does not fit, the reading goes back to where it began, which is in the bytes.
  exact (inBounds_take "hint" _).tryCatch fun fault =>
    (inBounds_set hstart).bind fun _ => inBounds_throw fault

theorem inBounds_rest (field : String) : InBounds (rest? field) (rest field) := by
  refine InBounds.get_bind fun r hr => ?_
  refine .part_bind (minus?_eq hr) (inBounds_unless fun _ => ?_)
  exact (inBounds_set (Nat.le_refl r.bytes.size)).bind fun _ =>
    inBounds_part (slice?_eq hr (Nat.le_refl r.bytes.size))

end FieldReader

open FieldReader

/-- What is read from the start of some bytes. -/
def Partial.ofReading (x? : PartialReading α) (bytes : ByteArray) : Partial α :=
  (x?.run.run { bytes }).map Prod.fst

theorem Partial.ofReading_eq {x? : PartialReading α} {x : Reading α} (h : InBounds x? x)
    (bytes : ByteArray) : ofReading x? bytes = some (x.run { bytes }).1 :=
  congrArg (Option.map Prod.fst) (h { bytes } (Nat.zero_le _)).1

/-! ### Headers and associated data -/

/-- `WireFormat.ofHeader`. -/
def WireFormat.ofHeader? (header : ByteArray) : Partial WireFormat := do
  if header.size < Limits.headerBytes then
    throw (.sizeMismatch "cipher data header" Limits.headerBytes header.size)
  let marker := readLE
    (← slice? header Limits.macBytes (Limits.macBytes + Limits.versionBytes))
  if marker = Limits.version5 then return chained
  else if marker = Limits.version4 then return framed
  else if 1 ≤ marker ∧ marker < Limits.version4 then return message
  else throw (.protocolVersion marker)

theorem WireFormat.ofHeader?_eq (header : ByteArray) :
    ofHeader? header = some (ofHeader header) := by
  unfold ofHeader? ofHeader
  by_cases hshort : header.size < Limits.headerBytes
  · rw [if_pos hshort, if_pos hshort]
    rfl
  · -- The marker stands in whatever is as long as a header.
    have hpart := slice?_eq (Nat.le_add_right Limits.macBytes Limits.versionBytes)
      (Nat.le_trans (by decide : _ ≤ Limits.headerBytes) (Nat.le_of_not_lt hshort))
    rw [if_neg hshort, if_neg hshort, Partial.bind_part hpart]
    exact Partial.ite rfl (Partial.ite rfl (Partial.ite rfl rfl))

namespace FrameHeader

/-- `FrameHeader.read`. -/
def read? (format : WireFormat) : PartialReading FrameHeader := do
  let tag ← takeBytes? "mac" 32
  let version ← version?
  if version ≠ format.version then throw (.protocolVersion version)
  let size ← size?
  match format with
  | .chained =>
    let flags ← flags?
    return ⟨tag, size, flags⟩
  | _ =>
    let rest ← rest? "size"
    if rest ≠ zeros 1 then throw (.malformedField "size" "V4 payload size above 3 bytes")
    return ⟨tag, size, 0⟩

/-- `FrameHeader.parse`. -/
def parse? (format : WireFormat) (header : ByteArray) : Partial FrameHeader :=
  Partial.ofReading (read? format) header

theorem inBounds_read (format : WireFormat) : InBounds (read? format) (read format) := by
  refine (inBounds_takeBytes _ _).bind fun tag => inBounds_version.bind fun version =>
    inBounds_unless fun _ => inBounds_size.bind fun size => ?_
  cases format with
  | chained => exact inBounds_flags.bind fun flags => inBounds_pure _
  | message | framed =>
    exact (inBounds_rest _).bind fun rest => inBounds_unless fun _ => inBounds_pure _

theorem parse?_eq (format : WireFormat) (header : ByteArray) :
    parse? format header = some (parse format header) :=
  Partial.ofReading_eq (inBounds_read format) header

end FrameHeader

namespace AssociatedData

/-- `AssociatedData.readHead`. -/
def readHead? : PartialReading AssociatedData := do
  let algorithm ← readAlgorithm?
  let iv ← iv?
  let salt ← takeBytes? "slt" 16
  let iterations ← iterations?
  let loop ← loopIndex?
  let hint ← hint?
  return ⟨algorithm, iv, salt, iterations, loop, hint⟩

/-- `AssociatedData.readFurther`. -/
def readFurther? : PartialReading AssociatedData := do
  let algorithm ← readAlgorithm?
  let iv ← iv?
  return { algorithm, iv }

/-- `AssociatedData.decodeWith`. -/
def decodeWith? (reading : PartialReading AssociatedData) (payload : ByteArray) :
    Partial (AssociatedData × Nat) :=
  (reading.run.run { bytes := payload }).map fun x => x.1.map (·, x.2.offset)

theorem decodeWith?_eq {reading? : PartialReading AssociatedData}
    {reading : Reading AssociatedData} (h : InBounds reading? reading) (payload : ByteArray) :
    decodeWith? reading? payload = some (decodeWith reading payload) := by
  unfold decodeWith? decodeWith
  rw [(h { bytes := payload } (Nat.zero_le _)).1]
  generalize reading.run { bytes := payload } = y
  rcases y with ⟨fault | a, r⟩
  · rfl
  · rfl

theorem inBounds_readHead : InBounds readHead? readHead :=
  inBounds_readAlgorithm.bind fun _ => inBounds_iv.bind fun _ =>
    (inBounds_takeBytes _ _).bind fun _ => inBounds_iterations.bind fun _ =>
    inBounds_loopIndex.bind fun _ => inBounds_hint.bind fun _ => inBounds_pure _

theorem inBounds_readFurther : InBounds readFurther? readFurther :=
  inBounds_readAlgorithm.bind fun _ => inBounds_iv.bind fun _ => inBounds_pure _

end AssociatedData

/-! ### Blocks -/

/-- `splitPayload`. -/
def splitPayload? (payload : ByteArray) (n : Nat) : Partial (ByteArray × ByteArray) := do
  if payload.size ≤ n then throw .noText
  return (← slice? payload 0 n, ← slice? payload n payload.size)

theorem splitPayload?_eq (payload : ByteArray) (n : Nat) :
    splitPayload? payload n = some (splitPayload payload n) := by
  unfold splitPayload? splitPayload
  by_cases hshort : payload.size ≤ n
  · rw [if_pos hshort, if_pos hshort]
    rfl
  · have hn : n ≤ payload.size := Nat.le_of_not_le hshort
    rw [if_neg hshort, if_neg hshort, Partial.bind_part (slice?_eq (Nat.zero_le n) hn),
      Partial.bind_part (slice?_eq hn (Nat.le_refl payload.size))]
    rfl

/-- `Algorithm.decrypt`, with a nonce of the length that the algorithm needs, and a text cut in
front of a tag. -/
def Algorithm.openSealed? (a : Algorithm) (key : Key) (iv sealed aad : ByteArray) :
    Partial ByteArray := do
  let nonce ← a.nonce iv
  let nonce ← Bytes.ofByteArray? a.ivBytes nonce
  if sealed.size < a.tagBytes then throw .decryptionFailure
  let n ← minus? sealed.size a.tagBytes
  let text ← slice? sealed 0 n
  let tag ← slice? sealed n sealed.size
  let tag ← Bytes.ofByteArray? a.tagBytes tag
  match a.decrypt? key nonce.data (text ++ tag.data) aad with
  | some clear => return clear
  | none => throw .decryptionFailure

theorem Algorithm.openSealed?_eq (a : Algorithm) (key : Key) (iv sealed aad : ByteArray) :
    a.openSealed? key iv sealed aad = some (a.decrypt key iv sealed aad) := by
  refine Partial.bind (Partial.except (a.nonce iv)) fun nonce hnonce => ?_
  have hsize : nonce.size = a.ivBytes := by
    obtain ⟨rfl, hlong⟩ := ite_eq_ok.1 hnonce
    rw [ByteArray.size_extract]
    omega
  rw [Partial.bind_part (Bytes.ofByteArray?_eq hsize)]
  by_cases hshort : sealed.size < a.tagBytes
  · rw [if_pos hshort, if_pos hshort]
    rfl
  · -- A text and a tag are cut apart, and are the sealed text again when put together.
    have htag : a.tagBytes ≤ sealed.size := Nat.le_of_not_lt hshort
    have hn : sealed.size - a.tagBytes ≤ sealed.size := Nat.sub_le _ _
    have htagSize : (sealed.extract (sealed.size - a.tagBytes) sealed.size).size = a.tagBytes := by
      rw [ByteArray.size_extract]
      omega
    rw [if_neg hshort, if_neg hshort, Partial.bind_part (minus?_eq htag),
      Partial.bind_part (slice?_eq (Nat.zero_le _) hn),
      Partial.bind_part (slice?_eq hn (Nat.le_refl sealed.size)),
      Partial.bind_part (Bytes.ofByteArray?_eq htagSize)]
    dsimp only
    rw [← ByteArray.extract_eq_extract_append_extract _ (Nat.zero_le _) hn,
      ByteArray.extract_zero_size]
    cases a.decrypt? key nonce sealed aad with
    | none => rfl
    | some clear => rfl

/-- `openHint`. -/
def openHint? (algorithm : Algorithm) (key : Key) (iv sealedHint : ByteArray) :
    Partial (Option String) := do
  if sealedHint.isEmpty then return none
  return Text.decodeLossy (← algorithm.openSealed? key iv sealedHint .empty)

theorem openHint?_eq (algorithm : Algorithm) (key : Key) (iv sealedHint : ByteArray) :
    openHint? algorithm key iv sealedHint = some (openHint algorithm key iv sealedHint) := by
  exact Partial.ite rfl
    (Partial.bind (algorithm.openSealed?_eq key iv sealedHint .empty) fun _ _ => rfl)

namespace FrameHeader

/-- `FrameHeader.verifyHead`. -/
def verifyHead? (frame : FrameHeader) (format : WireFormat) (header payload : ByteArray)
    (credential : Credential) : Partial VerifiedHead := do
  let (data, n) ← AssociatedData.decodeWith? AssociatedData.readHead? payload
  let (associated, text) ← splitPayload? payload n
  match data.salt, data.iterations, data.loop with
  | some salt, some iterations, some loop =>
    let signingKey := credential.signingKey salt
    let signed ← slice? header Limits.macBytes header.size
    let tag := blockTag signingKey signed associated text .empty
    verifyTag frame.tag tag
    let hint ← openHint? data.algorithm (credential.hintKey salt) data.iv (data.hint.getD .empty)
    let info : PassInfo :=
      ⟨format.version, data.algorithm, iterations, loop, data.iv, salt, hint⟩
    return ⟨info, signingKey, tag, frame.flags, associated, text⟩
  | _, _, _ => throw (.malformedField "additional data" "block0 fields missing")

/-- `FrameHeader.verifyFurther`. -/
def verifyFurther? (frame : FrameHeader) (header payload : ByteArray) (signingKey : Key)
    (previous : ByteArray) : Partial VerifiedBlock := do
  let (data, n) ← AssociatedData.decodeWith? AssociatedData.readFurther? payload
  let (associated, text) ← splitPayload? payload n
  let signed ← slice? header Limits.macBytes header.size
  let tag := blockTag signingKey signed associated text previous
  verifyTag frame.tag tag
  return ⟨data.algorithm, data.iv, tag, frame.flags, associated, text⟩

variable {frame : FrameHeader} {header : ByteArray}

theorem verifyHead?_eq (hheader : Limits.macBytes ≤ header.size) (format : WireFormat)
    (payload : ByteArray) (credential : Credential) :
    frame.verifyHead? format header payload credential
      = some (frame.verifyHead format header payload credential) := by
  refine Partial.bind (AssociatedData.decodeWith?_eq AssociatedData.inBounds_readHead payload)
    fun data _ => Partial.bind (splitPayload?_eq payload data.2) fun parts _ => ?_
  obtain ⟨⟨algorithm, iv, salt, iterations, loop, hint⟩, n⟩ := data
  rcases salt with - | salt
  · rfl
  rcases iterations with - | iterations
  · rfl
  rcases loop with - | loop
  · rfl
  dsimp only
  rw [Partial.bind_part (slice?_eq hheader (Nat.le_refl header.size))]
  exact Partial.bind (Partial.except _) fun _ _ =>
    Partial.bind (openHint?_eq _ _ _ _) fun _ _ => rfl

theorem verifyFurther?_eq (hheader : Limits.macBytes ≤ header.size) (payload : ByteArray)
    (signingKey : Key) (previous : ByteArray) :
    frame.verifyFurther? header payload signingKey previous
      = some (frame.verifyFurther header payload signingKey previous) := by
  refine Partial.bind (AssociatedData.decodeWith?_eq AssociatedData.inBounds_readFurther payload)
    fun data _ => Partial.bind (splitPayload?_eq payload data.2) fun parts _ => ?_
  dsimp only
  rw [Partial.bind_part (slice?_eq hheader (Nat.le_refl header.size))]
  exact Partial.bind (Partial.except _) fun _ _ => rfl

/-- A header that is read has a tag. -/
theorem macBytes_le_of_parse {format : WireFormat} (h : parse format header = .ok frame) :
    Limits.macBytes ≤ header.size := by
  rw [parse, start_eq_between] at h
  obtain ⟨r, hread⟩ := fst_run_eq_ok.1 h
  obtain ⟨tag, _, htag, -⟩ := run_bind_eq_ok.1 hread
  obtain ⟨after, rfl, -⟩ := run_takeBytes_eq_ok.1 htag
  rw [ByteArray.size_append, tag.size_data]
  exact Nat.le_add_right 32 after.size

end FrameHeader

namespace Message

/-- `Message.readFields`. -/
def readFields? : PartialReading Fields := do
  let tag ← takeBytes? "mac" 32
  let algorithm ← readAlgorithm?
  let iv ← iv?
  let salt ← takeBytes? "slt" 16
  let iterations ← iterations?
  let version ← version?
  if version ≠ Limits.version1 then throw (.protocolVersion version)
  let sealedHint ← hint?
  let textStart := (← get).offset
  discard (rest? "edata")
  return ⟨tag, algorithm, iv, salt, iterations, sealedHint, textStart⟩

/-- `Message.verify`. -/
def verify? (message : ByteArray) (credential : Credential) : Partial VerifiedHead := do
  if message.size < Limits.payloadMin then
    throw (.malformedField "size" s!"{message.size} bytes is below {Limits.payloadMin}")
  let fields ← Partial.ofReading readFields? message
  let associated ← slice? message Limits.macBytes fields.textStart
  let text ← slice? message fields.textStart message.size
  let signingKey := credential.signingKey fields.salt
  verifyTag fields.tag (messageTag signingKey associated text)
  let hint ← openHint? fields.algorithm (credential.hintKey fields.salt) fields.iv fields.sealedHint
  let info : PassInfo :=
    ⟨Limits.version1, fields.algorithm, fields.iterations, ⟨1, 1⟩, fields.iv, fields.salt, hint⟩
  return ⟨info, signingKey, fields.tag, 0, associated, text⟩

theorem inBounds_readFields : InBounds readFields? readFields :=
  (inBounds_takeBytes _ _).bind fun _ => inBounds_readAlgorithm.bind fun _ =>
    inBounds_iv.bind fun _ => (inBounds_takeBytes _ _).bind fun _ =>
    inBounds_iterations.bind fun _ => inBounds_version.bind fun _ =>
    inBounds_unless fun _ => inBounds_hint.bind fun _ => InBounds.get_bind fun _ _ =>
    (inBounds_rest _).discard.bind fun _ => inBounds_pure _

theorem verify?_eq (message : ByteArray) (credential : Credential) :
    verify? message credential = some (verify message credential) := by
  unfold verify? verify
  by_cases hshort : message.size < Limits.payloadMin
  · rw [if_pos hshort, if_pos hshort]
    rfl
  rw [if_neg hshort, if_neg hshort]
  refine Partial.bind (Partial.ofReading_eq inBounds_readFields message) fun fields hfields => ?_
  obtain ⟨tag, h, text, -, rfl, -, rfl⟩ := readFields_eq_ok.1 hfields
  -- The fields that were read are in front of the text, and the tag in front of the others.
  have hstart : Limits.macBytes ≤ tag.data.size + h.messageBytes.size := by
    rw [tag.size_data]
    exact Nat.le_add_right 32 _
  have hend : tag.data.size + h.messageBytes.size
      ≤ (tag.data ++ (h.messageBytes ++ text)).size := by
    rw [ByteArray.size_append, ByteArray.size_append]
    omega
  dsimp only
  rw [Partial.bind_part (slice?_eq hstart hend), Partial.bind_part (slice?_eq hend (Nat.le_refl _))]
  exact Partial.bind (Partial.except _) fun _ _ =>
    Partial.bind (openHint?_eq _ _ _ _) fun _ _ => rfl

end Message

/-! ### Chunks -/

namespace ChunkReader

/-- `ChunkReader.split`, of no more than has been collected. -/
def split? (n : Nat) (r : ChunkReader) : Option (Chunk × ChunkReader) := do
  let n := min n r.buffer.size
  let bytes ← slice? r.buffer 0 n
  let buffer ← slice? r.buffer n r.buffer.size
  let rest := { r with buffer, room := r.room.handOut bytes.size }
  return (⟨bytes, rest.isDone⟩, rest)

theorem split?_eq (n : Nat) (r : ChunkReader) : split? n r = some (r.split n) := by
  have hn : min n r.buffer.size ≤ r.buffer.size := Nat.min_le_right _ _
  have hparts : r.buffer.extract 0 (min n r.buffer.size) = r.buffer.extract 0 n ∧
      r.buffer.extract (min n r.buffer.size) r.buffer.size
        = r.buffer.extract n r.buffer.size := by
    rcases Nat.le_total n r.buffer.size with hle | hle
    · rw [Nat.min_eq_left hle]
      exact ⟨rfl, rfl⟩
    · -- All that has been collected is handed out.
      rw [Nat.min_eq_right hle, ByteArray.extract_zero_size, ByteArray.extract_same,
        ← Nat.max_eq_left hle, ByteArray.extract_zero_max_size]
      exact ⟨rfl, (ByteArray.extract_eq_empty_iff.2 (by omega)).symm⟩
  unfold split? split
  dsimp only
  rw [slice?_eq (Nat.zero_le _) hn, slice?_eq hn (Nat.le_refl _), hparts.1, hparts.2]
  rfl

end ChunkReader

/-! ### All that takes bytes apart -/

/-- Nothing is asked for that is not there, where received bytes are taken apart. -/
structure PartsAreThere : Prop where
  /-- The format of a stream, in its first bytes. -/
  format : ∀ header, WireFormat.ofHeader? header = some (WireFormat.ofHeader header)
  /-- A header, and a head in whatever payload there is. -/
  head : ∀ format header payload credential,
    (FrameHeader.parse? format header >>= fun frame =>
        frame.verifyHead? format header payload credential)
      = some (FrameHeader.parse format header >>= fun frame =>
          frame.verifyHead format header payload credential)
  /-- A header, and a further block in whatever payload there is. -/
  further : ∀ format header payload signingKey previous,
    (FrameHeader.parse? format header >>= fun frame =>
        frame.verifyFurther? header payload signingKey previous)
      = some (FrameHeader.parse format header >>= fun frame =>
          frame.verifyFurther header payload signingKey previous)
  /-- A message. -/
  message : ∀ message credential,
    Message.verify? message credential = some (Message.verify message credential)
  /-- A sealed text, under whatever nonce. -/
  text : ∀ (algorithm : Algorithm) (key : Key) (iv sealed aad : ByteArray),
    algorithm.openSealed? key iv sealed aad = some (algorithm.decrypt key iv sealed aad)
  /-- A chunk of what has been collected. -/
  chunk : ∀ n reader, ChunkReader.split? n reader = some (reader.split n)
  /-- The room for what a reader still wants. -/
  room : ∀ want inUse (reader : ChunkReader), reader.buffer.size < want →
    let capacity := (reader.room.reserve want reader.buffer.size inUse).capacity
    minus? capacity reader.buffer.size = some (capacity - reader.buffer.size)

/-- **All parts are there.** -/
theorem parts_are_there : PartsAreThere where
  format := WireFormat.ofHeader?_eq
  head format header payload credential :=
    Partial.bind (FrameHeader.parse?_eq format header) fun _ hframe =>
      FrameHeader.verifyHead?_eq (FrameHeader.macBytes_le_of_parse hframe) format payload credential
  further format header payload signingKey previous :=
    Partial.bind (FrameHeader.parse?_eq format header) fun _ hframe =>
      FrameHeader.verifyFurther?_eq (FrameHeader.macBytes_le_of_parse hframe) payload signingKey
        previous
  message := Message.verify?_eq
  text := Algorithm.openSealed?_eq
  chunk := ChunkReader.split?_eq
  room want inUse reader hless :=
    minus?_eq (Nat.le_trans (Nat.le_of_lt hless)
      (Room.le_capacity_reserve want reader.buffer.size inUse reader.room))

end SealedStream
