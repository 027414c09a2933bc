import SealedStream.Field.Reader
import SealedStream.Proofs.Bytes
import SealedStream.Proofs.Field.Range
import SealedStream.Proofs.Field.Run

/-!
# What field readers accept

A field reader between the bytes that it has passed and those ahead of it (`between`) succeeds
exactly if the written form of a value in range is ahead, and stands behind it afterwards.  Each
field has one such equivalence, `run_take_eq_ok` to `run_size_eq_ok`; a sequence of fields is taken
apart by `run_bind_eq_ok`.
-/

namespace SealedStream

attribute [local instance (2000)] instPowNat

namespace FieldReader

variable {r' : FieldReader}

/-- A reader that has passed some bytes, with others ahead of it. -/
def between (passed ahead : ByteArray) (a : Option Algorithm) : FieldReader :=
  ⟨passed ++ ahead, passed.size, a⟩

/-- A reader at the start has everything ahead of it. -/
theorem start_eq_between (b : ByteArray) :
    ({ bytes := b } : FieldReader) = between .empty b none := by
  simp [between]

@[simp] theorem bytes_between (passed ahead : ByteArray) (a : Option Algorithm) :
    (between passed ahead a).bytes = passed ++ ahead := rfl

@[simp] theorem offset_between (passed ahead : ByteArray) (a : Option Algorithm) :
    (between passed ahead a).offset = passed.size := rfl

@[simp] theorem algorithm_between (passed ahead : ByteArray) (a : Option Algorithm) :
    (between passed ahead a).algorithm = a := rfl

@[simp] theorem remaining_between (passed ahead : ByteArray) (a : Option Algorithm) :
    (between passed ahead a).remaining = ahead.size := by
  simp [remaining]

theorem mk_eq_between (passed b after : ByteArray) (a : Option Algorithm) :
    FieldReader.mk (passed ++ (b ++ after)) (passed.size + b.size) a
      = between (passed ++ b) after a := by
  simp [between, ByteArray.append_assoc]

/-! ### Bytes and numbers -/

variable {passed ahead : ByteArray} {a : Option Algorithm} {field : String} {n : Nat}

theorem extract_passed {b after : ByteArray} (h : b.size = n) :
    (passed ++ (b ++ after)).extract passed.size (passed.size + n) = b := by
  have hx := ByteArray.extract_append_size_add (a := passed) (b := b ++ after) (i := 0) (j := n)
  rw [Nat.add_zero] at hx
  rw [hx, extract_append_left h]

/-- Bytes are read if there are enough. -/
theorem run_take_eq_ok {b : ByteArray} :
    (take field n).run (between passed ahead a) = (.ok b, r') ↔
      b.size = n ∧ ∃ after, ahead = b ++ after ∧ r' = between (passed ++ b) after a := by
  simp only [take, run_bind_eq_ok, run_get_eq_ok, run_ite_eq_ok, run_throw_ne_ok, run_set_eq_ok,
    run_pure_eq_ok, false_and, and_false, exists_false, false_or]
  constructor
  · rintro ⟨_, _, ⟨rfl, rfl⟩, hn, _, _, rfl, rfl, rfl⟩
    simp only [remaining_between, bytes_between, offset_between, algorithm_between] at hn ⊢
    obtain ⟨c, after, rfl, hc⟩ := exists_eq_append_of_le (Nat.le_of_not_lt hn)
    rw [extract_passed hc]
    exact ⟨hc, after, rfl, by rw [← hc, mk_eq_between]⟩
  · rintro ⟨rfl, after, rfl, rfl⟩
    refine ⟨_, _, ⟨rfl, rfl⟩, ?_, ⟨⟩, _, rfl, (extract_passed rfl).symm,
      (mk_eq_between passed b after a).symm⟩
    rw [remaining_between, ByteArray.size_append]
    omega

theorem run_takeBytes_eq_ok {b : Bytes n} :
    (takeBytes field n).run (between passed ahead a) = (.ok b, r') ↔
      ∃ after, ahead = b.data ++ after ∧ r' = between (passed ++ b.data) after a := by
  simp only [takeBytes, run_bind_eq_ok, run_get_eq_ok]
  constructor
  · rintro ⟨_, _, ⟨rfl, rfl⟩, h⟩
    split at h
    next hn =>
      simp only [bytes_between, offset_between, algorithm_between, ByteArray.size_append,
        Nat.add_le_add_iff_left] at hn h
      obtain ⟨c, after, rfl, hc⟩ := exists_eq_append_of_le hn
      simp only [run_bind_eq_ok, run_set_eq_ok, run_pure_eq_ok, Bytes.takeFrom] at h
      obtain ⟨_, _, rfl, rfl, rfl⟩ := h
      simp only [extract_passed hc]
      exact ⟨after, rfl, by rw [← hc, mk_eq_between]⟩
    next => exact absurd h run_throw_ne_ok
  · rintro ⟨after, rfl, rfl⟩
    have hb := b.size_data
    refine ⟨_, _, ⟨rfl, rfl⟩, ?_⟩
    rw [dif_pos (by simp only [bytes_between, offset_between, ByteArray.size_append]; omega)]
    simp only [run_bind_eq_ok, run_set_eq_ok, run_pure_eq_ok]
    refine ⟨⟨⟩, _, rfl, Bytes.ext (extract_passed hb).symm, ?_⟩
    rw [← mk_eq_between, hb]
    rfl

theorem run_takeNat_eq_ok {v : Nat} :
    (takeNat field n).run (between passed ahead a) = (.ok v, r') ↔
      v < 256 ^ n ∧ ∃ after, ahead = writeLE n v ++ after
        ∧ r' = between (passed ++ writeLE n v) after a := by
  simp only [takeNat, run_bind_eq_ok, run_take_eq_ok, run_pure_eq_ok]
  constructor
  · rintro ⟨b, _, ⟨rfl, after, rfl, rfl⟩, rfl, rfl⟩
    rw [writeLE_readLE rfl]
    exact ⟨readLE_lt b, after, rfl, rfl⟩
  · rintro ⟨hv, after, rfl, rfl⟩
    exact ⟨_, _, ⟨size_writeLE n v, after, rfl, rfl⟩, (readLE_writeLE hv).symm, rfl⟩

/-- A number that is read and then checked: its range is the check's, as far as it has room. -/
theorem run_takeNat_check_eq_ok {check : Nat → Except Fault Nat} {InRange : Nat → Prop} {v : Nat}
    (hcheck : ∀ {n m : Nat}, check n = .ok m ↔ m = n ∧ InRange n)
    (hfits : InRange v → v < 256 ^ n) :
    (do check (← takeNat field n) : Reading Nat).run (between passed ahead a) = (.ok v, r') ↔
      InRange v ∧ ∃ after, ahead = writeLE n v ++ after
        ∧ r' = between (passed ++ writeLE n v) after a := by
  simp only [run_bind_eq_ok, run_takeNat_eq_ok, run_check_eq_ok, hcheck]
  constructor
  · rintro ⟨_, _, ⟨-, after, rfl, rfl⟩, ⟨rfl, hv⟩, rfl⟩
    exact ⟨hv, after, rfl, rfl⟩
  · rintro ⟨hv, after, rfl, rfl⟩
    exact ⟨_, _, ⟨hfits hv, after, rfl, rfl⟩, ⟨rfl, hv⟩, rfl⟩

/-! ### Fields -/

theorem run_mac_eq_ok {b : Bytes 32} :
    mac.run (between passed ahead a) = (.ok b, r') ↔
      ∃ after, ahead = b.data ++ after ∧ r' = between (passed ++ b.data) after a :=
  run_takeBytes_eq_ok

theorem run_salt_eq_ok {b : Bytes 16} :
    salt.run (between passed ahead a) = (.ok b, r') ↔
      ∃ after, ahead = b.data ++ after ∧ r' = between (passed ++ b.data) after a :=
  run_takeBytes_eq_ok

/-- An algorithm is read from its number, and remembered for the nonce. -/
theorem run_readAlgorithm_eq_ok {v : Algorithm} :
    readAlgorithm.run (between passed ahead a) = (.ok v, r') ↔
      ∃ after, ahead = writeLE Limits.algorithmBytes v.id ++ after
        ∧ r' = between (passed ++ writeLE Limits.algorithmBytes v.id) after (some v) := by
  simp only [readAlgorithm, run_bind_eq_ok, run_takeNat_eq_ok]
  constructor
  · rintro ⟨n, _, ⟨-, after, rfl, rfl⟩, h⟩
    split at h
    next v' hv =>
      simp only [run_bind_eq_ok, run_modify_eq_ok, run_pure_eq_ok] at h
      obtain ⟨_, _, rfl, rfl, rfl⟩ := h
      rw [Algorithm.ofId?_eq_some.1 hv]
      exact ⟨after, rfl, rfl⟩
    next => exact absurd h run_throw_ne_ok
  · rintro ⟨after, rfl, rfl⟩
    refine ⟨v.id, _, ⟨by cases v <;> decide, after, rfl, rfl⟩, ?_⟩
    rw [Algorithm.ofId?_eq_some.2 rfl]
    exact run_bind_eq_ok.2 ⟨⟨⟩, _, run_modify_eq_ok.2 rfl, run_pure_eq_ok.2 ⟨rfl, rfl⟩⟩

/-- A nonce has the length that the algorithm read before needs. -/
theorem run_iv_eq_ok {v : Algorithm} {b : ByteArray} :
    iv.run (between passed ahead (some v)) = (.ok b, r') ↔
      b.size = v.ivBytes ∧ ∃ after, ahead = b ++ after
        ∧ r' = between (passed ++ b) after (some v) := by
  simp only [iv, run_bind_eq_ok, run_get_eq_ok]
  constructor
  · rintro ⟨_, _, ⟨rfl, rfl⟩, h⟩
    exact run_take_eq_ok.1 h
  · intro h
    exact ⟨_, _, ⟨rfl, rfl⟩, run_take_eq_ok.2 h⟩

theorem run_iterations_eq_ok {v : Nat} :
    iterations.run (between passed ahead a) = (.ok v, r') ↔
      IterationsInRange v ∧ ∃ after, ahead = writeLE Limits.iterationsBytes v ++ after
        ∧ r' = between (passed ++ writeLE Limits.iterationsBytes v) after a :=
  run_takeNat_check_eq_ok checkIterationsField_eq_ok fun hv => Nat.lt_of_le_of_lt hv.2 (by decide)

theorem run_version_eq_ok {v : Nat} :
    version.run (between passed ahead a) = (.ok v, r') ↔
      v ∈ [Limits.version1, Limits.version4, Limits.version5] ∧
        ∃ after, ahead = writeLE Limits.versionBytes v ++ after
          ∧ r' = between (passed ++ writeLE Limits.versionBytes v) after a :=
  run_takeNat_check_eq_ok checkVersion_eq_ok version_lt

theorem run_size_eq_ok {v : Nat} :
    size.run (between passed ahead a) = (.ok v, r') ↔
      (Limits.payloadMin ≤ v ∧ v ≤ Limits.payloadMax) ∧
        ∃ after, ahead = writeLE Limits.sizeBytes v ++ after
          ∧ r' = between (passed ++ writeLE Limits.sizeBytes v) after a :=
  run_takeNat_check_eq_ok checkSize_eq_ok fun hv => Nat.lt_of_le_of_lt hv.2 (by decide)

theorem run_flags_eq_ok {v : Nat} :
    flags.run (between passed ahead a) = (.ok v, r') ↔
      v ≤ Limits.flagTerminal ∧ ∃ after, ahead = writeLE Limits.flagsBytes v ++ after
        ∧ r' = between (passed ++ writeLE Limits.flagsBytes v) after a :=
  run_takeNat_check_eq_ok checkFlags_eq_ok fun hv => Nat.lt_of_le_of_lt hv (by decide)

theorem run_loopIndex_eq_ok {v : LoopIndex} :
    loopIndex.run (between passed ahead a) = (.ok v, r') ↔
      v.Valid ∧ ∃ after, ahead = ofList [v.toByte] ++ after
        ∧ r' = between (passed ++ ofList [v.toByte]) after a := by
  simp only [loopIndex, run_bind_eq_ok, run_take_eq_ok, run_check_eq_ok, LoopIndex.ofByte_eq_ok]
  constructor
  · rintro ⟨b, _, ⟨hb, after, rfl, rfl⟩, ⟨hv, h⟩, rfl⟩
    rw [← h, ← eq_ofList_byteAt hb]
    exact ⟨hv, after, rfl, rfl⟩
  · rintro ⟨hv, after, rfl, rfl⟩
    exact ⟨_, _, ⟨rfl, after, rfl, rfl⟩, ⟨hv, rfl⟩, rfl⟩

/-- A sealed hint is read from its length and its bytes. -/
theorem run_hint_eq_ok {b : ByteArray} :
    hint.run (between passed ahead a) = (.ok b, r') ↔
      b.size ≤ Limits.sealedHintMax ∧
        ∃ after, ahead = writeLE Limits.hintLengthBytes b.size ++ b ++ after
          ∧ r' = between (passed ++ (writeLE Limits.hintLengthBytes b.size ++ b)) after a := by
  have hcatch : ∀ {s s' : FieldReader} {n : Nat},
      (tryCatch (take "hint" n) fun fault => do
        set s
        throw fault : Reading ByteArray).run s' = (.ok b, r') ↔
      (take "hint" n).run s' = (.ok b, r') := by
    intro s s' n
    rw [run_tryCatch_eq_ok]
    simp only [run_bind_eq_ok, run_throw_ne_ok, and_false, exists_false, or_false]
  simp only [hint, run_bind_eq_ok, run_get_eq_ok, hcatch]
  constructor
  · rintro ⟨_, _, ⟨rfl, rfl⟩, n, _, hn, h⟩
    obtain ⟨hlt, after, rfl, rfl⟩ := run_takeNat_eq_ok.1 hn
    obtain ⟨rfl, after, rfl, rfl⟩ := run_take_eq_ok.1 h
    exact ⟨Nat.le_of_lt_succ hlt, after, by rw [ByteArray.append_assoc],
      by rw [ByteArray.append_assoc]⟩
  · rintro ⟨hb, after, rfl, rfl⟩
    refine ⟨_, _, ⟨rfl, rfl⟩, b.size, _, run_takeNat_eq_ok.2
      ⟨Nat.lt_succ_of_le hb, b ++ after, by rw [ByteArray.append_assoc], rfl⟩, ?_⟩
    exact run_take_eq_ok.2 ⟨rfl, after, rfl, by rw [ByteArray.append_assoc]⟩

/-- All that is ahead is read if that is anything. -/
theorem run_rest_eq_ok {b : ByteArray} :
    (rest field).run (between passed ahead a) = (.ok b, r') ↔
      ahead ≠ .empty ∧ b = ahead ∧ r' = between (passed ++ ahead) .empty a := by
  simp only [rest, run_bind_eq_ok, run_get_eq_ok, run_ite_eq_ok, run_throw_ne_ok, run_set_eq_ok,
    run_pure_eq_ok, false_and, and_false, exists_false, false_or]
  have hx : (passed ++ ahead).extract passed.size (passed ++ ahead).size = ahead :=
    extract_append_right rfl rfl
  have hend : FieldReader.mk (passed ++ ahead) (passed ++ ahead).size a
      = between (passed ++ ahead) .empty a := by
    simp [between]
  constructor
  · rintro ⟨_, _, ⟨rfl, rfl⟩, hn, _, _, rfl, rfl, rfl⟩
    simp only [remaining_between, bytes_between, offset_between, algorithm_between] at hn ⊢
    exact ⟨fun h => hn (by rw [h]; rfl), hx, hend⟩
  · rintro ⟨hb, rfl, rfl⟩
    refine ⟨_, _, ⟨rfl, rfl⟩, ?_, ⟨⟩, _, rfl, hx.symm, hend.symm⟩
    rw [remaining_between]
    exact fun h => hb (ByteArray.size_eq_zero_iff.1 h)

end FieldReader

end SealedStream
