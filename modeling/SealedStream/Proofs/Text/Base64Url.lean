import Mathlib.Data.Option.Basic
import SealedStream.Proofs.Bytes
import SealedStream.Text.Base64Url

/-!
# Armor and back

The text of some bytes decodes to them, and no other text does: the bits of its last character that
belong to no byte are zero (`decode?_eq_some_iff`).  It has no blank character and no equals sign,
so that both can be taken out of armored text again, wherever they were put in (`Spaced`).

* `decodeArmor?_eq_some_iff`: armored text decodes exactly if it is the text of some bytes, with
  equals signs behind it and blank characters put in anywhere.
-/

namespace SealedStream.Text.Base64Url

/-! ### Characters -/

theorem toIndex?_ofIndex : ∀ n : Fin 64, toIndex? (ofIndex n) = some n.val := by decide

theorem not_blank_ofIndex : ∀ n : Fin 64, isBlank (ofIndex n) = false ∧ ofIndex n ≠ '=' := by decide

/-- Characters are ordered as their numbers. -/
theorem le_iff_toNat_le (c d : Char) : c ≤ d ↔ c.toNat ≤ d.toNat := Iff.rfl

/-- Only the character of a number has that number. -/
theorem eq_ofIndex_of_toIndex? {c : Char} {n : Nat} (h : toIndex? c = some n) :
    n < 64 ∧ c = ofIndex n := by
  have hchar : ∀ m, m = c.toNat → c = Char.ofNat m := fun m hm => by rw [hm, Char.ofNat_toNat]
  have hupper : 'A'.toNat = 65 ∧ 'Z'.toNat = 90 := by decide
  have hlower : 'a'.toNat = 97 ∧ 'z'.toNat = 122 := by decide
  have hdigit : '0'.toNat = 48 ∧ '9'.toNat = 57 := by decide
  unfold toIndex? at h
  simp only [le_iff_toNat_le] at h
  unfold ofIndex
  split at h
  · obtain rfl := Option.some.inj h
    rw [if_pos (by omega)]
    exact ⟨by omega, hchar _ (by omega)⟩
  split at h
  · obtain rfl := Option.some.inj h
    rw [if_neg (by omega), if_pos (by omega)]
    exact ⟨by omega, hchar _ (by omega)⟩
  split at h
  · obtain rfl := Option.some.inj h
    rw [if_neg (by omega), if_neg (by omega), if_pos (by omega)]
    exact ⟨by omega, hchar _ (by omega)⟩
  split at h
  next hc =>
    obtain rfl := Option.some.inj h
    exact ⟨by omega, hc⟩
  split at h
  next hc =>
    obtain rfl := Option.some.inj h
    exact ⟨by omega, hc⟩
  next => cases h

/-! ### Encoding -/

/-- The characters of some bytes. -/
def chars : List UInt8 → List Char
  | a :: b :: c :: rest =>
    let n := a.toNat * 65536 + b.toNat * 256 + c.toNat
    ofIndex (n / 262144) :: ofIndex (n / 4096 % 64) :: ofIndex (n / 64 % 64) :: ofIndex (n % 64)
      :: chars rest
  | [a, b] =>
    let n := a.toNat * 1024 + b.toNat * 4
    [ofIndex (n / 4096), ofIndex (n / 64 % 64), ofIndex (n % 64)]
  | [a] =>
    let n := a.toNat * 16
    [ofIndex (n / 64), ofIndex (n % 64)]
  | [] => []

theorem toList_encodeFrom (out : String) (bytes : List UInt8) :
    (encodeFrom out bytes).toList = out.toList ++ chars bytes := by
  fun_induction encodeFrom out bytes with
  | case1 out a b c rest n ih => simp [ih, chars, n]
  | case2 out a b n => simp [chars, n]
  | case3 out a n => simp [chars, n]
  | case4 out => simp [chars]

theorem toList_encode (bytes : ByteArray) : (encode bytes).toList = chars bytes.data.toList := by
  rw [encode, toList_encodeFrom]
  rfl

theorem mem_chars {c : Char} {bytes : List UInt8} (h : c ∈ chars bytes) :
    isBlank c = false ∧ c ≠ '=' := by
  have hindex : ∀ n, n < 64 → isBlank (ofIndex n) = false ∧ ofIndex n ≠ '=' := fun n hn =>
    not_blank_ofIndex ⟨n, hn⟩
  fun_induction chars bytes with
  | case1 a b d rest n ih =>
    have ha := a.toNat_lt
    have hb := b.toNat_lt
    have hd := d.toNat_lt
    simp only [List.mem_cons] at h
    obtain rfl | rfl | rfl | rfl | h := h
    · exact hindex _ (by omega)
    · exact hindex _ (by omega)
    · exact hindex _ (by omega)
    · exact hindex _ (by omega)
    · exact ih h
  | case2 a b n =>
    have ha := a.toNat_lt
    have hb := b.toNat_lt
    simp only [List.mem_cons, List.not_mem_nil, or_false] at h
    obtain rfl | rfl | rfl := h
    · exact hindex _ (by omega)
    · exact hindex _ (by omega)
    · exact hindex _ (by omega)
  | case3 a n =>
    have ha := a.toNat_lt
    simp only [List.mem_cons, List.not_mem_nil, or_false] at h
    obtain rfl | rfl := h
    · exact hindex _ (by omega)
    · exact hindex _ (by omega)
  | case4 => cases h

theorem mem_encode {c : Char} {bytes : ByteArray} (h : c ∈ (encode bytes).toList) :
    isBlank c = false ∧ c ≠ '=' := by
  rw [toList_encode] at h
  exact mem_chars h

/-! ### Decoding -/

theorem toIndex?_of_lt {n : Nat} (h : n < 64) : toIndex? (ofIndex n) = some n :=
  toIndex?_ofIndex ⟨n, h⟩

theorem ofNat_eq {a : UInt8} {n : Nat} (h : n % 256 = a.toNat) : UInt8.ofNat n = a := by
  refine UInt8.toNat_inj.1 ?_
  rw [UInt8.toNat_ofNat', h]

/-- A byte is put before those that follow. -/
theorem push_append (out : ByteArray) (b : UInt8) (bytes : List UInt8) :
    out.push b ++ bytes.toByteArray = out ++ (b :: bytes).toByteArray := by
  refine ByteArray.ext ?_
  simp

/-- **Characters decode** to the bytes they are of. -/
theorem decodeFrom_chars (out : ByteArray) (bytes : List UInt8) :
    decodeFrom out (chars bytes) = some (out ++ bytes.toByteArray) := by
  fun_induction chars bytes generalizing out with
  | case1 a b c rest n ih =>
    have ha := a.toNat_lt
    have hb := b.toNat_lt
    have hc := c.toNat_lt
    have hn : n / 262144 * 262144 + n / 4096 % 64 * 4096 + n / 64 % 64 * 64 + n % 64 = n := by omega
    rw [decodeFrom, toIndex?_of_lt (by omega), toIndex?_of_lt (by omega), toIndex?_of_lt (by omega),
      toIndex?_of_lt (by omega)]
    simp only [Option.bind_eq_bind, Option.bind_some, hn, ih]
    rw [ofNat_eq (a := a) (by omega), ofNat_eq (a := b) (by omega), ofNat_eq (a := c) (by omega),
      push_append, push_append, push_append]
  | case2 a b n =>
    have ha := a.toNat_lt
    have hb := b.toNat_lt
    have hn : n / 4096 * 4096 + n / 64 % 64 * 64 + n % 64 = n := by omega
    have hrest : (guard (n % 4 = 0) : Option Unit) = some () := if_pos (by omega)
    rw [decodeFrom, toIndex?_of_lt (by omega), toIndex?_of_lt (by omega), toIndex?_of_lt (by omega)]
    dsimp only [bind, Option.bind]
    rw [hn, hrest]
    dsimp only
    rw [ofNat_eq (a := a) (by omega), ofNat_eq (a := b) (by omega), ← push_append, ← push_append,
      List.toByteArray_nil, ByteArray.append_empty]
    rfl
  | case3 a n =>
    have ha := a.toNat_lt
    have hn : n / 64 * 64 + n % 64 = n := by omega
    have hrest : (guard (n % 16 = 0) : Option Unit) = some () := if_pos (by omega)
    rw [decodeFrom, toIndex?_of_lt (by omega), toIndex?_of_lt (by omega)]
    dsimp only [bind, Option.bind]
    rw [hn, hrest]
    dsimp only
    rw [ofNat_eq (a := a) (by omega), ← push_append, List.toByteArray_nil, ByteArray.append_empty]
    rfl
  | case4 => rw [decodeFrom, List.toByteArray_nil, ByteArray.append_empty]

theorem decode?_chars (bytes : ByteArray) : decode? (chars bytes.data.toList) = some bytes := by
  rw [decode?, decodeFrom_chars, ByteArray.empty_append]
  exact congrArg some (ByteArray.ext (by simp))

theorem exists_of_bind_toIndex? {c : Char} {f : Nat → Option ByteArray} {bytes : ByteArray}
    (h : (toIndex? c >>= f) = some bytes) : ∃ i < 64, c = ofIndex i ∧ f i = some bytes := by
  obtain ⟨i, hi, hf⟩ := Option.bind_eq_some_iff.1 h
  obtain ⟨hlt, rfl⟩ := eq_ofIndex_of_toIndex? hi
  exact ⟨i, hlt, rfl, hf⟩

theorem guard_bind_eq_some {p : Prop} [Decidable p] {bytes bytes' : ByteArray}
    (h : (do
      guard p
      return bytes) = some bytes') : p ∧ bytes = bytes' := by
  by_cases hp : p
  · rw [guard, if_pos hp] at h
    exact ⟨hp, Option.some.inj h⟩
  · rw [guard, if_neg hp] at h
    cases h

/-- Three bytes and the four characters of the same number. -/
theorem chars_ofNat {i₁ i₂ i₃ i₄ : Nat} (h₁ : i₁ < 64) (h₂ : i₂ < 64) (h₃ : i₃ < 64) (h₄ : i₄ < 64)
    (bytes : List UInt8) :
    let n := i₁ * 262144 + i₂ * 4096 + i₃ * 64 + i₄
    chars (.ofNat (n / 65536) :: .ofNat (n / 256) :: .ofNat n :: bytes)
      = ofIndex i₁ :: ofIndex i₂ :: ofIndex i₃ :: ofIndex i₄ :: chars bytes := by
  intro n
  have hn : (UInt8.ofNat (n / 65536)).toNat * 65536 + (UInt8.ofNat (n / 256)).toNat * 256
      + (UInt8.ofNat n).toNat = n := by
    simp only [UInt8.toNat_ofNat']
    omega
  have e₁ : n / 262144 = i₁ := by omega
  have e₂ : n / 4096 % 64 = i₂ := by omega
  have e₃ : n / 64 % 64 = i₃ := by omega
  have e₄ : n % 64 = i₄ := by omega
  simp only [chars, hn, e₁, e₂, e₃, e₄]

/-- Two bytes and the three characters of the same number, which ends with two zero bits. -/
theorem chars_ofNat_two {i₁ i₂ i₃ : Nat} (h₁ : i₁ < 64) (h₂ : i₂ < 64) (h₃ : i₃ < 64)
    (hrest : (i₁ * 4096 + i₂ * 64 + i₃) % 4 = 0) :
    let n := i₁ * 4096 + i₂ * 64 + i₃
    chars [.ofNat (n / 1024), .ofNat (n / 4)] = [ofIndex i₁, ofIndex i₂, ofIndex i₃] := by
  intro n
  have hn : (UInt8.ofNat (n / 1024)).toNat * 1024 + (UInt8.ofNat (n / 4)).toNat * 4 = n := by
    simp only [UInt8.toNat_ofNat']
    omega
  have e₁ : n / 4096 = i₁ := by omega
  have e₂ : n / 64 % 64 = i₂ := by omega
  have e₃ : n % 64 = i₃ := by omega
  simp only [chars, hn, e₁, e₂, e₃]

/-- A byte and the two characters of the same number, which ends with four zero bits. -/
theorem chars_ofNat_one {i₁ i₂ : Nat} (h₁ : i₁ < 64) (h₂ : i₂ < 64)
    (hrest : (i₁ * 64 + i₂) % 16 = 0) :
    chars [.ofNat ((i₁ * 64 + i₂) / 16)] = [ofIndex i₁, ofIndex i₂] := by
  have hn : (UInt8.ofNat ((i₁ * 64 + i₂) / 16)).toNat * 16 = i₁ * 64 + i₂ := by
    simp only [UInt8.toNat_ofNat']
    omega
  have e₁ : (i₁ * 64 + i₂) / 64 = i₁ := by omega
  have e₂ : (i₁ * 64 + i₂) % 64 = i₂ := by omega
  simp only [chars, hn, e₁, e₂]

/-- **Only the characters of some bytes decode** to them: the bits left over are zero, so that no
other text does. -/
theorem eq_chars_of_decodeFrom {out bytes : ByteArray} {text : List Char}
    (h : decodeFrom out text = some bytes) :
    ∃ bs, text = chars bs ∧ bytes = out ++ bs.toByteArray := by
  fun_induction decodeFrom out text with
  | case1 out c₁ c₂ c₃ c₄ rest ih =>
    obtain ⟨i₁, h₁, hc₁, h⟩ := exists_of_bind_toIndex? h
    obtain ⟨i₂, h₂, hc₂, h⟩ := exists_of_bind_toIndex? h
    obtain ⟨i₃, h₃, hc₃, h⟩ := exists_of_bind_toIndex? h
    obtain ⟨i₄, h₄, hc₄, h⟩ := exists_of_bind_toIndex? h
    obtain ⟨bs, rfl, rfl⟩ := ih i₁ i₂ i₃ i₄ h
    subst hc₁ hc₂ hc₃ hc₄
    exact ⟨_, (chars_ofNat h₁ h₂ h₃ h₄ bs).symm, by rw [push_append, push_append, push_append]⟩
  | case2 out c₁ c₂ c₃ =>
    obtain ⟨i₁, h₁, hc₁, h⟩ := exists_of_bind_toIndex? h
    obtain ⟨i₂, h₂, hc₂, h⟩ := exists_of_bind_toIndex? h
    obtain ⟨i₃, h₃, hc₃, h⟩ := exists_of_bind_toIndex? h
    obtain ⟨hrest, rfl⟩ := guard_bind_eq_some h
    subst hc₁ hc₂ hc₃
    exact ⟨_, (chars_ofNat_two h₁ h₂ h₃ hrest).symm, by
      rw [← push_append, ← push_append, List.toByteArray_nil, ByteArray.append_empty]⟩
  | case3 out c₁ c₂ =>
    obtain ⟨i₁, h₁, hc₁, h⟩ := exists_of_bind_toIndex? h
    obtain ⟨i₂, h₂, hc₂, h⟩ := exists_of_bind_toIndex? h
    obtain ⟨hrest, rfl⟩ := guard_bind_eq_some h
    subst hc₁ hc₂
    exact ⟨_, (chars_ofNat_one h₁ h₂ hrest).symm, by
      rw [← push_append, List.toByteArray_nil, ByteArray.append_empty]⟩
  | case4 => cases h
  | case5 out =>
    obtain rfl := Option.some.inj h
    exact ⟨[], rfl, ByteArray.append_empty.symm⟩

/-- **Each string of bytes has one text.** -/
theorem decode?_eq_some_iff {text : List Char} {bytes : ByteArray} :
    decode? text = some bytes ↔ text = (encode bytes).toList := by
  rw [toList_encode]
  constructor
  · intro h
    obtain ⟨bs, rfl, rfl⟩ := eq_chars_of_decodeFrom h
    rw [ByteArray.empty_append, List.data_toByteArray]
  · rintro rfl
    exact decode?_chars bytes

/-! ### Armor -/

/-- A text with blank characters put in, wherever and however many. -/
inductive Spaced : (bare text : List Char) → Prop
  | nil : Spaced [] []
  | keep {bare text : List Char} (c : Char) : Spaced bare text → Spaced (c :: bare) (c :: text)
  | blank {bare text : List Char} {c : Char} (hc : isBlank c = true) :
    Spaced bare text → Spaced bare (c :: text)

theorem Spaced.filter_eq {bare text : List Char} (h : Spaced bare text) :
    text.filter (fun c => !isBlank c) = bare.filter fun c => !isBlank c := by
  induction h with
  | nil => rfl
  | keep c _ ih => rw [List.filter_cons, List.filter_cons, ih]
  | blank hc _ ih => rw [List.filter_cons_of_neg (by simp [hc]), ih]

theorem spaced_filter (text : List Char) : Spaced (text.filter fun c => !isBlank c) text := by
  induction text with
  | nil => exact .nil
  | cons c text ih =>
    by_cases hc : isBlank c = true
    · rw [List.filter_cons_of_neg (by simp [hc])]
      exact .blank hc ih
    · rw [List.filter_cons_of_pos (by simp [hc])]
      exact .keep c ih

/-- Blank characters are taken out of a text that has none of its own. -/
theorem spaced_iff {bare text : List Char} (h : ∀ c ∈ bare, isBlank c = false) :
    Spaced bare text ↔ text.filter (fun c => !isBlank c) = bare := by
  constructor
  · intro hs
    rw [hs.filter_eq, List.filter_eq_self.2 fun c hc => by simp [h c hc]]
  · rintro rfl
    exact spaced_filter text

theorem dropPadding_of_forall_ne {text : List Char} (h : ∀ c ∈ text, c ≠ '=') :
    dropPadding text = text := by
  have hkept : text.reverse.dropWhile (· = '=') = text.reverse := by
    cases hreverse : text.reverse with
    | nil => rfl
    | cons c cs =>
      have hmem : c ∈ text := List.mem_reverse.1 (hreverse ▸ List.mem_cons_self)
      exact List.dropWhile_cons_of_neg (by simpa using h c hmem)
  rw [dropPadding, hkept, List.reverse_reverse]

/-- Padding is dropped from a text that has no equals sign. -/
theorem dropPadding_append_replicate {text : List Char} (h : ∀ c ∈ text, c ≠ '=') (k : Nat) :
    dropPadding (text ++ List.replicate k '=') = text := by
  have hreverse : (text ++ List.replicate k '=').reverse
      = List.replicate k '=' ++ text.reverse := by
    simp
  rw [dropPadding, hreverse, List.dropWhile_append_of_pos (by simp)]
  exact dropPadding_of_forall_ne h

/-- What is dropped of a text are equals signs at its end. -/
theorem exists_dropPadding_append (text : List Char) :
    ∃ k, text = dropPadding text ++ List.replicate k '=' := by
  have hdropped : ∀ c ∈ text.reverse.takeWhile (· = '='), c = '=' := fun c hc =>
    of_decide_eq_true (List.all_eq_true.1 List.all_takeWhile c hc)
  have hsigns := List.eq_replicate_of_mem hdropped
  refine ⟨(text.reverse.takeWhile (· = '=')).length, ?_⟩
  calc text
      = (text.reverse.takeWhile (· = '=') ++ text.reverse.dropWhile (· = '=')).reverse := by
        rw [List.takeWhile_append_dropWhile, List.reverse_reverse]
    _ = dropPadding text ++ (text.reverse.takeWhile (· = '=')).reverse := List.reverse_append
    _ = dropPadding text ++ List.replicate _ '=' := by
        rw [hsigns, List.reverse_replicate, List.length_replicate]

theorem not_blank_padded {c : Char} {bytes : ByteArray} {k : Nat}
    (h : c ∈ (encode bytes).toList ++ List.replicate k '=') : isBlank c = false := by
  rcases List.mem_append.1 h with h | h
  · exact (mem_encode h).1
  · rw [List.eq_of_mem_replicate h]
    decide

/-- **Armored text decodes** exactly if it is the text of some bytes, with equals signs behind it
and blank characters put in anywhere. -/
theorem decodeArmor?_eq_some_iff {text : List Char} {bytes : ByteArray} :
    decodeArmor? text = some bytes ↔
      ∃ k, Spaced ((encode bytes).toList ++ List.replicate k '=') text := by
  rw [decodeArmor?, decode?_eq_some_iff]
  constructor
  · intro h
    obtain ⟨k, hk⟩ := exists_dropPadding_append (text.filter fun c => !isBlank c)
    rw [h] at hk
    exact ⟨k, hk ▸ spaced_filter text⟩
  · rintro ⟨k, hk⟩
    rw [(spaced_iff fun c hc => not_blank_padded hc).1 hk]
    exact dropPadding_append_replicate (fun c hc => (mem_encode hc).2) k

theorem spaced_encodeArmor (bytes : ByteArray) :
    Spaced (encode bytes).toList (encodeArmor bytes).toList := by
  rw [spaced_iff fun c hc => (mem_encode hc).1, encodeArmor, String.toList_append,
    List.filter_append, List.filter_eq_self.2 fun c hc => by simp [(mem_encode hc).1]]
  exact List.append_nil _

/-- What is written as armor decodes: it ends with a blank character, and has no equals sign. -/
theorem decodeArmor?_encodeArmor (bytes : ByteArray) :
    decodeArmor? (encodeArmor bytes).toList = some bytes := by
  refine decodeArmor?_eq_some_iff.2 ⟨0, ?_⟩
  rw [List.replicate_zero, List.append_nil]
  exact spaced_encodeArmor bytes

/-! ### Sizes -/

theorem size_decodeFrom_le {out bytes : ByteArray} {text : List Char}
    (h : decodeFrom out text = some bytes) : bytes.size ≤ out.size + text.length := by
  fun_induction decodeFrom out text with
  | case1 out c₁ c₂ c₃ c₄ rest ih =>
    obtain ⟨i₁, -, h⟩ := Option.bind_eq_some_iff.1 h
    obtain ⟨i₂, -, h⟩ := Option.bind_eq_some_iff.1 h
    obtain ⟨i₃, -, h⟩ := Option.bind_eq_some_iff.1 h
    obtain ⟨i₄, -, h⟩ := Option.bind_eq_some_iff.1 h
    have := ih _ _ _ _ h
    simp only [ByteArray.size_push, List.length_cons] at this ⊢
    omega
  | case2 out c₁ c₂ c₃ =>
    obtain ⟨i₁, -, h⟩ := Option.bind_eq_some_iff.1 h
    obtain ⟨i₂, -, h⟩ := Option.bind_eq_some_iff.1 h
    obtain ⟨i₃, -, h⟩ := Option.bind_eq_some_iff.1 h
    obtain ⟨-, -, h⟩ := Option.bind_eq_some_iff.1 h
    cases h
    simp only [ByteArray.size_push, List.length_cons, List.length_nil]
    omega
  | case3 out c₁ c₂ =>
    obtain ⟨i₁, -, h⟩ := Option.bind_eq_some_iff.1 h
    obtain ⟨i₂, -, h⟩ := Option.bind_eq_some_iff.1 h
    obtain ⟨-, -, h⟩ := Option.bind_eq_some_iff.1 h
    cases h
    simp only [ByteArray.size_push, List.length_cons, List.length_nil]
    omega
  | case4 => cases h
  | case5 out =>
    cases h
    exact Nat.le_add_right _ _

/-- Armored text is no shorter than what it is of. -/
theorem size_decodeArmor?_le {bytes : ByteArray} {text : List Char}
    (h : decodeArmor? text = some bytes) : bytes.size ≤ text.length := by
  have hsize := size_decodeFrom_le h
  have hfilter := List.length_filter_le (fun c => !isBlank c) text
  have hdrop : ∀ text : List Char, (dropPadding text).length ≤ text.length := fun text => by
    rw [dropPadding, List.length_reverse]
    exact Nat.le_trans (List.dropWhile_sublist _).length_le (Nat.le_of_eq List.length_reverse)
  have := hdrop (text.filter fun c => !isBlank c)
  rw [ByteArray.size_empty] at hsize
  omega

/-- A text has no more characters than bytes. -/
theorem length_toList_le (text : String) : text.toList.length ≤ text.toByteArray.size := by
  have hencode : ∀ cs : List Char, cs.length ≤ cs.utf8Encode.size := by
    intro cs
    induction cs with
    | nil => exact Nat.zero_le _
    | cons c cs ih =>
      have hone : [c].utf8Encode.size = c.utf8Size := by simp [List.utf8Encode]
      have hpos := c.utf8Size_pos
      rw [List.utf8Encode_cons, ByteArray.size_append, hone, List.length_cons]
      omega
  have hbytes := String.toByteArray_ofList (l := text.toList)
  rw [String.ofList_toList] at hbytes
  rw [hbytes]
  exact hencode text.toList

end SealedStream.Text.Base64Url
