import SealedStream.Algorithm
import SealedStream.Proofs.Bytes
import SealedStream.Proofs.Fault

/-!
# Decryption inverts encryption

For each of the three ciphers, decryption gives back what encryption was given, and opens nothing
else: a string opens to a text exactly if encryption makes it of that text.  Two of them add a key
stream, which is its own inverse (`xorBytes_xorBytes`).  AEGIS stirs the text into its state, piece
by piece; the invariant of both directions is that they pass through the same states
(`Aegis256.Undoes.foldl_chunks`).

* `Algorithm.decrypt_eq_ok_iff`: what opens to a text.
* `Algorithm.encrypt_decrypt_inverse`: all that sealing and opening have to do with each other, and
  how they fail.
-/

namespace SealedStream

/-! ### Exclusive or -/

theorem byteAt_push (a : ByteArray) (x : UInt8) (j : Nat) :
    byteAt (a.push x) j = if j = a.size then x else byteAt a j := by
  have hs : (a.push x).size = a.size + 1 := ByteArray.size_push
  unfold byteAt
  by_cases h1 : j = a.size
  · subst h1
    rw [dif_pos (by omega), if_pos rfl]
    exact Array.getElem_push_eq
  · rw [if_neg h1]
    by_cases h2 : j < a.size
    · rw [dif_pos (by omega), dif_pos h2]
      exact Array.getElem_push_lt h2
    · rw [dif_neg (by omega), dif_neg h2]

theorem ext_byteAt {a b : ByteArray} (hs : a.size = b.size)
    (h : ∀ i < a.size, byteAt a i = byteAt b i) : a = b := by
  refine ByteArray.ext_getElem hs fun i hi hj => ?_
  have hb := h i hi
  rwa [byteAt, byteAt, dif_pos hi, dif_pos hj] at hb

/-- The bytes that the loop has written are those of the sum. -/
theorem xorBytes.byteAt_go (a b : ByteArray) (i : Nat) (out : ByteArray) (hi : out.size = i)
    (j : Nat) (hj : j < a.size) :
    byteAt (xorBytes.go a b i out) j
      = if j < i then byteAt out j else byteAt a j ^^^ byteAt b j := by
  fun_induction xorBytes.go a b i out with
  | case1 i out h ih =>
    rw [ih (by rw [ByteArray.size_push, hi]), byteAt_push, hi]
    have ha : a[i] = byteAt a i := by rw [byteAt, dif_pos h]
    rcases Nat.lt_trichotomy j i with hlt | heq | hgt
    · rw [if_pos (by omega), if_neg (by omega), if_pos hlt]
    · subst heq
      rw [if_pos (by omega), if_pos rfl, if_neg (by omega), ha]
    · rw [if_neg (by omega), if_neg (by omega)]
  | case2 i out h => rw [if_pos (by omega)]

theorem byteAt_xorBytes {a b : ByteArray} {j : Nat} (hj : j < a.size) :
    byteAt (xorBytes a b) j = byteAt a j ^^^ byteAt b j := by
  rw [xorBytes, xorBytes.byteAt_go a b 0 _ rfl j hj, if_neg (Nat.not_lt_zero j)]

/-- **A key stream is its own inverse**, whatever its length. -/
theorem xorBytes_xorBytes (a k : ByteArray) : xorBytes (xorBytes a k) k = a := by
  refine ext_byteAt (by simp) fun i hi => ?_
  rw [size_xorBytes] at hi
  have ha : i < a.size := by rwa [size_xorBytes] at hi
  rw [byteAt_xorBytes hi, byteAt_xorBytes ha, UInt8.xor_assoc, UInt8.xor_self, UInt8.xor_zero]

namespace TaggedStream

variable (a : TaggedStream)

theorem size_encrypt (clear : ByteArray) : (a.encrypt clear).size = clear.size + 16 := by
  simp only [encrypt, ByteArray.size_append, size_xorBytes, (a.tag _).size_data]

/-- A string with room for a tag opens to a text if it is the sealed form of that text. -/
theorem decrypt?_eq_some_iff {text clear : ByteArray} (h : 16 ≤ text.size) :
    a.decrypt? text = some clear ↔ a.encrypt clear = text := by
  obtain ⟨b, t, rfl, hb⟩ := exists_eq_append_of_le (Nat.sub_le text.size 16)
  have hopen : a.decrypt? (b ++ t)
      = if (a.tag b).data = t then some (xorBytes b (a.keystream b.size)) else none := by
    rw [decrypt?, ← hb, extract_append_left rfl, extract_append_right rfl rfl]
  rw [hopen]
  constructor
  · intro hd
    split at hd
    next ht =>
      cases hd
      rw [encrypt, size_xorBytes, xorBytes_xorBytes, ht]
    next => cases hd
  · intro he
    have hsize := a.size_encrypt clear
    rw [he] at hsize
    obtain ⟨rfl, rfl⟩ := append_inj he (by rw [size_xorBytes]; omega)
    rw [if_pos rfl, size_xorBytes, xorBytes_xorBytes]

end TaggedStream

/-! ### Pieces of a text -/

section chunks

variable {n : Nat}

theorem chunks_empty : chunks n .empty = [] := by
  have h : (ByteArray.empty.size + n - 1) / n = 0 := by
    rcases Nat.eq_zero_or_pos n with rfl | hn
    · rfl
    · exact Nat.div_eq_of_lt (by show 0 + n - 1 < n; omega)
  rw [chunks, h]
  rfl

theorem chunks_append (hn : 0 < n) {b c : ByteArray} (hb : b.size = n) :
    chunks n (b ++ c) = b :: chunks n c := by
  have h : ((b ++ c).size + n - 1) / n = (c.size + n - 1) / n + 1 := by
    rw [ByteArray.size_append, hb, show n + c.size + n - 1 = (c.size + n - 1) + n by omega,
      Nat.add_div_right _ hn]
  rw [chunks, h, List.range_succ_eq_map, List.map_cons, List.map_map, Nat.zero_mul, Nat.zero_add,
    extract_append_left hb]
  refine congrArg (b :: ·) (List.map_congr_left fun k _ => ?_)
  show (b ++ c).extract ((k + 1) * n) ((k + 1) * n + n) = c.extract (k * n) (k * n + n)
  have hk : (k + 1) * n = n + k * n := by rw [Nat.add_mul, Nat.one_mul, Nat.add_comm]
  rw [hk, Nat.add_assoc]
  exact ByteArray.extract_append_size_add' hb.symm

theorem chunks_of_le {c : ByteArray} (h0 : 0 < c.size) (hn : c.size ≤ n) : chunks n c = [c] := by
  have h : (c.size + n - 1) / n = 1 := by
    rw [show c.size + n - 1 = (c.size - 1) + n by omega, Nat.add_div_right _ (by omega),
      Nat.div_eq_of_lt (by omega)]
  rw [chunks, h]
  show [c.extract (0 * n) (0 * n + n)] = [c]
  rw [Nat.zero_mul, Nat.zero_add, ← Nat.max_eq_left hn, ByteArray.extract_zero_max_size]

/-- A text that is not empty has a first piece. -/
theorem exists_chunks_eq_cons (hn : 0 < n) {a : ByteArray} (ha : 0 < a.size) :
    ∃ b c, a = b ++ c ∧ 0 < b.size ∧ (b.size = n ∨ c = .empty ∧ b.size ≤ n) ∧
      chunks n a = b :: chunks n c := by
  by_cases h : n ≤ a.size
  · obtain ⟨b, c, rfl, hb⟩ := exists_eq_append_of_le h
    exact ⟨b, c, rfl, by omega, .inl hb, chunks_append hn hb⟩
  · refine ⟨a, .empty, by rw [ByteArray.append_empty], ha, .inr ⟨rfl, by omega⟩, ?_⟩
    rw [chunks_of_le ha (by omega), chunks_empty]

end chunks

/-! ### AEGIS -/

namespace Aegis256

/-- What `f` does with some bytes, `g` undoes: from the same state both go on to the same state, and
each puts out what the other is given. -/
def Undoes (g f : Progress → ByteArray → Progress) (s : State) (b : ByteArray) : Prop :=
  ∃ (s' : State) (x : ByteArray), x.size = b.size ∧
    (∀ out, f ⟨s, out⟩ b = ⟨s', out ++ x⟩) ∧ ∀ out, g ⟨s, out⟩ x = ⟨s', out ++ b⟩

theorem undoes_decryptStep (s : State) (b : ByteArray) : Undoes decryptStep encryptStep s b := by
  refine ⟨update s (.ofByteArray b), xorBytes b (keystream s), size_xorBytes _ _, fun _ => rfl,
    fun out => ?_⟩
  rw [decryptStep, xorBytes_xorBytes]

theorem undoes_encryptStep (s : State) (b : ByteArray) : Undoes encryptStep decryptStep s b := by
  refine ⟨update s (.ofByteArray (xorBytes b (keystream s))), xorBytes b (keystream s),
    size_xorBytes _ _, fun _ => rfl, fun out => ?_⟩
  rw [encryptStep, xorBytes_xorBytes]

/-- **Both directions pass through the same states.**  What is undone piece by piece is undone for a
whole text.  The induction is on the length of the text that is left. -/
theorem Undoes.foldl_chunks {f g : Progress → ByteArray → Progress} (h : ∀ s b, Undoes g f s b)
    (s : State) (a : ByteArray) :
    Undoes (fun p a => (chunks 16 a).foldl g p) (fun p a => (chunks 16 a).foldl f p) s a := by
  generalize hn : a.size = n
  induction n using Nat.strongRecOn generalizing s a with
  | ind n ih =>
    rcases Nat.eq_zero_or_pos a.size with h0 | h0
    · obtain rfl := ByteArray.size_eq_zero_iff.1 h0
      refine ⟨s, .empty, rfl, fun out => ?_, fun out => ?_⟩ <;> simp [chunks_empty]
    obtain ⟨b, c, rfl, hb0, hb, hchunks⟩ := exists_chunks_eq_cons (n := 16) (by decide) h0
    have hsize : (b ++ c).size = b.size + c.size := ByteArray.size_append
    obtain ⟨s₁, x, hx, hf, hg⟩ := h s b
    obtain ⟨s₂, y, hy, hfs, hgs⟩ := ih c.size (by omega) s₁ c rfl
    -- The piece in front is as long as what becomes of it, so both texts are cut alike.
    have hpieces : chunks 16 (x ++ y) = x :: chunks 16 y := by
      rcases hb with hb | ⟨rfl, hb⟩
      · exact chunks_append (by decide) (hx.trans hb)
      · obtain rfl := ByteArray.size_eq_zero_iff.1 hy
        rw [ByteArray.append_empty, chunks_empty]
        exact chunks_of_le (by omega) (by omega)
    refine ⟨s₂, x ++ y, by rw [ByteArray.size_append, hx, hy, hsize], fun out => ?_, fun out => ?_⟩
    · show (chunks 16 (b ++ c)).foldl f ⟨s, out⟩ = _
      rw [hchunks, List.foldl_cons, hf, ← ByteArray.append_assoc]
      exact hfs _
    · show (chunks 16 (x ++ y)).foldl g ⟨s, out⟩ = _
      rw [hpieces, List.foldl_cons, hg, ← ByteArray.append_assoc]
      exact hgs _

variable (key : Bytes 32) (nonce aad : ByteArray)

/-- What encryption puts out, and how decryption goes through it. -/
theorem exists_encrypt_eq (clear : ByteArray) :
    ∃ (s : State) (text : ByteArray), text.size = clear.size ∧
      encrypt key nonce clear aad = text ++ (tag s aad.size clear.size).data ∧
      (chunks 16 text).foldl decryptStep ⟨absorb (start key nonce) aad, .empty⟩ = ⟨s, clear⟩ := by
  obtain ⟨s, text, htext, hencrypt, hdecrypt⟩ :=
    Undoes.foldl_chunks undoes_decryptStep (absorb (start key nonce) aad) clear
  have hout := hencrypt .empty
  have hback := hdecrypt .empty
  rw [ByteArray.empty_append] at hout hback
  dsimp only at hout
  refine ⟨s, text, htext, ?_, hback⟩
  rw [encrypt, hout]

theorem size_encrypt (clear : ByteArray) :
    (encrypt key nonce clear aad).size = clear.size + 32 := by
  obtain ⟨s, text, htext, hencrypt, -⟩ := exists_encrypt_eq key nonce aad clear
  rw [hencrypt, ByteArray.size_append, (tag _ _ _).size_data, htext]

/-- A string with room for a tag opens to a text if it is the sealed form of that text. -/
theorem decrypt?_eq_some_iff {text clear : ByteArray} (h : 32 ≤ text.size) :
    decrypt? key nonce text aad = some clear ↔ encrypt key nonce clear aad = text := by
  obtain ⟨b, t, rfl, hb⟩ := exists_eq_append_of_le (Nat.sub_le text.size 32)
  obtain ⟨s, x, hx, hdecrypt, hencrypt⟩ :=
    Undoes.foldl_chunks undoes_encryptStep (absorb (start key nonce) aad) b
  have hout := hdecrypt .empty
  rw [ByteArray.empty_append] at hout
  dsimp only at hout
  have hopen : decrypt? key nonce (b ++ t) aad
      = if (tag s aad.size b.size).data = t then some x else none := by
    rw [decrypt?, ← hb, extract_append_left rfl, extract_append_right rfl rfl, hout]
  rw [hopen]
  constructor
  · intro hd
    split at hd
    next ht =>
      cases hd
      have hback := hencrypt .empty
      rw [ByteArray.empty_append] at hback
      dsimp only at hback
      rw [encrypt, hback, hx, ht]
    next => cases hd
  · intro he
    obtain ⟨s', text, htext, hseal, hback⟩ := exists_encrypt_eq key nonce aad clear
    have hsize := size_encrypt key nonce aad clear
    rw [he] at hsize
    obtain ⟨rfl, rfl⟩ := append_inj (hseal.symm.trans he) (by omega)
    -- Both ways through the text start from the same state.
    obtain ⟨rfl, rfl⟩ := Progress.mk.inj (hback.symm.trans hout)
    rw [htext, if_pos rfl]

end Aegis256

/-! ### All algorithms -/

namespace Algorithm

variable {a : Algorithm} {key : Key} {iv aad : ByteArray}

theorem nonce_eq_ok_iff {nonce : ByteArray} :
    a.nonce iv = .ok nonce ↔ nonce = iv.extract 0 a.ivBytes ∧ a.ivBytes ≤ iv.size :=
  ite_eq_ok

theorem nonce_eq_ok (h : iv.size = a.ivBytes) : a.nonce iv = .ok iv :=
  nonce_eq_ok_iff.2 ⟨by rw [← h, ByteArray.extract_zero_size], Nat.le_of_eq h.symm⟩

/-- **Only the nonce matters**: what follows it in an `iv` does not. -/
theorem nonce_congr {iv' : ByteArray} (h : iv'.extract 0 a.ivBytes = iv.extract 0 a.ivBytes) :
    a.nonce iv' = a.nonce iv := by
  have hsize := congrArg ByteArray.size h
  simp only [ByteArray.size_extract, Nat.sub_zero] at hsize
  unfold nonce
  by_cases hiv : a.ivBytes ≤ iv.size
  · rw [if_pos hiv, if_pos (by omega), h]
  · have hsame : iv'.size = iv.size := by omega
    rw [if_neg hiv, hsame, if_neg hiv]

/-- What a text becomes is as long as the text and a tag. -/
theorem size_of_encrypt {clear text : ByteArray} (h : a.encrypt key iv clear aad = .ok text) :
    text.size = clear.size + a.tagBytes := by
  obtain ⟨nonce, -, hseal⟩ := bind_eq_ok.1 h
  cases a with
  | aesGcm =>
    cases hseal
    exact TaggedStream.size_encrypt _ clear
  | xChaCha20Poly1305 =>
    cases hseal
    exact TaggedStream.size_encrypt _ clear
  | aegis256 =>
    cases hseal
    exact Aegis256.size_encrypt key nonce aad clear

/-- A string with room for a tag opens to a text if that text becomes the string. -/
theorem decrypt?_eq_some_iff {nonce text clear : ByteArray} (hn : a.nonce iv = .ok nonce)
    (h : a.tagBytes ≤ text.size) :
    a.decrypt? key nonce text aad = some clear ↔ a.encrypt key iv clear aad = .ok text := by
  rw [encrypt, hn]
  cases a with
  | aesGcm =>
    exact (TaggedStream.decrypt?_eq_some_iff _ h).trans ⟨congrArg Except.ok, Except.ok.inj⟩
  | xChaCha20Poly1305 =>
    exact (TaggedStream.decrypt?_eq_some_iff _ h).trans ⟨congrArg Except.ok, Except.ok.inj⟩
  | aegis256 =>
    exact (Aegis256.decrypt?_eq_some_iff key nonce aad h).trans
      ⟨congrArg Except.ok, Except.ok.inj⟩

/-- **Opening is the inverse of sealing**: a string opens to a text if and only if that text becomes
the string. -/
theorem decrypt_eq_ok_iff {text clear : ByteArray} :
    a.decrypt key iv text aad = .ok clear ↔ a.encrypt key iv clear aad = .ok text := by
  constructor
  · intro h
    obtain ⟨nonce, hn, hopen⟩ := bind_eq_ok.1 h
    split at hopen
    · cases hopen
    next ht =>
      split at hopen
      next hd =>
        cases hopen
        exact (decrypt?_eq_some_iff hn (Nat.le_of_not_lt ht)).1 hd
      next => cases hopen
  · intro h
    obtain ⟨nonce, hn, -⟩ := bind_eq_ok.1 h
    have hs := size_of_encrypt h
    refine bind_eq_ok.2 ⟨nonce, hn, ?_⟩
    rw [if_neg (by omega), (decrypt?_eq_some_iff hn (by omega)).2 h]

/-- **Sealing succeeds** for every text. -/
theorem exists_encrypt_eq_ok (key : Key) (aad : ByteArray) (h : a.ivBytes ≤ iv.size)
    (clear : ByteArray) : ∃ text, a.encrypt key iv clear aad = .ok text := by
  have hn : a.nonce iv = .ok _ := nonce_eq_ok_iff.2 ⟨rfl, h⟩
  rw [encrypt, hn]
  cases a <;> exact ⟨_, rfl⟩

/-- Decryption inverts encryption, which succeeds for every text. -/
theorem exists_encrypt (key : Key) (aad : ByteArray) (h : iv.size = a.ivBytes) (clear : ByteArray) :
    ∃ text, a.encrypt key iv clear aad = .ok text ∧ text.size = clear.size + a.tagBytes ∧
      a.decrypt key iv text aad = .ok clear := by
  obtain ⟨text, htext⟩ := exists_encrypt_eq_ok key aad (Nat.le_of_eq h.symm) clear
  exact ⟨text, htext, size_of_encrypt htext, decrypt_eq_ok_iff.2 htext⟩

/-- A text that opens is longer than what it opens to by a tag. -/
theorem size_of_decrypt {text clear : ByteArray} (h : a.decrypt key iv text aad = .ok clear) :
    clear.size + a.tagBytes = text.size :=
  (size_of_encrypt (decrypt_eq_ok_iff.1 h)).symm

/-- A text that opens has a tag. -/
theorem ne_empty_of_decrypt {text clear : ByteArray} (h : a.decrypt key iv text aad = .ok clear) :
    text ≠ .empty := by
  have hpos : 0 < a.tagBytes := by cases a <;> decide
  have hsize := size_of_decrypt h
  rw [ne_eq, ← ByteArray.size_eq_zero_iff]
  omega

/-! ### Failures -/

/-- **Sealing fails** only for an `iv` that is too short for a nonce. -/
theorem encrypt_eq_error_iff {clear : ByteArray} {fault : Fault} :
    a.encrypt key iv clear aad = .error fault ↔ iv.size < a.ivBytes ∧
      fault = .invalidArgument s!"{a.name} needs a {a.ivBytes} byte iv, got {iv.size}" := by
  by_cases h : a.ivBytes ≤ iv.size
  · obtain ⟨text, htext⟩ := exists_encrypt_eq_ok key aad h clear
    constructor
    · intro he
      cases htext.symm.trans he
    · rintro ⟨hlt, -⟩
      omega
  · have hn : a.nonce iv = .error _ := if_neg h
    rw [encrypt, hn]
    constructor
    · intro he
      cases he
      exact ⟨by omega, rfl⟩
    · rintro ⟨-, rfl⟩
      rfl

/-- **Opening fails** in one way, whatever is wrong with a string that is no sealed form. -/
theorem decrypt_eq_error_iff (h : a.ivBytes ≤ iv.size) {text : ByteArray} {fault : Fault} :
    a.decrypt key iv text aad = .error fault ↔
      fault = .decryptionFailure ∧ ∀ clear, a.encrypt key iv clear aad ≠ .ok text := by
  have hn : a.nonce iv = .ok _ := nonce_eq_ok_iff.2 ⟨rfl, h⟩
  have hfails : ∀ {fault : Fault}, a.decrypt key iv text aad = .error fault →
      fault = .decryptionFailure := by
    intro fault he
    obtain he | ⟨nonce, -, he⟩ := bind_eq_error.1 he
    · cases hn.symm.trans he
    split at he
    · cases he
      rfl
    · split at he <;> cases he
      rfl
  constructor
  · intro he
    refine ⟨hfails he, fun clear hc => ?_⟩
    rw [decrypt_eq_ok_iff.2 hc] at he
    cases he
  · rintro ⟨rfl, hnone⟩
    cases hd : a.decrypt key iv text aad with
    | ok clear => exact absurd (decrypt_eq_ok_iff.1 hd) (hnone clear)
    | error fault => rw [hfails hd]

/-- **Sealing and opening are inverse**, for every algorithm, key and additional data, and without
any bound on the texts.  Sealing fails if and only if the `iv` is shorter than a nonce, and makes a
text longer by a tag.  A string opens to a text if and only if sealing makes it of that text.  It
does not matter how an `iv` goes on after its nonce.  And where an `iv` is long enough, opening
fails in one way only, as it does for every string that is shorter than a tag. -/
theorem encrypt_decrypt_inverse (a : Algorithm) (key : Key) (iv aad : ByteArray) :
    (∀ clear fault, a.encrypt key iv clear aad = .error fault ↔ iv.size < a.ivBytes ∧
      fault = .invalidArgument s!"{a.name} needs a {a.ivBytes} byte iv, got {iv.size}") ∧
    (∀ clear text, a.encrypt key iv clear aad = .ok text →
      text.size = clear.size + a.tagBytes) ∧
    (∀ clear text, a.decrypt key iv text aad = .ok clear ↔
      a.encrypt key iv clear aad = .ok text) ∧
    (∀ iv' : ByteArray, iv'.extract 0 a.ivBytes = iv.extract 0 a.ivBytes →
      ∀ bytes, a.encrypt key iv' bytes aad = a.encrypt key iv bytes aad ∧
        a.decrypt key iv' bytes aad = a.decrypt key iv bytes aad) ∧
    (a.ivBytes ≤ iv.size → ∀ text : ByteArray,
      (∀ fault, a.decrypt key iv text aad = .error fault → fault = .decryptionFailure) ∧
        (text.size < a.tagBytes → a.decrypt key iv text aad = .error .decryptionFailure)) := by
  refine ⟨fun _ _ => encrypt_eq_error_iff, fun _ _ => size_of_encrypt,
    fun _ _ => decrypt_eq_ok_iff, fun iv' hsame bytes => ?_, fun h text => ⟨fun fault he => ?_,
    fun hshort => ?_⟩⟩
  · rw [encrypt, encrypt, decrypt, decrypt, nonce_congr hsame]
    exact ⟨rfl, rfl⟩
  · exact ((decrypt_eq_error_iff h).1 he).1
  · refine (decrypt_eq_error_iff h).2 ⟨rfl, fun clear hc => ?_⟩
    have hsize := size_of_encrypt hc
    omega

end Algorithm

end SealedStream
