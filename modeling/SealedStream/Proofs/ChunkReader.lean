import SealedStream.Proofs.Source

/-!
# What chunk readers hand out

A chunk reader hands out the bytes of its source in order: what it has handed out and what it still
holds are what the source has given, whatever the pieces.  A chunk is shorter than asked for only if
nothing is left (`meets_readFill`), and a chunk that looks one byte ahead knows whether it is the
last (`meets_readAvailable`).
-/

namespace SealedStream

variable {ρ : Type} {read : Source ρ} {Src : Supply ρ} {bad : Fault → Prop}

theorem Source.run_ask_read (read : Source ρ) {α : Type} (n : Nat)
    (next : Except IoFault ByteArray → Program Host α) (l : ρ) (w : World) :
    read.run (.ask (HostRequest.read n) next) l w =
      read.run (next (w.run (read n l)).1.1) (w.run (read n l)).1.2 (w.run (read n l)).2 := by
  show read.run (Host.read n >>= next) l w = _
  rw [run_bind, run_read]

namespace ChunkReader

variable {r : ChunkReader} {l : ρ} {w : World} {taken : ByteArray}

/-- What is left after collecting bytes: as many as wanted, or all there are. -/
structure Collected (Src : Supply ρ) (taken : ByteArray) (want : Nat) (r r' : ChunkReader) (l : ρ)
    (w : World) : Prop where
  holds : Src l w (taken ++ r'.buffer) r'.ended
  enough : want ≤ r'.buffer.size ∨ r'.ended = true
  grows : r.buffer.size ≤ r'.buffer.size

/-- **Collecting bytes.**  The induction is on the pieces that are missing; each of them is appended
to the buffer, or is empty and ends the input. -/
theorem meets_collect (hs : Supplies read Src bad) (want : Nat) (inUse : Bool)
    (h : Src l w (taken ++ r.buffer) r.ended) :
    Meets read (collect want inUse) r l w (fun _ r' l w => Collected Src taken want r r' l w)
      fun fault _ _ _ => bad fault := by
  unfold Meets collect
  fun_induction fill want inUse r generalizing l w with
  | case1 r hmissing room =>
    rename_i ih
    rw [hmissing.2] at h
    have hcap : want ≤ room.capacity := Room.le_capacity_reserve want r.buffer.size inUse r.room
    have hpos : 0 < room.capacity - r.buffer.size := by omega
    have hg := hs hpos h
    rw [Source.run_ask_read]
    generalize w.run (read (room.capacity - r.buffer.size) l) = x at hg
    obtain ⟨⟨e | bytes, l⟩, w⟩ := x
    · exact hg
    change Src l w (taken ++ r.buffer ++ bytes) bytes.isEmpty at hg
    dsimp only
    by_cases h0 : bytes.size = 0
    · -- A piece without bytes ends the input.
      rw [dif_pos h0]
      obtain rfl := ByteArray.size_eq_zero_iff.1 h0
      rw [ByteArray.append_empty] at hg
      exact ⟨hg, .inr rfl, Nat.le_refl _⟩
    · rw [dif_neg h0]
      have hne : bytes.isEmpty = false := by
        rw [← Bool.not_eq_true, isEmpty_iff, ← ByteArray.size_eq_zero_iff]
        exact h0
      rw [hne, ByteArray.append_assoc] at hg
      have hm := ih bytes h0 (by rw [hmissing.2]; exact hg)
      generalize read.run (fill want inUse { r with buffer := r.buffer ++ bytes, room }) l w = y
        at hm
      obtain ⟨⟨⟨e | u, r'⟩, l⟩, w⟩ := y
      · exact hm
      · refine ⟨hm.holds, hm.enough, Nat.le_trans ?_ hm.grows⟩
        show r.buffer.size ≤ (r.buffer ++ bytes).size
        rw [ByteArray.size_append]
        exact Nat.le_add_right _ _
  | case2 r hmissing =>
    refine ⟨h, ?_, Nat.le_refl _⟩
    by_cases hw : r.buffer.size < want
    · exact .inr (by simpa using fun he => hmissing ⟨hw, he⟩)
    · exact .inl (Nat.le_of_not_lt hw)

/-! ### Chunks -/

theorem append_split (n : Nat) (r : ChunkReader) :
    (split n r).1.bytes ++ (split n r).2.buffer = r.buffer := by
  show r.buffer.extract 0 n ++ r.buffer.extract n r.buffer.size = r.buffer
  rw [ByteArray.extract_append_extract, Nat.zero_min, ByteArray.extract_zero_max_size]

theorem size_split (n : Nat) (r : ChunkReader) :
    (split n r).1.bytes.size = min n r.buffer.size := by
  show (r.buffer.extract 0 n).size = _
  rw [ByteArray.size_extract, Nat.sub_zero]

theorem size_split_buffer (n : Nat) (r : ChunkReader) :
    (split n r).2.buffer.size = r.buffer.size - n := by
  show (r.buffer.extract n r.buffer.size).size = _
  rw [ByteArray.size_extract, Nat.min_self]

/-- A reader after a chunk: what is known of its source, and the size of the chunk. -/
structure HandedOut (Src : Supply ρ) (taken : ByteArray) (n : Nat) (chunk : Chunk)
    (r' : ChunkReader) (l : ρ) (w : World) : Prop where
  holds : Src l w (taken ++ chunk.bytes ++ r'.buffer) r'.ended
  size_le : chunk.bytes.size ≤ n
  /-- A chunk that is too short is the last. -/
  exhausted : chunk.bytes.size < n → r'.ended = true ∧ r'.buffer = .empty

theorem Collected.handedOut {n want : Nat} {r r' : ChunkReader}
    (hc : Collected Src taken want r r' l w) (hn : n ≤ want) :
    HandedOut Src taken n (split n r').1 (split n r').2 l w := by
  refine ⟨?_, ?_, fun hlt => ⟨?_, ?_⟩⟩
  · rw [ByteArray.append_assoc, append_split]
    exact hc.holds
  · rw [size_split]
    exact Nat.min_le_left _ _
  · rw [size_split] at hlt
    exact hc.enough.resolve_left (by omega)
  · rw [size_split] at hlt
    rw [← ByteArray.size_eq_zero_iff, size_split_buffer]
    omega

/-- **Exactly `n` bytes**, or all that are left if there are fewer. -/
theorem meets_readFill (hs : Supplies read Src bad) (n : Nat) (inUse : Bool)
    (h : Src l w (taken ++ r.buffer) r.ended) :
    Meets read (readFill n inUse) r l w (fun chunk r' l w => HandedOut Src taken n chunk r' l w)
      fun fault _ _ _ => bad fault := by
  unfold readFill handOut
  simp only [meets_bind, meets_modifyGet]
  exact (meets_collect hs n inUse h).mono (fun _ r' l w hc => hc.handedOut (Nat.le_refl n))
    fun _ _ _ _ hb => hb

/-- **At most `n` bytes, and whether they are the last.**  A reader that holds bytes gives some. -/
theorem meets_readAvailable (hs : Supplies read Src bad) (n : Nat) (inUse : Bool)
    (h : Src l w (taken ++ r.buffer) r.ended) :
    Meets read (readAvailable n inUse) r l w
      (fun chunk r' l w => HandedOut Src taken n chunk r' l w ∧
        (chunk.done = true → r'.ended = true ∧ r'.buffer = .empty) ∧
        (chunk.done = false → r'.buffer ≠ .empty ∧ chunk.bytes.size = n) ∧
        (0 < n → r.buffer ≠ .empty → chunk.bytes ≠ .empty))
      fun fault _ _ _ => bad fault := by
  unfold readAvailable handOut
  simp only [meets_bind, meets_modifyGet]
  refine (meets_collect hs (n + 1) inUse h).mono (fun _ r' l w hc => ?_) fun _ _ _ _ hb => hb
  have hdone : (split n r').1.done = ((split n r').2.ended && (split n r').2.buffer.isEmpty) := rfl
  refine ⟨hc.handedOut (Nat.le_succ n), fun hd => ?_, fun hd => ?_, fun hn hb => ?_⟩
  · rw [hdone, Bool.and_eq_true, isEmpty_iff] at hd
    exact hd
  · -- A chunk that is not the last leaves a byte, whether or not the input has ended.
    have hlt : n < r'.buffer.size := by
      rcases hc.enough with he | he
      · exact he
      · rw [hdone, show (split n r').2.ended = true from he, Bool.true_and] at hd
        rw [← Bool.not_eq_true, isEmpty_iff, ← ByteArray.size_eq_zero_iff, size_split_buffer] at hd
        omega
    constructor
    · rw [ne_eq, ← ByteArray.size_eq_zero_iff, size_split_buffer]
      omega
    · rw [size_split]
      omega
  · have hg := hc.grows
    rw [ne_eq, ← ByteArray.size_eq_zero_iff] at hb ⊢
    rw [size_split]
    omega

/-- **All that is left**, if it is no more than `limit` bytes. -/
theorem meets_readToLimit (hs : Supplies read Src bad) (limit : Nat) (inUse : Bool)
    (h : Src l w (taken ++ r.buffer) r.ended) :
    Meets read (readToLimit limit inUse) r l w
      (fun chunk r' l w => Src l w (taken ++ chunk.bytes) true ∧ chunk.bytes.size ≤ limit ∧
        r'.ended = true ∧ r'.buffer = .empty)
      fun fault r' l w => bad fault ∨
        Src l w (taken ++ r'.buffer) r'.ended ∧ limit < r'.buffer.size := by
  unfold readToLimit handOut
  simp only [meets_bind, meets_get]
  refine (meets_collect hs (limit + 1) inUse h).mono (fun _ r' l w hc => ?_)
    fun _ _ _ _ hb => .inl hb
  by_cases hlt : limit < r'.buffer.size
  · rw [if_pos hlt]
    exact .inr ⟨hc.holds, hlt⟩
  · rw [if_neg hlt]
    have hended : r'.ended = true := hc.enough.resolve_left (by omega)
    have hbuffer : (split limit r').2.buffer = .empty := by
      rw [← ByteArray.size_eq_zero_iff, size_split_buffer]
      omega
    have hsize : (split limit r').1.bytes.size ≤ limit := by
      rw [size_split]
      exact Nat.min_le_left _ _
    refine ⟨?_, hsize, hended, hbuffer⟩
    have hall := append_split limit r'
    rw [hbuffer, ByteArray.append_empty] at hall
    show Src l w (taken ++ (split limit r').1.bytes) true
    rw [hall, ← hended]
    exact hc.holds

end ChunkReader

/-! ### Known bytes -/

/-- A reader of a source whose bytes are `all` has handed out those before `ahead`. -/
def ChunkReader.Before (Src : Supply ρ) (all ahead : ByteArray) (r : ChunkReader) (l : ρ)
    (w : World) : Prop :=
  ∃ taken, Src l w (taken ++ r.buffer) r.ended ∧ all = taken ++ ahead

theorem ChunkReader.Before.held {all ahead : ByteArray} {r : ChunkReader} {l : ρ} {w : World}
    (h : r.Before Src all ahead l w) : Held Src l w := by
  obtain ⟨taken, hsrc, -⟩ := h
  exact ⟨_, _, hsrc⟩

/-- Where the bytes of a source are known, a chunk is the first of those that have not been handed
out. -/
theorem ChunkReader.HandedOut.eq_extract {all taken ahead : ByteArray} (ht : Total all Src)
    {n : Nat} {chunk : Chunk} {r' : ChunkReader} {l : ρ} {w : World}
    (h : HandedOut Src taken n chunk r' l w) (hall : all = taken ++ ahead) :
    chunk.bytes = ahead.extract 0 n ∧ ahead = chunk.bytes ++ ahead.extract n ahead.size := by
  obtain ⟨rest, hrest, hend⟩ := ht h.holds
  rw [hall, ByteArray.append_assoc, ByteArray.append_assoc] at hrest
  obtain rfl := (append_inj hrest rfl).2
  by_cases hlt : chunk.bytes.size < n
  · -- The chunk is all that was ahead.
    obtain ⟨he, hb⟩ := h.exhausted hlt
    rw [hend he, hb, ByteArray.append_empty, ByteArray.append_empty]
    have hx : chunk.bytes.extract n chunk.bytes.size = .empty := by
      rw [← ByteArray.size_eq_zero_iff, ByteArray.size_extract]
      omega
    rw [hx, ByteArray.append_empty, ← Nat.max_eq_left (Nat.le_of_lt hlt),
      ByteArray.extract_zero_max_size]
    exact ⟨rfl, rfl⟩
  · have hs : chunk.bytes.size = n := Nat.le_antisymm h.size_le (Nat.le_of_not_lt hlt)
    rw [extract_append_left hs, extract_append_right hs rfl]
    exact ⟨rfl, rfl⟩

/-- The first bytes ahead are handed out, the others are ahead afterwards. -/
theorem ChunkReader.meets_readFill_before {all ahead : ByteArray} {r : ChunkReader} {l : ρ}
    {w : World} (hs : Supplies read Src bad) (ht : Total all Src) (n : Nat) (inUse : Bool)
    (hb : r.Before Src all ahead l w) :
    Meets read (readFill n inUse) r l w
      (fun chunk r' l w => chunk.bytes = ahead.extract 0 n ∧
        r'.Before Src all (ahead.extract n ahead.size) l w ∧
        (chunk.bytes.size < n → r'.ended = true))
      fun fault _ _ _ => bad fault := by
  obtain ⟨taken, hsrc, hall⟩ := hb
  refine (meets_readFill hs n inUse hsrc).mono (fun chunk r' l w hc => ?_) fun _ _ _ _ hb => hb
  obtain ⟨hchunk, hahead⟩ := hc.eq_extract ht hall
  refine ⟨hchunk, ⟨taken ++ chunk.bytes, hc.holds, ?_⟩, fun hlt => (hc.exhausted hlt).1⟩
  rw [ByteArray.append_assoc, ← hahead]
  exact hall

end SealedStream
