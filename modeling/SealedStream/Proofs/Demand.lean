import SealedStream.Proofs.Attempts

/-!
# How far a demand reaches

A pass makes a block only when the one around it asks for bytes that it does not have.  A session
needs all bytes of its next chunk, and one more, which shows whether the chunk is the last.  So the
number of blocks that a pass has made decides how many bytes it has asked for (`demandFor`), and
with that how many blocks the pass inside it has made.  What a session reads ahead, and what waits
in an outlet, does not change it.

* `Layers.follows_pulled`: while bytes of a demand are missing, no pass makes a block too many.
* `Layers.made_least`: at rest each pass has made the fewest blocks that meet its demand.
-/

namespace SealedStream

attribute [local instance (2000)] instPowNat

/-! ### Demand -/

/-- How many bytes a session needs for its first `k` blocks: those of their chunks, and one more,
which shows whether the last of them is the last of all. -/
def demandFor (start : Nat) : Nat → Nat
  | 0 => 0
  | k + 1 => 1 + chunkTotal start (k + 1)

theorem chunkTotal_succ (start k : Nat) :
    chunkTotal start (k + 1) = chunkTotal start k + chunkTarget start k :=
  rfl

theorem demandFor_succ (start k : Nat) :
    demandFor start (k + 1) = 1 + chunkTotal start (k + 1) :=
  rfl

theorem demandFor_le_succ (start k : Nat) : demandFor start k ≤ demandFor start (k + 1) := by
  cases k with
  | zero => exact Nat.zero_le _
  | succ k =>
    rw [demandFor_succ, demandFor_succ, chunkTotal_succ start (k + 1)]
    omega

/-- No pass of a ledger has made a block too many: before each of its blocks it had fewer bytes than
were demanded, which for the pass at level `n` are `demand`. -/
def Lazy (start : Nat) : (n demand : Nat) → List Attempt → Prop
  | 0, _, _ => True
  | n + 1, demand, ledger =>
    (∀ i < (blocksOf (n + 1) ledger).length,
      (concat ((blocksOf (n + 1) ledger).take i)).size < demand) ∧
    Lazy start n (demandFor start (blocksOf (n + 1) ledger).length) ledger

namespace Lazy

variable {start n demand demand' : Nat} {ledger : List Attempt} {a : Attempt}

theorem nil (start n demand : Nat) : Lazy start n demand [] := by
  induction n generalizing demand with
  | zero => trivial
  | succ n ih =>
    refine ⟨fun i hi => ?_, ih _⟩
    exact absurd hi (Nat.not_lt_zero i)

/-- More may be demanded at any time. -/
theorem mono (h : Lazy start n demand ledger) (hle : demand ≤ demand') :
    Lazy start n demand' ledger := by
  cases n with
  | zero => trivial
  | succ n =>
    refine ⟨fun i hi => ?_, h.2⟩
    have := h.1 i hi
    omega

/-- A step of a level above. -/
theorem above (h : Lazy start n demand ledger) (ha : n < a.level) :
    Lazy start n demand (ledger ++ [a]) := by
  induction n generalizing demand with
  | zero => trivial
  | succ n ih =>
    have hsame : blocksOf (n + 1) (ledger ++ [a]) = blocksOf (n + 1) ledger := by
      have hnone : attemptsOf (n + 1) [a] = [] :=
        attemptsOf_eq_nil (List.forall_mem_singleton.2 (by omega))
      rw [blocksOf_append, blocksOf, blocksOf, hnone, List.filterMap_nil, List.append_nil]
    rw [Lazy, hsame]
    exact ⟨h.1, ih h.2 (by omega)⟩

/-- A block that is made while bytes are missing. -/
theorem make {block : ByteArray}
    (h : ∀ i < (blocksOf (n + 1) ledger).length,
      (concat ((blocksOf (n + 1) ledger).take i)).size < demand)
    (hmissing : (concat (blocksOf (n + 1) ledger)).size < demand) {i : Nat}
    (hi : i < (blocksOf (n + 1) ledger ++ [block]).length) :
    (concat ((blocksOf (n + 1) ledger ++ [block]).take i)).size < demand := by
  rw [List.length_append, List.length_singleton] at hi
  have hle : i ≤ (blocksOf (n + 1) ledger).length := by omega
  rw [List.take_append_of_le_length hle]
  rcases Nat.lt_or_eq_of_le hle with hlt | heq
  · exact h i hlt
  · rw [heq, List.take_length]
    exact hmissing

end Lazy

/-! ### What a session needs -/

namespace Accounts

variable {ρ : Type} {Src : Supply ρ} {settings : PassSettings} {credential : Credential}
  {readStart : Nat} {e : Encryptor} {attempts : List Attempt} {l : ρ} {w : World}

/-- What has been given to a session, and what it still asks for, are what it needs for its next
block. -/
theorem given_add_missing (h : Accounts Src settings credential readStart e attempts l w)
    (hfinished : e.stage ≠ .finished) :
    ∃ given ended, Src l w given ended ∧ (0 < e.missing →
      given.size + e.missing = demandFor (clampReadStart readStart) (attempts.length + 1)) := by
  cases h with
  | fresh he =>
    refine ⟨_, _, he.reader, fun _ => ?_⟩
    have htotal : demandFor (clampReadStart readStart) 1 = 1 + clampReadStart readStart := by
      rw [demandFor_succ, chunkTotal_succ, chunkTarget_zero]
      exact congrArg (1 + ·) (Nat.zero_add _)
    show 0 + (clampReadStart readStart + 1 - 0) = demandFor (clampReadStart readStart) 1
    omega
  | @made _ _ keys tag taken last _ _ hbehind hne hseals htarget htaken =>
    cases last with
    | true => exact absurd hbehind.stage hfinished
    | false =>
      have hbehind' : e.Between Src keys tag taken l w := hbehind
      -- The chunks so far were whole, and what the reader holds is the front of the next.
      refine ⟨_, _, hbehind'.reader, fun hmissing => ?_⟩
      rw [demandFor_succ, chunkTotal_succ, ByteArray.size_append, htaken rfl, ← htarget]
      unfold Encryptor.missing ChunkReader.missing at hmissing ⊢
      split at hmissing
      · exact absurd hmissing (Nat.lt_irrefl 0)
      next hended =>
        rw [if_neg hended]
        omega

/-- What a session needs for its blocks has been given to it, or its source has ended. -/
theorem met_of_made (h : Accounts Src settings credential readStart e attempts l w)
    (hne : attempts ≠ []) :
    ∃ given ended, Src l w given ended ∧ (ended = true ∨
      demandFor (clampReadStart readStart) attempts.length ≤ given.size) := by
  cases h with
  | fresh he => exact absurd rfl hne
  | @made _ _ keys tag taken last _ _ hbehind _ hseals htarget htaken =>
    cases last with
    | true => exact ⟨_, _, hbehind.reader, .inl rfl⟩
    | false =>
      have hbehind' : e.Between Src keys tag taken l w := hbehind
      refine ⟨_, _, hbehind'.reader, .inr ?_⟩
      -- The reader holds a byte of the next chunk, or it would not have gone on.
      have hbuffer : e.reader.buffer.size ≠ 0 := fun h =>
        hbehind'.buffer_ne (ByteArray.size_eq_zero_iff.1 h)
      obtain ⟨k, hk⟩ := Nat.exists_eq_add_one_of_ne_zero (mt List.length_eq_zero_iff.1 hne)
      rw [ByteArray.size_append, htaken rfl, hk, demandFor_succ]
      omega

end Accounts

/-- The steps that have sealed a pass have each made a block. -/
theorem SealsPass.isSome_block {settings : PassSettings} {credential : Credential} {cipher : Key}
    {attempts : List Attempt} (h : SealsPass settings credential cipher attempts) {a : Attempt}
    (ha : a ∈ attempts) : a.block.isSome = true := by
  rcases attempts with _ | ⟨first, rest⟩
  · exact absurd ha List.not_mem_nil
  rcases List.mem_cons.1 ha with rfl | ha
  · obtain ⟨_, _, _, _, _, _, -, -, -, -, -, -, hblock, -⟩ := h.1.sealed
    rw [hblock]
    rfl
  · obtain ⟨block, hblock, -⟩ := (h.2 a ha).sealed
    rw [hblock]
    rfl

/-- So many blocks are made as there are steps, if none fails. -/
theorem length_filterMap_block {attempts : List Attempt}
    (h : ∀ a ∈ attempts, a.block.isSome = true) :
    (attempts.filterMap Attempt.block).length = attempts.length := by
  induction attempts with
  | nil => rfl
  | cons a attempts ih =>
    obtain ⟨block, hblock⟩ := Option.isSome_iff_exists.1 (h a List.mem_cons_self)
    rw [List.filterMap_cons_some hblock, List.length_cons, List.length_cons,
      ih fun b hb => h b (List.mem_cons_of_mem a hb)]

/-! ### Nested passes -/

section nested

variable {plan : Plan} {credential : Credential} {n bound : Nat}

theorem Outlet.Accounted.length_blocks {o : Outlet EncryptedPass}
    {s : Logged Attempt (Layers EncryptedPass n)} (ho : o.Accounted plan credential n s)
    (w : World) :
    (blocksOf (n + 1) s.log).length = (attemptsOf (n + 1) s.log).length := by
  obtain ⟨cipher, hseals⟩ := (ho.2 w).sealsPass
  exact length_filterMap_block fun a ha => hseals.isSome_block ha

/-- The passes of which `demand` bytes are demanded have made no more bytes than that, but for those
that wait in the outlet, and `missing` bytes at least are still to come. -/
def Layers.Within (demand missing : Nat) :
    (n : Nat) → Logged Attempt (Layers EncryptedPass n) → Prop
  | 0, _ => True
  | n + 1, ⟨(o, _), ledger⟩ =>
    (concat (blocksOf (n + 1) ledger)).size + missing ≤ demand + o.pending.size

/-- Passes of which `demand` bytes are demanded, and `missing` of them have not been read. -/
structure Layers.Pulled (plan : Plan) (credential : Credential) (n demand missing : Nat)
    (s : Logged Attempt (Layers EncryptedPass n)) : Prop where
  accounted : Layers.Accounted plan credential n s
  lazy : Lazy (clampReadStart plan.readStart) n demand s.log
  within : 0 < missing → Layers.Within demand missing n s

/-- A session asks the passes inside it for what it needs for its next block. -/
theorem Outlet.Accounted.within {o : Outlet EncryptedPass}
    {s : Logged Attempt (Layers EncryptedPass n)} (ho : o.Accounted plan credential n s)
    (hfinished : EncryptedPass.engine.isFinished o.engine = false) (w : World)
    (hmissing : 0 < o.engine.encryptor.missing) :
    Layers.Within (demandFor (clampReadStart plan.readStart)
      ((blocksOf (n + 1) s.log).length + 1)) o.engine.encryptor.missing n s := by
  obtain ⟨given, ended, hhanded, hneeds⟩ :=
    (ho.2 w).given_add_missing (of_decide_eq_false hfinished)
  have hneed := hneeds hmissing
  rw [← ho.length_blocks w] at hneed
  generalize demandFor (clampReadStart plan.readStart)
    ((blocksOf (n + 1) s.log).length + 1) = demand at hneed ⊢
  cases n with
  | zero => trivial
  | succ n =>
    rcases s with ⟨⟨o', below⟩, ledger⟩
    have hsizes := hhanded.size_add
    show _ + _ ≤ _ + _
    omega

/-- **While bytes are missing** no pass makes a block too many.  The induction is on the number of
passes: a pass that makes its next block demands what that block needs from those inside it. -/
theorem Layers.follows_pulled (plan : Plan) (credential : Credential) (bound n demand : Nat) :
    (readLogged .ledger EncryptedPass.engine bound n).Follows
      (fun missing s _ => Layers.Pulled plan credential n demand missing s) fun _ _ => True := by
  induction n generalizing demand with
  | zero =>
    intro missing size s w _ _ h
    rw [run_readLogged_zero]
    cases (readItems size w.input).1 with
    | ok bytes => exact ⟨trivial, trivial, fun _ => trivial⟩
    | error e => trivial
  | succ n ih =>
    rintro missing size ⟨⟨o, below⟩, ledger⟩ w hmissing hsize h
    have hfills : Outlet.Fills Attempt.ofTurn EncryptedPass.engine (n + 1)
        (readLogged .ledger EncryptedPass.engine bound n)
        (fun o s _ => o.Accounted plan credential n s ∧ Layers.Accounted plan credential n s ∧
          Lazy (clampReadStart plan.readStart) (n + 1) demand s.log ∧
          (concat (blocksOf (n + 1) s.log)).size + missing ≤ demand + o.pending.size)
        fun _ _ _ => True := by
      refine ⟨?_, fun _ _ _ hs _ _ => hs, fun _ _ _ _ => trivial⟩
      rintro o s w ⟨ho, hbelow, hlazy, hwithin⟩ - hpending hfinished
      have hpulled : Layers.Pulled plan credential n (demandFor (clampReadStart plan.readStart)
          ((blocksOf (n + 1) s.log).length + 1)) o.engine.encryptor.missing s :=
        ⟨hbelow, hlazy.2.mono (demandFor_le_succ _ _), ho.within hfinished w⟩
      refine (ho.meets_step (ih _) hfinished hpulled).mono (fun bytes t s' w' h => ?_)
        fun _ _ _ _ _ => trivial
      rcases h with ⟨hnext, hattempts, w₁, hpulled', -, -⟩
      -- The outlet was empty, so bytes of the demand were missing when the block was made.
      have hsame : blocksOf (n + 1) s'.log = blocksOf (n + 1) s.log := by
        rw [blocksOf, hattempts, blocksOf]
      have hblocks := blocksOf_add s' (n + 1) t.2 bytes
      rw [hsame, ← Logged.put_gave] at hblocks
      have hsizes : o.pending.size = 0 := ByteArray.size_eq_zero_iff.2 hpending
      refine ⟨hnext, hpulled'.accounted.add (Nat.lt_succ_self n), ?_, ?_⟩
      · rw [Lazy, hblocks]
        refine ⟨fun i hi => Lazy.make hlazy.1 (by omega) hi, ?_⟩
        rw [List.length_append]
        exact hpulled'.lazy.above (Nat.lt_succ_self n)
      · rw [hblocks, concat_append, ByteArray.size_append, concat_cons, concat_nil,
          ByteArray.append_empty]
        show _ + bytes.size + missing ≤ demand + bytes.size
        omega
    have hread := run_readLogged hfills size o below ledger w
      ⟨h.accounted.1, h.accounted.2, h.lazy, h.within hmissing⟩
    generalize w.run (readLogged .ledger EncryptedPass.engine bound (n + 1) size _) = x at hread ⊢
    rcases x with ⟨⟨e | bytes, ⟨o', below'⟩, ledger'⟩, w'⟩
    · trivial
    rcases hread with ⟨pending, ⟨ho, hbelow, hlazy, hwithin⟩, -, rfl, hrest⟩
    -- What is handed out is not missing any more, and what stays in the outlet still is.
    refine ⟨⟨ho, hbelow⟩, hlazy, fun hmore => ?_⟩
    have hleft := congrArg ByteArray.size hrest
    rw [ByteArray.size_extract] at hleft
    dsimp only at hwithin hleft
    split at hmore
    · exact absurd hmore (Nat.lt_irrefl 0)
    next hne =>
      rw [if_neg hne, ByteArray.size_extract]
      rw [ByteArray.size_extract] at hmore
      show _ + _ ≤ _ + _
      omega

/-! ### Passes at rest -/

/-- Some of the blocks of a pass, from its first on: the fewest that have `demand` bytes, or all if
they have fewer. -/
structure LeastFor (demand : Nat) (all made : List ByteArray) : Prop where
  isPrefix : made <+: all
  fewer : ∀ i < made.length, (concat (made.take i)).size < demand
  enough : demand ≤ (concat made).size ∨ made = all

/-- What a session has needed for its blocks, the pass inside it has made, or has come to its
end. -/
theorem Outlet.Accounted.met {o : Outlet EncryptedPass}
    {s : Logged Attempt (Layers EncryptedPass (n + 1))}
    (ho : o.Accounted plan credential (n + 1) s) :
    demandFor (clampReadStart plan.readStart) (blocksOf (n + 1 + 1) s.log).length
        ≤ (concat (blocksOf (n + 1) s.log)).size ∨
      Layers.Finished EncryptedPass.engine (n + 1) (n + 1) s.state := by
  let w : World := { input := [] }
  rw [ho.length_blocks w]
  by_cases hnone : attemptsOf (n + 1 + 1) s.log = []
  · rw [hnone]
    exact .inl (Nat.zero_le _)
  obtain ⟨given, ended, hhanded, hmet⟩ := (ho.2 w).met_of_made hnone
  rcases s with ⟨⟨o', below⟩, ledger⟩
  rcases hmet with hended | hneeds
  · right
    rw [Layers.Finished, if_pos rfl]
    exact (hhanded.2.1 (hhanded.2.2 hended)).1
  · left
    have hsizes := hhanded.size_add
    dsimp only at hneeds ⊢
    omega

/-- **At rest** each pass has made the fewest blocks that meet what is demanded of it: `demand`
bytes of the outermost, and of each other what the pass around it has needed for its blocks. -/
theorem Layers.made_least {demand : Nat} {s : Logged Attempt (Layers EncryptedPass n)}
    {full : List Attempt} (hs : Layers.Accounted plan credential n s)
    (hlazy : Lazy (clampReadStart plan.readStart) n demand s.log) (hledger : s.log <+: full)
    (hfull : ∀ level ≤ n, Layers.Finished EncryptedPass.engine level n s.state →
      blocksOf level full = blocksOf level s.log)
    (htop : n ≠ 0 → demand ≤ (concat (blocksOf n s.log)).size ∨
      Layers.Finished EncryptedPass.engine n n s.state) {level : Nat} (hpos : 1 ≤ level)
    (hle : level ≤ n) :
    LeastFor (if level = n then demand else demandFor (clampReadStart plan.readStart)
      (blocksOf (level + 1) s.log).length) (blocksOf level full) (blocksOf level s.log) := by
  induction n generalizing demand with
  | zero => omega
  | succ n ih =>
    rcases s with ⟨⟨o, below⟩, ledger⟩
    -- The outermost pass has its demand from the reader, each other from the pass around it.
    by_cases hlevel : level = n + 1
    · subst hlevel
      rw [if_pos rfl]
      refine ⟨?_, hlazy.1, (htop (Nat.succ_ne_zero n)).imp_right fun hf => ?_⟩
      · obtain ⟨more, rfl⟩ := hledger
        rw [blocksOf_append]
        exact List.prefix_append _ _
      · exact (hfull (n + 1) (Nat.le_refl _) hf).symm
    have hle' : level ≤ n := by omega
    have hbelow := ih (s := ⟨below, ledger⟩) hs.2 hlazy.2 hledger (fun level hle hf => ?_)
      (fun hn => ?_) hle'
    · rw [if_neg hlevel]
      by_cases heq : level = n
      · subst heq
        rw [if_pos rfl] at hbelow
        exact hbelow
      · rw [if_neg heq] at hbelow
        exact hbelow
    · refine hfull level (by omega) ?_
      rw [Layers.Finished, if_neg (by omega)]
      exact hf
    · obtain ⟨m, rfl⟩ := Nat.exists_eq_add_one_of_ne_zero hn
      exact hs.1.met

end nested

end SealedStream
