import Mathlib.Algebra.BigOperators.Fin
import SealedStream.Proofs.Demand
import SealedStream.Proofs.Draws

/-!
# Encryption on demand

Encrypted bytes may be read in pieces of any size, and it makes no difference to the passes: an
outlet asks for its next block when it has none left, whatever is asked of it (`Pipeline.Drains`).
So reading all bytes one by one takes the passes through the same steps as reading them at once, and
after each byte they have made as many blocks as that byte and those before it need.

* `World.pulls_on_demand`: what has been read, sealed, asked and drawn after any number of bytes.
-/

namespace SealedStream

variable {ε : Type} {E : Engine ε} {bound : Nat}

/-! ### Reads of any size -/

/-- The same passes, with other bytes in the outlet. -/
def Logged.holding : Logged Attempt (Pipeline ε) → ByteArray → Logged Attempt (Pipeline ε)
  | ⟨⟨0, layers⟩, ledger⟩, _ => ⟨⟨0, layers⟩, ledger⟩
  | ⟨⟨n + 1, (o, below)⟩, ledger⟩, pending => ⟨⟨n + 1, ({ o with pending }, below)⟩, ledger⟩

/-- A read hands out the front of what its outlet has been filled with. -/
theorem Layers.run_readLogged_of_fill {n : Nat} {o o' : Outlet ε} {below below' : Layers ε n}
    {ledger ledger' : List Attempt} {w w' : World}
    (h : w.run (Outlet.fillLogged .ledger E (n + 1) (readLogged .ledger E bound n) bound o
      ⟨below, ledger⟩) = (((.ok ⟨⟩, o'), ⟨below', ledger'⟩), w')) (size : Nat) :
    w.run (readLogged .ledger E bound (n + 1) size ⟨(o, below), ledger⟩)
      = ((.ok (o'.pending.extract 0 size),
          ⟨({ o' with pending := o'.pending.extract size o'.pending.size }, below'), ledger'⟩),
          w') := by
  unfold readLogged Outlet.readLogged
  rw [World.run_bind, World.run_bind, h]
  rfl

theorem Layers.run_readLogged_of_fill_error {n : Nat} {o o' : Outlet ε}
    {below below' : Layers ε n} {ledger ledger' : List Attempt} {e : IoFault} {w w' : World}
    (h : w.run (Outlet.fillLogged .ledger E (n + 1) (readLogged .ledger E bound n) bound o
      ⟨below, ledger⟩) = (((.error e, o'), ⟨below', ledger'⟩), w')) (size : Nat) :
    w.run (readLogged .ledger E bound (n + 1) size ⟨(o, below), ledger⟩)
      = ((.error e, ⟨(o', below'), ledger'⟩), w') := by
  unfold readLogged Outlet.readLogged
  rw [World.run_bind, World.run_bind, h]
  rfl

namespace Pipeline

variable {s s' : Logged Attempt (Pipeline ε)} {w w' : World} {size : Nat}
  {bytes pending : ByteArray}

/-- What a read finds does not depend on its size. -/
theorem exists_filled (hdepth : s.state.depth ≠ 0)
    (h : w.run (readLogged .ledger E bound size s) = ((.ok bytes, s'), w')) :
    ∃ (filled : Logged Attempt (Pipeline ε)) (pending : ByteArray),
      filled.state.depth = s.state.depth ∧ ∀ m, w.run (readLogged .ledger E bound m s)
        = ((.ok (pending.extract 0 m), filled.holding (pending.extract m pending.size)), w') := by
  -- Only an outlet makes a difference between what it has and what it hands out.
  rcases s with ⟨⟨_ | n, layers⟩, ledger⟩
  · exact absurd rfl hdepth
  rcases layers with ⟨o, below⟩
  rcases hfill : w.run (Outlet.fillLogged .ledger E (n + 1) (Layers.readLogged .ledger E bound n)
    bound o ⟨below, ledger⟩) with ⟨⟨⟨e | ⟨⟩, o'⟩, below', ledger'⟩, w''⟩
  · have hread := run_readLogged (s := ⟨⟨n + 1, (o, below)⟩, ledger⟩)
      (Layers.run_readLogged_of_fill_error hfill size)
    rw [hread] at h
    cases h
  · have hread := fun m => run_readLogged (s := ⟨⟨n + 1, (o, below)⟩, ledger⟩)
      (Layers.run_readLogged_of_fill hfill m)
    rw [hread size] at h
    cases h
    exact ⟨⟨⟨n + 1, (o', below')⟩, ledger'⟩, o'.pending, rfl, hread⟩

/-- An outlet with bytes hands them out, and nothing else happens. -/
theorem run_readLogged_holding (hbound : 0 < bound) (hdepth : s.state.depth ≠ 0)
    (hne : pending ≠ .empty) (m : Nat) (w : World) :
    w.run (readLogged .ledger E bound m (s.holding pending))
      = ((.ok (pending.extract 0 m), s.holding (pending.extract m pending.size)), w) := by
  rcases s with ⟨⟨_ | n, layers⟩, ledger⟩
  · exact absurd rfl hdepth
  rcases layers with ⟨o, below⟩
  obtain ⟨b, hb⟩ := Nat.exists_eq_add_one_of_ne_zero (Nat.ne_of_gt hbound)
  have hready : (o.ended || !pending.isEmpty) = true := by
    rw [Bool.or_eq_true, Bool.not_eq_true', ← Bool.not_eq_true, isEmpty_iff]
    exact .inr hne
  have hfill : w.run (Outlet.fillLogged .ledger E (n + 1) (Layers.readLogged .ledger E bound n)
      bound { o with pending } ⟨below, ledger⟩)
        = (((.ok ⟨⟩, { o with pending }), ⟨below, ledger⟩), w) := by
    conv => lhs; arg 1; arg 5; rw [hb]
    rw [Outlet.fillLogged, if_pos hready]
    rfl
  exact run_readLogged (s := ⟨⟨n + 1, ({ o with pending }, below)⟩, ledger⟩)
    (Layers.run_readLogged_of_fill hfill m)

theorem depth_holding (s : Logged Attempt (Pipeline ε)) (pending : ByteArray) :
    (s.holding pending).state.depth = s.state.depth := by
  rcases s with ⟨⟨_ | n, layers⟩, ledger⟩
  · rfl
  · rfl

/-- The first of the bytes that are left may be read alone. -/
theorem Drains.first {rest : ByteArray} (h : Drains .ledger E bound s w rest s' w')
    (hbound : 0 < bound) (hdepth : s.state.depth ≠ 0) (hne : rest ≠ .empty) :
    ∃ s₁ w₁, w.run (readLogged .ledger E bound 1 s) = ((.ok (rest.extract 0 1), s₁), w₁) ∧
      s₁.state.depth = s.state.depth ∧
      Drains .ledger E bound s₁ w₁ (rest.extract 1 rest.size) s' w' := by
  cases h with
  | done => exact absurd rfl hne
  | @piece size bytes rest _ s₁ _ _ w₁ _ hsize hread hbytes hrest =>
    obtain ⟨filled, pending, hfilled, hall⟩ := exists_filled hdepth hread
    have hsame := (hall size).symm.trans hread
    cases hsame
    -- The first byte, those after it in this piece, and those behind the piece.
    have hone : 1 ≤ (pending.extract 0 size).size := by
      have := mt ByteArray.size_eq_zero_iff.1 hbytes
      omega
    obtain ⟨first, more, hpiece, hfirst⟩ := exists_eq_append_of_le hone
    have hpending : pending = first ++ (more ++ pending.extract size pending.size) := by
      rw [← ByteArray.append_assoc, ← hpiece, ByteArray.extract_append_extract, Nat.zero_min,
        ByteArray.extract_zero_max_size]
    generalize pending.extract size pending.size = held at hpending hrest hread
    have hfront : pending.extract 0 1 = first := by
      rw [hpending]
      exact extract_append_left hfirst
    have hback : pending.extract 1 pending.size = more ++ held := by
      rw [hpending]
      exact extract_append_right hfirst rfl
    have hrow : pending.extract 0 size ++ rest = first ++ (more ++ rest) := by
      rw [hpiece, ByteArray.append_assoc]
    refine ⟨filled.holding (more ++ held), w₁, ?_, (depth_holding _ _).trans hfilled, ?_⟩
    · rw [hall 1, hfront, hback, hrow, extract_append_left hfirst]
    · rw [hrow, extract_append_right hfirst rfl]
      by_cases hmore : more = .empty
      · rw [hmore, ByteArray.empty_append, ByteArray.empty_append]
        exact hrest
      · have hne : more ++ held ≠ .empty := fun h =>
          hmore (ByteArray.append_eq_empty_iff.1 h).1
        have hnext := run_readLogged_holding (E := E) hbound (hfilled ▸ hdepth) hne more.size w₁
        rw [extract_append_left rfl, extract_append_right rfl rfl] at hnext
        have hpos : 0 < more.size := Nat.pos_of_ne_zero (mt ByteArray.size_eq_zero_iff.1 hmore)
        exact .piece hpos hnext hmore hrest

/-- **All bytes may be read one by one.**  A property that each such read keeps is kept by any
number of them. -/
theorem Drains.readEach {P : Nat → Logged Attempt (Pipeline ε) → World → Prop}
    (hP : ∀ ⦃i s w bytes s' w'⦄, P i s w →
      w.run (readLogged .ledger E bound 1 s) = ((.ok bytes, s'), w') → bytes.size = 1 →
      P (i + 1) s' w')
    {rest : ByteArray} (h : Drains .ledger E bound s w rest s' w') (hbound : 0 < bound)
    (hdepth : s.state.depth ≠ 0) {i : Nat} (hi : P i s w) {t : Nat} (ht : t ≤ rest.size) :
    ∃ s₁ w₁, w.run (readEachLogged .ledger E bound (List.replicate t 1) s)
        = (((List.range t).map fun i => .ok (rest.extract i (i + 1)), s₁), w₁) ∧
      s₁.state.depth = s.state.depth ∧
      Drains .ledger E bound s₁ w₁ (rest.extract t rest.size) s' w' ∧ P (i + t) s₁ w₁ := by
  induction t generalizing s w rest i with
  | zero =>
    refine ⟨s, w, rfl, rfl, ?_, hi⟩
    rw [ByteArray.extract_zero_size]
    exact h
  | succ t ih =>
    have hne : rest ≠ .empty := by
      rintro rfl
      exact absurd ht (Nat.not_succ_le_zero t)
    obtain ⟨s₁, w₁, hread, hdepth₁, hrest⟩ := h.first hbound hdepth hne
    have hone : (rest.extract 0 1).size = 1 := by
      rw [ByteArray.size_extract]
      omega
    have hleft : t ≤ (rest.extract 1 rest.size).size := by
      rw [ByteArray.size_extract]
      omega
    obtain ⟨s₂, w₂, hreads, hdepth₂, hrest₂, hP₂⟩ :=
      ih hrest (hdepth₁ ▸ hdepth) (hP hi hread hone) hleft
    refine ⟨s₂, w₂, ?_, hdepth₂.trans hdepth₁, ?_, ?_⟩
    · have hrow : (List.range (t + 1)).map (fun i => .ok (rest.extract i (i + 1)))
          = (.ok (rest.extract 0 1) : Except IoFault ByteArray) :: (List.range t).map fun i =>
            .ok ((rest.extract 1 rest.size).extract i (i + 1)) := by
        rw [List.range_succ_eq_map, List.map_cons, List.map_map]
        refine congrArg _ (List.map_congr_left fun i hi => ?_)
        have hlt := List.mem_range.1 hi
        rw [ByteArray.extract_extract, Function.comp_apply, Nat.min_eq_left (by omega)]
        rw [Nat.add_comm 1 i, Nat.add_comm 1 (i + 1)]
      rw [hrow]
      exact run_readEachLogged_cons hread hreads
    · have hsize : (rest.extract 1 rest.size).size = rest.size - 1 := by
        rw [ByteArray.size_extract, Nat.min_self]
      rw [ByteArray.extract_extract, hsize, Nat.min_eq_left (by omega), Nat.add_comm 1 t,
        Nat.add_sub_cancel' (by omega)] at hrest₂
      exact hrest₂
    · rw [Nat.add_right_comm, Nat.add_assoc] at hP₂
      exact hP₂

/-! ### What reads keep -/

/-- **What is read later** is in the ledger behind what was there, and a session that had finished
makes no more blocks. -/
theorem Drains.goesOn {rest : ByteArray} (h : Drains .ledger E bound s w rest s' w') :
    s.log <+: s'.log ∧ ∀ level, Layers.Finished E level s.state.depth s.state.layers →
      blocksOf level s'.log = blocksOf level s.log := by
  constructor
  · have hgrows : GoesOn (Attempt.UpTo s'.state.depth) s.log s'.layers.log :=
      h.keeps (fun n _ _ _ _ _ _ hl hread =>
        (Layers.grows_ledger E bound n s.log).of_run hl hread) (.refl _ _)
    exact hgrows.isPrefix
  · intro level hfinished
    have hkept : Layers.Finished E level s'.state.depth s'.layers.state ∧
        blocksOf level s'.layers.log = blocksOf level s.log :=
      h.keeps (fun n _ _ _ _ _ _ hl hread =>
        (Layers.keeps_finished E bound n level _).of_run hl hread) ⟨hfinished, rfl⟩
    exact hkept.2

/-- What has been handed out at the end. -/
theorem Drains.handed {rest given : ByteArray} (h : Drains .ledger E bound s w rest s' w')
    (hs : Layers.Handed E s.state.depth s.layers w given false) :
    Layers.Handed E s'.state.depth s'.layers w' (given ++ rest) true := by
  induction h generalizing given with
  | done hsize hread =>
    obtain ⟨l, hlayers, rfl⟩ := exists_run_layers hread
    have hgives := Layers.supplies_handed E bound _ hsize hs
    unfold Source.Gives at hgives
    rw [hlayers] at hgives
    exact hgives
  | piece hsize hread hne _ ih =>
    obtain ⟨l, hlayers, rfl⟩ := exists_run_layers hread
    have hgives := Layers.supplies_handed E bound _ hsize hs
    unfold Source.Gives at hgives
    rw [hlayers] at hgives
    dsimp only at hgives
    rw [Bool.eq_false_iff.2 (mt isEmpty_iff.1 hne)] at hgives
    rw [← ByteArray.append_assoc]
    exact ih hgives

end Pipeline

/-! ### One byte after another -/

section pulls

variable {plan : Plan} {credential : Credential} {n t : Nat} {w₀ w w' : World}

/-- Passes of which `t` bytes have been read, one by one. -/
structure Layers.ReadOneByOne (plan : Plan) (credential : Credential) (w₀ : World) (n t : Nat)
    (s : Logged Attempt (Layers EncryptedPass n)) (w : World) : Prop where
  clean : Layers.Clean plan credential w₀ n s w
  lazy : Lazy (clampReadStart plan.readStart) n t s.log
  handed : ∃ given, given.size = t ∧ Layers.Handed EncryptedPass.engine n s w given false

namespace Layers.ReadOneByOne

/-- What has been handed out is no more than has been made. -/
theorem le_size {s : Logged Attempt (Layers EncryptedPass n)}
    (h : Layers.ReadOneByOne plan credential w₀ n t s w) (hn : n ≠ 0) :
    t ≤ (concat (blocksOf n s.log)).size := by
  obtain ⟨given, hgiven, hhanded⟩ := h.handed
  obtain ⟨m, rfl⟩ := Nat.exists_eq_add_one_of_ne_zero hn
  rcases s with ⟨⟨o, below⟩, ledger⟩
  have hsizes := hhanded.size_add
  dsimp only
  omega

/-- **The next byte** is a demand for one byte more. -/
theorem read {s s' : Logged Attempt (Layers EncryptedPass n)} {bytes : ByteArray}
    (h : Layers.ReadOneByOne plan credential w₀ n t s w)
    (hread : w.run (readLogged .ledger EncryptedPass.engine bound n 1 s) = ((.ok bytes, s'), w'))
    (hone : bytes.size = 1) : Layers.ReadOneByOne plan credential w₀ n (t + 1) s' w' := by
  obtain ⟨given, hgiven, hhanded⟩ := h.handed
  have hne : bytes.isEmpty = false := by
    refine Bool.eq_false_iff.2 (mt isEmpty_iff.1 ?_)
    rintro rfl
    exact absurd hone (by decide)
  have hwithin : Layers.Within (t + 1) 1 n s := by
    cases n with
    | zero => trivial
    | succ n =>
      rcases s with ⟨⟨o, below⟩, ledger⟩
      have hsizes := hhanded.size_add
      show _ + _ ≤ _ + _
      omega
  have hpulled := follows_pulled plan credential bound n (t + 1) Nat.one_pos Nat.one_pos (w := w)
    ⟨h.clean.accounted, h.lazy.mono (Nat.le_succ t), fun _ => hwithin⟩
  have hclean := run_readLogged_clean bound h.clean 1
  have hgives := supplies_handed EncryptedPass.engine bound n Nat.one_pos hhanded
  unfold Source.Gives at hgives
  rw [hread] at hpulled hclean hgives
  dsimp only at hgives
  rw [hne] at hgives
  refine ⟨hclean, hpulled.lazy, given ++ bytes, ?_, hgives⟩
  rw [ByteArray.size_append, hgiven, hone]

end Layers.ReadOneByOne

/-! ### What has been asked and drawn -/

/-- The random bytes that are drawn for the first `k` blocks of a pass. -/
def PassSettings.drawTotal (settings : PassSettings) : (k : Nat) → Nat
  | 0 => 0
  | k + 1 => Limits.headRandomBytes + k * settings.algorithm.ivBytes

theorem size_drawnIn_of_size {ledger : List Attempt} {size : Nat}
    (h : ∀ a ∈ ledger, a.random.size = size) : (drawnIn ledger).size = ledger.length * size := by
  induction ledger with
  | nil => exact (Nat.zero_mul size).symm
  | cons a ledger ih =>
    have hrest := ih fun b hb => h b (List.mem_cons_of_mem a hb)
    rw [drawnIn_cons, ByteArray.size_append, h a List.mem_cons_self, hrest, List.length_cons,
      Nat.succ_mul, Nat.add_comm]

/-- What has been drawn for the blocks of a pass. -/
theorem SealsPass.size_drawnIn {settings : PassSettings} {cipher : Key} {attempts : List Attempt}
    (h : SealsPass settings credential cipher attempts) :
    (drawnIn attempts).size = settings.drawTotal attempts.length := by
  rcases attempts with _ | ⟨first, rest⟩
  · rfl
  · have hrest := size_drawnIn_of_size fun a ha => (h.2 a ha).size
    rw [drawnIn_cons, ByteArray.size_append, h.1.size, hrest]
    rfl

/-- A pass asks one question, for its head. -/
theorem SealsPass.askedIn_eq {settings : PassSettings} {cipher : Key} {attempts : List Attempt}
    (h : SealsPass settings credential cipher attempts) (hne : attempts ≠ []) :
    ∃ salt iv, askedIn attempts = [settings.question salt iv] := by
  rcases attempts with _ | ⟨first, rest⟩
  · exact absurd rfl hne
  · obtain ⟨salt, iv, _, _, _, _, -, -, hasked, -⟩ := h.1.sealed
    have hrest : rest.flatMap Attempt.asked = [] :=
      List.flatMap_eq_nil_iff.2 fun a ha => (h.2 a ha).asked
    refine ⟨salt, iv, ?_⟩
    rw [askedIn, List.flatMap_cons, hasked, hrest, List.append_nil]

/-- What has been drawn, pass by pass. -/
theorem size_drawnIn_eq_sum {ledger : List Attempt} (h : ∀ a ∈ ledger, ∃ i < n, a.level = i + 1) :
    (drawnIn ledger).size = ∑ i : Fin n, (drawnIn (attemptsOf (i + 1) ledger)).size := by
  induction ledger with
  | nil =>
    have hnone : ∀ i : Fin n, (drawnIn (attemptsOf (i + 1) [])).size = 0 := fun _ => rfl
    simp only [hnone, Finset.sum_const_zero]
    rfl
  | cons a ledger ih =>
    obtain ⟨j, hj, hlevel⟩ := h a List.mem_cons_self
    -- The first step counts for its own pass, and for no other.
    have hone : ∀ i : Fin n, (drawnIn (attemptsOf (i + 1) (a :: ledger))).size
        = (if i = ⟨j, hj⟩ then a.random.size else 0)
          + (drawnIn (attemptsOf (i + 1) ledger)).size := by
      intro i
      by_cases hi : i = ⟨j, hj⟩
      · have hat : attemptsOf (i + 1) (a :: ledger) = a :: attemptsOf (i + 1) ledger :=
          List.filter_cons_of_pos (by simp [hlevel, hi])
        rw [if_pos hi, hat, drawnIn_cons, ByteArray.size_append]
      · have hne : ¬ j = i := fun h => hi (Fin.ext h.symm)
        have hat : attemptsOf (i + 1) (a :: ledger) = attemptsOf (i + 1) ledger :=
          List.filter_cons_of_neg (by simp [hlevel, hne])
        rw [if_neg hi, hat, Nat.zero_add]
    have hrest := ih fun b hb => h b (List.mem_cons_of_mem a hb)
    simp only [hone, Finset.sum_add_distrib, Finset.sum_ite_eq', Finset.mem_univ, if_true]
    rw [drawnIn_cons, ByteArray.size_append, hrest]

/-! ### Any number of bytes -/

/-- **What has happened** when `t` encrypted bytes have been read, one by one, and the ledger of the
run up to its end is `full`. -/
structure OnDemand (plan : Plan) (w : World) (full : List Attempt) (t : Nat)
    (ledger : List Attempt) (w' : World) : Prop where
  isPrefix : ledger <+: full
  levels : ∀ a ∈ ledger, ∃ i < plan.count, a.level = i + 1
  outermost : LeastFor t (blocksOf plan.count full) (blocksOf plan.count ledger)
  /-- Each pass has what those blocks need that the pass around it has made, and no block more. -/
  inner : ∀ level, 1 ≤ level → level < plan.count →
    LeastFor (demandFor plan.readStart (blocksOf (level + 1) ledger).length)
      (blocksOf level full) (blocksOf level ledger)
  asked : w'.asked = w.asked ++ askedIn ledger
  /-- A pass has asked for its password if it has made a block. -/
  questions : ∀ i : Fin plan.count,
    if blocksOf (i + 1) ledger = [] then askedIn (attemptsOf (i + 1) ledger) = []
    else ∃ salt iv, askedIn (attemptsOf (i + 1) ledger) = [(plan.pass i).question salt iv]
  drawn : w'.drawn
    = w.drawn + ∑ i : Fin plan.count, (plan.pass i).drawTotal (blocksOf (i + 1) ledger).length
  /-- Nothing happens before the first read. -/
  untouched : t = 0 → ledger = [] ∧ w' = w

theorem Plan.clampReadStart_eq (plan : Plan) : clampReadStart plan.readStart = plan.readStart := by
  have := plan.readStart_mem
  unfold clampReadStart
  omega

/-- What has been asked and drawn when passes have been read one by one. -/
theorem Layers.Clean.asked_and_drawn {s : Logged Attempt (Layers EncryptedPass plan.count)}
    (h : Layers.Clean plan credential w plan.count s w') :
    (∀ i : Fin plan.count,
      if blocksOf (i + 1) s.log = [] then askedIn (attemptsOf (i + 1) s.log) = []
      else ∃ salt iv,
        askedIn (attemptsOf (i + 1) s.log) = [(plan.pass i).question salt iv]) ∧
    (drawnIn s.log).size
      = ∑ i : Fin plan.count, (plan.pass i).drawTotal (blocksOf (i + 1) s.log).length := by
  have hlength : ∀ level, (blocksOf level s.log).length = (attemptsOf level s.log).length :=
    fun level => length_filterMap_block fun a ha =>
      h.drawn.hasBlock a (List.mem_of_mem_filter ha)
  have hseals : ∀ i : Fin plan.count, ∃ cipher,
      SealsPass (plan.pass i) credential cipher (attemptsOf (i + 1) s.log) := by
    intro i
    obtain ⟨settings, cipher, hpass, hseals⟩ := h.accounted.passesSealed w i i.isLt
    have hi : (i : Nat) < plan.passes.length := by
      rw [plan.length_passes]
      exact i.isLt
    rw [List.getElem?_eq_getElem hi, plan.passes_getElem hi] at hpass
    cases hpass
    exact ⟨cipher, hseals⟩
  constructor
  · intro i
    obtain ⟨cipher, hseals⟩ := hseals i
    have hnone : blocksOf (i + 1) s.log = [] ↔ attemptsOf (i + 1) s.log = [] := by
      rw [← List.length_eq_zero_iff, hlength, List.length_eq_zero_iff]
    split
    next hempty =>
      rw [hnone.1 hempty]
      rfl
    next hne => exact hseals.askedIn_eq (mt hnone.2 hne)
  · have hsum := size_drawnIn_eq_sum fun a ha => h.drawn.levels a (List.mem_append_left _ ha)
    rw [hsum]
    refine Finset.sum_congr rfl fun i _ => ?_
    obtain ⟨cipher, hseals⟩ := hseals i
    rw [hseals.size_drawnIn, hlength]

/-- **Passes that have been read one by one** have done what was demanded of them. -/
theorem Layers.ReadOneByOne.onDemand {s : Logged Attempt (Layers EncryptedPass n)}
    {full : List Attempt} (h : Layers.ReadOneByOne plan credential w n t s w')
    (hn : n = plan.count) (hledger : s.log <+: full)
    (hfull : ∀ level, Layers.Finished EncryptedPass.engine level n s.state →
      blocksOf level full = blocksOf level s.log)
    (hstart : t = 0 → s.log = [] ∧ w' = w) : OnDemand plan w full t s.log w' := by
  subst hn
  have hleast := fun level (hpos : 1 ≤ level) (hle : level ≤ plan.count) =>
    Layers.made_least h.clean.accounted h.lazy hledger (fun level _ => hfull level)
      (fun hn => .inl (h.le_size hn)) hpos hle
  obtain ⟨hquestions, hdrawn⟩ := h.clean.asked_and_drawn
  have hsince := h.clean.drawn.since
  rw [List.append_nil] at hsince
  refine ⟨hledger, fun a ha => h.clean.drawn.levels a (List.mem_append_left _ ha), ?_, ?_,
    hsince.asked, hquestions, ?_, hstart⟩
  · have htop := hleast plan.count plan.length_mem.1 (Nat.le_refl _)
    rw [if_pos rfl] at htop
    exact htop
  · intro level hpos hlt
    have hinner := hleast level hpos (Nat.le_of_lt hlt)
    rw [if_neg (Nat.ne_of_lt hlt), plan.clampReadStart_eq] at hinner
    exact hinner
  · rw [hsince.drawn, hdrawn]

/-- **A pipeline is read one by one** as far as there are bytes. -/
theorem Pipeline.Drains.exists_oneByOne {rest : ByteArray}
    {s s' : Logged Attempt (Pipeline EncryptedPass)}
    (h : Drains .ledger EncryptedPass.engine bound s w rest s' w') (hbound : 0 < bound)
    (hdepth : s.state.depth ≠ 0)
    (hs : Layers.ReadOneByOne plan credential w₀ s.state.depth 0 s.layers w)
    (ht : t ≤ rest.size) :
    ∃ s₁ w₁, w.run (readEachLogged .ledger EncryptedPass.engine bound (List.replicate t 1) s)
        = (((List.range t).map fun i => .ok (rest.extract i (i + 1)), s₁), w₁) ∧
      s₁.state.depth = s.state.depth ∧
      Drains .ledger EncryptedPass.engine bound s₁ w₁ (rest.extract t rest.size) s' w' ∧
      Layers.ReadOneByOne plan credential w₀ s₁.state.depth t s₁.layers w₁ := by
  let P (i : Nat) (s : Logged Attempt (Pipeline EncryptedPass)) (w : World) : Prop :=
    Layers.ReadOneByOne plan credential w₀ s.state.depth i s.layers w
  have hP : ∀ ⦃i s w bytes s' w'⦄, P i s w →
      w.run (readLogged .ledger EncryptedPass.engine bound 1 s) = ((.ok bytes, s'), w') →
      bytes.size = 1 → P (i + 1) s' w' := by
    intro i s w bytes s' w' hi hread hone
    obtain ⟨l, hlayers, rfl⟩ := exists_run_layers hread
    exact hi.read hlayers hone
  obtain ⟨s₁, w₁, hreads, hsame, hleft, hdone⟩ := h.readEach hP hbound hdepth hs ht
  rw [Nat.zero_add] at hdone
  exact ⟨s₁, w₁, hreads, hsame, hleft, hdone⟩

end pulls

/-- **Encryption is driven by reads**: all bytes may be read one by one, and after any number of
them no pass has made a block, asked a question or drawn a byte that they do not need. -/
theorem World.pulls_on_demand {plan : Plan} {credential : Credential} {w w' : World}
    {cipher : ByteArray} (h : w.encrypt plan credential = (.ok cipher, w')) :
    ∃ full, w.encryptLedgered plan credential = ((.ok cipher, full), w') ∧
      concat (blocksOf plan.count full) = cipher ∧
      ∀ t ≤ cipher.size, ∃ ledger v,
        let results := (List.range t).map fun i => .ok (cipher.extract i (i + 1))
        w.encryptReads plan credential (List.replicate t 1) = (results, v) ∧
        w.encryptReadsLedgered plan credential (List.replicate t 1) = ((results, ledger), v) ∧
        OnDemand plan w full t ledger v := by
  obtain ⟨hcount, haccounted, hhanded⟩ := plan.accounted_pipeline credential
  have hdepth : (plan.pipeline credential).depth ≠ 0 := plan.depth_pipeline credential
  have hbound : 0 < plan.outputBound w.inputBound :=
    Nat.lt_of_lt_of_le Nat.two_pos (plan.le_outputBound _)
  -- The run has read everything in pieces; the same steps are met by other reads.
  obtain ⟨s', hledgered, hdrains⟩ := exists_drains_of_encrypt h
  refine ⟨s'.log, hledgered, ?_, fun t ht => ?_⟩
  · have hend := hdrains.handed (hhanded w)
    have hall : concat (blocksOf s'.state.depth s'.log) = .empty ++ cipher :=
      hend.eq_concat fun hzero => hdepth (hdrains.depth_eq.symm.trans hzero)
    rw [hdrains.depth_eq, hcount, ByteArray.empty_append] at hall
    exact hall
  · have hstart : Layers.ReadOneByOne plan credential w (plan.pipeline credential).depth 0
        ⟨(plan.pipeline credential).layers, []⟩ w :=
      ⟨⟨haccounted, .start w⟩, .nil _ _ _, .empty, rfl, hhanded w⟩
    obtain ⟨s, v, hreads, hsame, hleft, hdone⟩ :=
      hdrains.exists_oneByOne hbound hdepth hstart ht
    have hledger : w.encryptReadsLedgered plan credential (List.replicate t 1)
        = (((List.range t).map fun i => .ok (cipher.extract i (i + 1)), s.log), v) := by
      rw [encryptReadsLedgered, hreads]
    refine ⟨s.log, v, ?_, hledger,
      hdone.onDemand (hsame.trans hcount) hleft.goesOn.1 hleft.goesOn.2 ?_⟩
    · rw [encryptReads_eq, hledger]
    · rintro rfl
      have hnone : ((([] : List (Except IoFault ByteArray)),
          (⟨plan.pipeline credential, []⟩ : Logged Attempt (Pipeline EncryptedPass))), w)
            = (([], s), v) := hreads
      cases hnone
      exact ⟨rfl, rfl⟩

/-- What encryption makes has a header at least. -/
theorem EncryptedThrough.headerBytes_le {plan : Plan} {credential : Credential}
    {provider : List PassInfo → Except Fault Answer} {asked before : List PassInfo}
    {clear cipher : ByteArray} {n : Nat}
    (h : EncryptedThrough plan credential provider asked clear n before cipher) (hn : n ≠ 0) :
    Limits.headerBytes ≤ cipher.size := by
  cases h with
  | input => exact absurd rfl hn
  | pass =>
    rw [FramedPass.toByteArray, ByteArray.size_append, WireBlock.size_toByteArray]
    omega

/-- The first byte of three bytes, encrypted in two passes. -/
theorem World.pulls_on_demand_threeBytes :
    ∃ (cipher : ByteArray) (w' v : World) (full ledger : List Attempt),
      let plan : Plan :=
        ⟨[.aegis256, .aesGcm], Limits.iterationsDefault, 1, by decide, by decide, by decide⟩
      let w : World :=
        { input := [.data (ofList [1, 2, 3])], provider := fun _ => .ok ⟨"secret", some "usual"⟩ }
      w.encrypt plan ⟨.zeros 32⟩ = (.ok cipher, w') ∧ 1 ≤ cipher.size ∧
        w.encryptReads plan ⟨.zeros 32⟩ [1] = ([.ok (cipher.extract 0 1)], v) ∧
        OnDemand plan w full 1 ledger v ∧ blocksOf 2 ledger ≠ [] := by
  let plan : Plan :=
    ⟨[.aegis256, .aesGcm], Limits.iterationsDefault, 1, by decide, by decide, by decide⟩
  let w : World :=
    { input := [.data (ofList [1, 2, 3])], provider := fun _ => .ok ⟨"secret", some "usual"⟩ }
  have hw : w.InPieces := by decide
  have hanswers : ∀ before info, Usable (w.provider (before ++ [info])) :=
    fun _ _ => ⟨_, rfl, by decide, by decide⟩
  obtain ⟨cipher, w', hrun, hthrough⟩ := exists_encrypt_eq plan ⟨.zeros 32⟩ hw hanswers
  have hsize : 1 ≤ cipher.size :=
    Nat.le_trans (by decide) (hthrough.headerBytes_le (by decide))
  obtain ⟨full, -, hfull, hpulls⟩ := pulls_on_demand hrun
  obtain ⟨ledger, v, hreads, -, hdemand⟩ := hpulls 1 hsize
  refine ⟨cipher, w', v, full, ledger, hrun, hsize, hreads, hdemand, fun hnone => ?_⟩
  have hmade : (concat (blocksOf plan.count ledger)).size = 0 := by
    rw [show blocksOf plan.count ledger = [] from hnone]
    rfl
  rcases hdemand.outermost.enough with hmet | hall
  · omega
  · rw [hall, hfull] at hmade
    omega

end SealedStream
