import SealedStream.Proofs.Bytes
import SealedStream.Proofs.Step

/-!
# What sources supply

A source is described by an invariant of what it has given so far: `Supplies read Src bad` says that
every read from a state with `Src` gives more bytes and leads to such a state again, or fails with a
fault in `bad`.  The invariant sees all bytes given since the start, and whether the last read found
the end; how the bytes were cut into pieces it does not see.  Drawing random bytes and stretching
keys must not disturb it (`Stable`).

* `supplies_host`: the input of a world supplies its bytes.
-/

namespace SealedStream

variable {ρ : Type}

/-- What is known of a source: its state and the world, the bytes given so far, and whether the last
read found the end. -/
abbrev Supply (ρ : Type) := ρ → World → ByteArray → Bool → Prop

/-- A source is somewhere: it has given some bytes. -/
def Held (Src : Supply ρ) (l : ρ) (w : World) : Prop :=
  ∃ given ended, Src l w given ended

/-- What a read may end with: more bytes, none at the end, or a fault. -/
def Source.Gives (Src : Supply ρ) (bad : Fault → Prop) (given : ByteArray) :
    (Except IoFault ByteArray × ρ) × World → Prop
  | ((.ok bytes, l), w) => Src l w (given ++ bytes) bytes.isEmpty
  | ((.error e, _), _) => bad (.ofIoFault e)

/-- Reads keep the invariant of a source until they find its end. -/
def Supplies (read : Source ρ) (Src : Supply ρ) (bad : Fault → Prop) : Prop :=
  ∀ ⦃n l w given⦄, 0 < n → Src l w given false →
    Source.Gives Src bad given (w.run (read n l))

/-- A property of the world that no read changes may be added to an invariant. -/
theorem Supplies.and {read : Source ρ} {Src : Supply ρ} {bad : Fault → Prop} {Q : World → Prop}
    (hs : Supplies read Src bad) (hQ : ∀ n l w, Q w → Q (w.run (read n l)).2) :
    Supplies read (fun l w given ended => Src l w given ended ∧ Q w) bad := by
  intro n l w given hn h
  have hg := hs hn h.1
  have hq := hQ n l w h.2
  generalize w.run (read n l) = x at hg hq
  obtain ⟨⟨bytes | e, l⟩, w⟩ := x
  · exact hg
  · exact ⟨hg, hq⟩

/-- Nothing needs to be known of a source. -/
def anySupply : Supply ρ :=
  fun _ _ _ _ => True

theorem supplies_any (read : Source ρ) : Supplies read anySupply fun _ => True := by
  intro n l w given _ _
  unfold Source.Gives
  split
  · trivial
  · trivial

/-! ### Worlds that differ little -/

/-- Worlds that differ in no more than how many random bytes have been drawn, and which keys are
remembered. -/
structure World.Alike (w w' : World) : Prop where
  input : w'.input = w.input
  tape : w'.tape = w.tape
  provider : w'.provider = w.provider
  asked : w'.asked = w.asked

namespace World

theorem alike_draw (w : World) (n : Nat) : w.Alike { w with drawn := w.drawn + n } :=
  ⟨rfl, rfl, rfl, rfl⟩

theorem alike_derive (w : World) (keys : KeyCache) : w.Alike { w with keys } :=
  ⟨rfl, rfl, rfl, rfl⟩

end World

/-- An invariant that drawing random bytes and stretching keys do not disturb. -/
def Stable (Src : Supply ρ) : Prop :=
  ∀ ⦃l w w' given ended⦄, w.Alike w' → Src l w given ended → Src l w' given ended

/-- An invariant of a source that looks at nothing of the world but its input. -/
def InputOnly (Src : Supply ρ) : Prop :=
  ∀ ⦃l w given ended⦄, Src l w given ended → ∀ w' : World, w'.input = w.input →
    Src l w' given ended

/-- A source whose bytes, all together, are `all`. -/
def Total (all : ByteArray) (Src : Supply ρ) : Prop :=
  ∀ ⦃l w given ended⦄, Src l w given ended →
    ∃ rest, all = given ++ rest ∧ (ended = true → rest = .empty)

/-- Asking for a password leads from one invariant to another, with a reply of which `R` holds. -/
def Asks (Src : Supply ρ) (Src' : PassInfo → Supply ρ) (R : PassInfo → Except Fault Answer → Prop) :
    Prop :=
  ∀ ⦃l w given ended⦄ (info : PassInfo), given ≠ .empty ∨ ended = true → Src l w given ended →
    R info (w.provider (w.asked ++ [info])) ∧
      Src' info l { w with asked := w.asked ++ [info] } given ended

/-! ### The input of a world -/

/-- The bytes of some items, one after another. -/
def itemsBytes (items : List InputItem) : ByteArray :=
  concat (items.map fun
    | .data bytes => bytes
    | .failure _ => .empty)

/-- Items that are pieces of data, none of them empty. -/
def Pieces (items : List InputItem) : Prop :=
  ∀ item ∈ items, ∃ bytes : ByteArray, item = .data bytes ∧ bytes ≠ .empty

theorem pieces_cons {bytes : ByteArray} {items : List InputItem} :
    Pieces (.data bytes :: items) ↔ bytes ≠ .empty ∧ Pieces items := by
  rw [Pieces, List.forall_mem_cons]
  refine and_congr_left' ⟨?_, fun h => ⟨bytes, rfl, h⟩⟩
  rintro ⟨_, h, hne⟩
  exact InputItem.data.inj h ▸ hne

instance (item : InputItem) :
    Decidable (∃ bytes : ByteArray, item = .data bytes ∧ bytes ≠ .empty) :=
  match item with
  | .data bytes => decidable_of_iff (bytes ≠ .empty)
    ⟨fun h => ⟨bytes, rfl, h⟩, fun ⟨_, h, hne⟩ => InputItem.data.inj h ▸ hne⟩
  | .failure _ => .isFalse fun ⟨_, h, _⟩ => nomatch h

instance (items : List InputItem) : Decidable (Pieces items) :=
  inferInstanceAs (Decidable (∀ item ∈ items, _))

namespace World

/-- The bytes of the input. -/
def bytes (w : World) : ByteArray :=
  itemsBytes w.input

/-- Whether the input is delivered in pieces that are not empty, without a failure. -/
def InPieces (w : World) : Prop :=
  Pieces w.input

instance (w : World) : Decidable w.InPieces :=
  inferInstanceAs (Decidable (Pieces w.input))

end World

theorem size_itemsBytes (items : List InputItem) : (itemsBytes items).size = itemsSize items := by
  induction items with
  | nil => rfl
  | cons item items ih =>
    cases item with
    | data bytes =>
      show (bytes ++ itemsBytes items).size = bytes.size + itemsSize items
      rw [ByteArray.size_append, ih]
    | failure e =>
      show (.empty ++ itemsBytes items : ByteArray).size = itemsSize items
      rw [ByteArray.empty_append, ih]

/-- All bytes can be delivered in pieces. -/
theorem exists_pieces (bytes : ByteArray) : ∃ items, Pieces items ∧ itemsBytes items = bytes := by
  by_cases h : bytes = .empty
  · exact ⟨[], fun item hitem => (by cases hitem), h.symm⟩
  · refine ⟨[.data bytes], fun item hitem => ⟨bytes, List.mem_singleton.1 hitem, h⟩, ?_⟩
    exact ByteArray.append_empty

/-- What was read and what is left are what there was. -/
theorem itemsBytes_readItems {n : Nat} {items left : List InputItem} {bytes : ByteArray}
    (h : readItems n items = (.ok bytes, left)) : itemsBytes items = bytes ++ itemsBytes left := by
  unfold readItems at h
  split at h
  · cases h
    simp [itemsBytes]
  · cases h
  next b items =>
    split at h
    · cases h
      rfl
    next hn =>
      cases h
      show b ++ itemsBytes items = b.extract 0 n ++ (b.extract n b.size ++ itemsBytes items)
      rw [← ByteArray.append_assoc,
        ← ByteArray.extract_eq_extract_append_extract n (Nat.zero_le _) (by omega),
        ByteArray.extract_zero_size]

/-- A read from pieces never fails, leaves pieces, and finds nothing only at the end. -/
theorem readItems_of_pieces {n : Nat} (hn : 0 < n) {items : List InputItem} (h : Pieces items) :
    ∃ bytes left, readItems n items = (.ok bytes, left) ∧ Pieces left ∧
      (bytes = .empty → left = []) := by
  cases items with
  | nil => exact ⟨.empty, [], rfl, h, fun _ => rfl⟩
  | cons item items =>
    obtain ⟨b, rfl, hb⟩ := h item List.mem_cons_self
    have hb0 : b.size ≠ 0 := fun h0 => hb (ByteArray.size_eq_zero_iff.1 h0)
    have hrest : Pieces items := fun i hi => h i (List.mem_cons_of_mem _ hi)
    simp only [readItems]
    split
    · exact ⟨b, items, rfl, hrest, fun h => absurd h hb⟩
    next hs =>
      -- A longer piece is cut, and neither part is empty.
      refine ⟨b.extract 0 n, _, rfl, ?_, fun h => ?_⟩
      · intro i hi
        rcases List.mem_cons.1 hi with rfl | hi
        · refine ⟨_, rfl, fun h => ?_⟩
          have h0 := congrArg ByteArray.size h
          rw [ByteArray.size_extract] at h0
          have he : ByteArray.size .empty = 0 := rfl
          omega
        · exact hrest i hi
      · have h0 := congrArg ByteArray.size h
        rw [ByteArray.size_extract] at h0
        have he : ByteArray.size .empty = 0 := rfl
        omega

/-- The input of the world as a source. -/
def Source.host : Source Unit := fun n l => do
  return (← Host.read n, l)

/-- Running a program in a world is running it with the input as its source. -/
theorem Source.run_host {α : Type} (p : Program Host α) (w : World) :
    Source.host.run p () w = (((w.run p).1, ()), (w.run p).2) := by
  induction p generalizing w with
  | done a => rfl
  | ask r next ih => cases r <;> exact ih _ _

section host

variable {σ α : Type} {step : Step σ α} {s : σ} {w : World}
  {good : α → σ → Unit → World → Prop} {fails : Fault → σ → Unit → World → Prop}

theorem Meets.of_run_ok (h : Meets Source.host step s () w good fails) {a : α} {s' : σ} {w' : World}
    (hr : w.run (step s) = ((.ok a, s'), w')) : good a s' () w' := by
  have hrun : Source.host.run (step s) () w = (((.ok a, s'), ()), w') := by
    rw [Source.run_host, hr]
  exact h.of_ok hrun

theorem Meets.exists_run_ok (h : Meets Source.host step s () w good fun _ _ _ _ => False) :
    ∃ a s' w', w.run (step s) = ((.ok a, s'), w') ∧ good a s' () w' := by
  obtain ⟨a, s', l', w', hr, hg⟩ := h.exists_ok
  rw [Source.run_host] at hr
  generalize w.run (step s) = x at hr
  obtain ⟨⟨result, s''⟩, w''⟩ := x
  cases hr
  exact ⟨_, _, _, rfl, hg⟩

theorem Meets.exists_run_error (h : Meets Source.host step s () w (fun _ _ _ _ => False) fails) :
    ∃ fault s' w', w.run (step s) = ((.error fault, s'), w') ∧ fails fault s' () w' := by
  unfold Meets at h
  rw [Source.run_host] at h
  generalize w.run (step s) = x at h
  obtain ⟨⟨fault | a, s'⟩, w'⟩ := x
  · exact ⟨fault, s', w', rfl, h⟩
  · exact h.elim

section ends

variable {α : Type} {p : Program Host (Except Fault α)} {w : World} {good : α → Unit → World → Prop}
  {fails : Fault → Prop}

theorem Ends.of_run_ok (h : Ends Source.host p () w good fails) {a : α} {w' : World}
    (hr : w.run p = (.ok a, w')) : good a () w' := by
  unfold Ends at h
  rwa [Source.run_host, hr] at h

theorem Ends.exists_run_ok (h : Ends Source.host p () w good fun _ => False) :
    ∃ a w', w.run p = (.ok a, w') ∧ good a () w' := by
  unfold Ends at h
  rw [Source.run_host] at h
  generalize w.run p = x at h
  obtain ⟨fault | a, w'⟩ := x
  · exact h.elim
  · exact ⟨a, w', rfl, h⟩

end ends

end host

theorem World.run_read (n : Nat) (w : World) :
    w.run (Source.host n ()) =
      (((readItems n w.input).1, ()), { w with input := (readItems n w.input).2 }) := rfl

/-- What is known of the input: what was given and what is left are `all`. -/
def hostSupply (all : ByteArray) : Supply Unit := fun _ w given ended =>
  given ++ w.bytes = all ∧ w.InPieces ∧ (ended = true → w.bytes = .empty)

/-- **Input in pieces supplies its bytes**, and never fails. -/
theorem supplies_host (all : ByteArray) :
    Supplies Source.host (hostSupply all) fun _ => False := by
  intro n l w given hn h
  obtain ⟨hall, hpieces, -⟩ := h
  obtain ⟨bytes, left, hread, hleft, hend⟩ := readItems_of_pieces hn hpieces
  rw [World.run_read, hread]
  refine ⟨?_, hleft, fun he => ?_⟩
  · show given ++ bytes ++ itemsBytes left = all
    rw [ByteArray.append_assoc, ← itemsBytes_readItems hread]
    exact hall
  · have hl : left = [] := hend (isEmpty_iff.1 he)
    show itemsBytes left = .empty
    rw [hl]
    rfl

theorem inputOnly_hostSupply (all : ByteArray) : InputOnly (hostSupply all) := by
  intro l w given ended h w' hw
  rwa [hostSupply, World.InPieces, World.bytes, hw]

theorem total_hostSupply (all : ByteArray) : Total all (hostSupply all) := by
  intro l w given ended h
  exact ⟨w.bytes, h.1.symm, h.2.2⟩

/-- A source in a world in which nothing has been asked since `asked`. -/
def Unasked (Src : Supply Unit) (asked : List PassInfo)
    (provider : List PassInfo → Except Fault Answer) : Supply Unit := fun l w given ended =>
  Src l w given ended ∧ w.asked = asked ∧ w.provider = provider

section unasked

variable {Src : Supply Unit} {bad : Fault → Prop}

theorem Supplies.unasked (hs : Supplies Source.host Src bad) (asked : List PassInfo)
    (provider : List PassInfo → Except Fault Answer) :
    Supplies Source.host (Unasked Src asked provider) bad :=
  hs.and fun _ _ _ h => h

theorem InputOnly.stable_unasked (hinput : InputOnly Src) (asked : List PassInfo)
    (provider : List PassInfo → Except Fault Answer) : Stable (Unasked Src asked provider) := by
  intro l w w' given ended ha h
  exact ⟨hinput h.1 w' ha.input, ha.asked.trans h.2.1, ha.provider.trans h.2.2⟩

theorem Total.unasked {all : ByteArray} (ht : Total all Src) (asked : List PassInfo)
    (provider : List PassInfo → Except Fault Answer) : Total all (Unasked Src asked provider) :=
  fun _ _ _ _ h => ht h.1

/-- In a world of which the questions are known, so is the reply to the next. -/
theorem InputOnly.asks_unasked (hinput : InputOnly Src) (asked : List PassInfo)
    (provider : List PassInfo → Except Fault Answer) :
    Asks (Unasked Src asked provider) (fun info => Unasked Src (asked ++ [info]) provider)
      fun info reply => reply = provider (asked ++ [info]) := by
  intro l w given ended info _ h
  rcases h with ⟨hsrc, hasked, hprovider⟩
  refine ⟨by rw [hasked, hprovider], hinput hsrc _ rfl, ?_, hprovider⟩
  rw [← hasked]

/-- The same, with the questions that have been put since `asked` kept apart. -/
theorem InputOnly.asks_unasked_since (hinput : InputOnly Src) (asked later : List PassInfo)
    (provider : List PassInfo → Except Fault Answer) :
    Asks (Unasked Src (asked ++ later) provider)
      (fun info => Unasked Src (asked ++ (later ++ [info])) provider)
      fun info reply => reply = provider (asked ++ (later ++ [info])) := by
  have h := hinput.asks_unasked (asked ++ later) provider
  simp only [List.append_assoc] at h
  exact h

end unasked

/-- The input of a world in which nothing has been asked since `asked`. -/
def unaskedSupply (all : ByteArray) (asked : List PassInfo)
    (provider : List PassInfo → Except Fault Answer) : Supply Unit :=
  Unasked (hostSupply all) asked provider

theorem unaskedSupply_start {w : World} (hp : w.InPieces) :
    unaskedSupply w.bytes w.asked w.provider () w .empty false :=
  ⟨⟨ByteArray.empty_append, hp, fun h => by cases h⟩, rfl, rfl⟩

theorem supplies_unasked (all : ByteArray) (asked : List PassInfo)
    (provider : List PassInfo → Except Fault Answer) :
    Supplies Source.host (unaskedSupply all asked provider) fun _ => False :=
  (supplies_host all).unasked asked provider

theorem stable_unaskedSupply (all : ByteArray) (asked : List PassInfo)
    (provider : List PassInfo → Except Fault Answer) :
    Stable (unaskedSupply all asked provider) :=
  (inputOnly_hostSupply all).stable_unasked asked provider

theorem total_unaskedSupply (all : ByteArray) (asked : List PassInfo)
    (provider : List PassInfo → Except Fault Answer) :
    Total all (unaskedSupply all asked provider) :=
  (total_hostSupply all).unasked asked provider

theorem asks_unasked (all : ByteArray) (asked : List PassInfo)
    (provider : List PassInfo → Except Fault Answer) :
    Asks (unaskedSupply all asked provider)
      (fun info => unaskedSupply all (asked ++ [info]) provider)
      fun info reply => reply = provider (asked ++ [info]) :=
  (inputOnly_hostSupply all).asks_unasked asked provider

theorem asks_unasked_since (all : ByteArray) (asked later : List PassInfo)
    (provider : List PassInfo → Except Fault Answer) :
    Asks (unaskedSupply all (asked ++ later) provider)
      (fun info => unaskedSupply all (asked ++ (later ++ [info])) provider)
      fun info reply => reply = provider (asked ++ (later ++ [info])) :=
  (inputOnly_hostSupply all).asks_unasked_since asked later provider

/-! ### What an input delivers -/

/-- The bytes that reads of some items find before the end, or before a failure. -/
def deliveredBytes : List InputItem → ByteArray
  | .data bytes :: items => if bytes.isEmpty then .empty else bytes ++ deliveredBytes items
  | _ => .empty

/-- The bytes that reads of the input find before its end, or before a failure. -/
def World.delivered (w : World) : ByteArray :=
  deliveredBytes w.input

theorem deliveredBytes_data {bytes : ByteArray} (h : bytes ≠ .empty) (items : List InputItem) :
    deliveredBytes (.data bytes :: items) = bytes ++ deliveredBytes items :=
  if_neg fun he => h (isEmpty_iff.1 he)

/-- Pieces are delivered to their end. -/
theorem Pieces.deliveredBytes_eq {items : List InputItem} (h : Pieces items) :
    deliveredBytes items = itemsBytes items := by
  induction items with
  | nil => rfl
  | cons item items ih =>
    rcases h item List.mem_cons_self with ⟨bytes, rfl, hne⟩
    have hrest : Pieces items := fun i hi => h i (List.mem_cons_of_mem _ hi)
    rw [deliveredBytes_data hne, ih hrest]
    rfl

theorem World.InPieces.delivered_eq {w : World} (h : w.InPieces) : w.delivered = w.bytes :=
  Pieces.deliveredBytes_eq h

theorem World.InPieces.no_failure {w : World} (h : w.InPieces) :
    ∀ e, InputItem.failure e ∉ w.input := by
  intro e he
  obtain ⟨bytes, hdata, -⟩ := h _ he
  cases hdata

theorem size_deliveredBytes_le (items : List InputItem) :
    (deliveredBytes items).size ≤ itemsSize items := by
  induction items with
  | nil => exact Nat.le_refl 0
  | cons item items ih =>
    cases item with
    | failure e => exact Nat.zero_le _
    | data bytes =>
      rw [deliveredBytes]
      split
      · exact Nat.zero_le _
      · rw [ByteArray.size_append]
        exact Nat.add_le_add_left ih _

/-- A read finds what is delivered next, nothing only at the end, or a failure. -/
theorem readItems_delivered {n : Nat} (hn : 0 < n) (items : List InputItem) :
    match readItems n items with
    | (.ok bytes, left) => (∀ e, .failure e ∈ left → .failure e ∈ items) ∧
        deliveredBytes items = bytes ++ (if bytes.isEmpty then .empty else deliveredBytes left)
    | (.error e, _) => .failure e ∈ items := by
  fun_cases readItems n items with
  | case1 => exact ⟨nofun, rfl⟩
  | case2 e items => exact List.mem_cons_self
  | case3 bytes items hfits =>
    refine ⟨fun e he => List.mem_cons_of_mem _ he, ?_⟩
    rw [deliveredBytes]
    by_cases hempty : bytes.isEmpty = true
    · rw [if_pos hempty, if_pos hempty, isEmpty_iff.1 hempty, ByteArray.append_empty]
    · rw [if_neg hempty, if_neg hempty]
  | case4 bytes items hlong =>
    -- A longer piece is cut, and neither part is empty.
    have hsizes : ∀ {i j : Nat}, i < j → j ≤ bytes.size → bytes.extract i j ≠ .empty := by
      intro i j hi hj h
      have hsize := congrArg ByteArray.size h
      rw [ByteArray.size_extract, ByteArray.size_empty] at hsize
      omega
    have hfirst : bytes.extract 0 n ≠ .empty := hsizes hn (by omega)
    have hlast : bytes.extract n bytes.size ≠ .empty := hsizes (by omega) (Nat.le_refl _)
    have hbytes : bytes = bytes.extract 0 n ++ bytes.extract n bytes.size := by
      rw [← ByteArray.extract_eq_extract_append_extract n (Nat.zero_le _) (by omega),
        ByteArray.extract_zero_size]
    have hne : bytes ≠ .empty := by
      intro h
      rw [← ByteArray.size_eq_zero_iff] at h
      omega
    constructor
    · intro e he
      rcases List.mem_cons.1 he with h | h
      · cases h
      · exact List.mem_cons_of_mem _ h
    · rw [if_neg fun h => hfirst (isEmpty_iff.1 h), deliveredBytes_data hne,
        deliveredBytes_data hlast, ← ByteArray.append_assoc, ← hbytes]

/-- What is known of an input of which every failure is in `bad`: what was given and what is still
delivered are `all`. -/
def deliveredSupply (all : ByteArray) (bad : Fault → Prop) : Supply Unit := fun _ w given ended =>
  given ++ (if ended then .empty else w.delivered) = all ∧
    ∀ e, InputItem.failure e ∈ w.input → bad (.ofIoFault e)

/-- **Any input supplies what it delivers**, or fails as it has it. -/
theorem supplies_delivered (all : ByteArray) (bad : Fault → Prop) :
    Supplies Source.host (deliveredSupply all bad) bad := by
  intro n l w given hn h
  rcases h with ⟨hall, hbad⟩
  have hread := readItems_delivered hn w.input
  rw [World.run_read]
  generalize readItems n w.input = x at hread
  rcases x with ⟨e | bytes, left⟩
  · exact hbad e hread
  · rcases hread with ⟨hfailures, hbytes⟩
    refine ⟨?_, fun e he => hbad e (hfailures e he)⟩
    have hdelivered : w.delivered
        = bytes ++ (if bytes.isEmpty then .empty else deliveredBytes left) := hbytes
    rw [← hall, if_neg Bool.false_ne_true, hdelivered, ← ByteArray.append_assoc]
    rfl

theorem inputOnly_deliveredSupply (all : ByteArray) (bad : Fault → Prop) :
    InputOnly (deliveredSupply all bad) := by
  intro l w given ended h w' hw
  rwa [deliveredSupply, World.delivered, hw]

theorem total_deliveredSupply (all : ByteArray) (bad : Fault → Prop) :
    Total all (deliveredSupply all bad) := by
  intro l w given ended h
  refine ⟨_, h.1.symm, fun hended => ?_⟩
  rw [hended, if_pos rfl]

theorem deliveredSupply_start {w : World} {bad : Fault → Prop}
    (h : ∀ e, InputItem.failure e ∈ w.input → bad (.ofIoFault e)) :
    deliveredSupply w.delivered bad () w .empty false :=
  ⟨ByteArray.empty_append, h⟩

/-- What is known of any input at all. -/
theorem supplies_host_any (all : ByteArray) :
    Supplies Source.host (fun _ w given _ => given ++ w.bytes = all) fun _ => True := by
  intro n l w given hn h
  rw [World.run_read]
  rcases hread : readItems n w.input with ⟨e | bytes, left⟩
  · trivial
  · show given ++ bytes ++ itemsBytes left = all
    rw [ByteArray.append_assoc, ← itemsBytes_readItems hread]
    exact h

end SealedStream
