import SealedStream.Proofs.NextBlock
import SealedStream.Proofs.LedgerRules
import SealedStream.Proofs.Encryption

/-!
# What the steps of a session seal

The steps of a session that are in a ledger tell what it has sealed: the first is the head of its
pass, with a salt and a nonce from its random bytes, and each of the others a further block, with
its random bytes as the nonce (`SealsPass`).  They also tell how far the session is in its input,
since its chunks grow on a schedule (`Accounts`).

* `Accounts.meets_next`: each step of a session goes on with its account.
* `Layers.Accounted`: the accounts of nested passes.
-/

namespace SealedStream

attribute [local instance (2000)] instPowNat

/-! ### Sealed blocks -/

/-- Where the nonce of a block stands: behind the header and the number of the algorithm. -/
def nonceIn (algorithm : Algorithm) (block : ByteArray) : ByteArray :=
  block.extract (Limits.headerBytes + Limits.algorithmBytes)
    (Limits.headerBytes + Limits.algorithmBytes + algorithm.ivBytes)

/-- A block that was sealed with associated data: its text was encrypted with all of their nonce and
nothing else, and that nonce stands in the block. -/
structure SealedWith (cipher : Key) (data : AssociatedData) (block : ByteArray) : Prop where
  parts : ∃ header associated text clear : ByteArray, block = header ++ associated ++ text ∧
    header.size = Limits.headerBytes ∧ data.encode = .ok associated ∧
    data.algorithm.encrypt cipher data.iv clear associated = .ok text
  nonce : data.algorithm.nonce data.iv = .ok data.iv
  inBlock : nonceIn data.algorithm block = data.iv

/-- The nonce stands where the associated data begin with it. -/
theorem nonceIn_eq {algorithm : Algorithm} {header number iv rest text : ByteArray}
    (hheader : header.size = Limits.headerBytes) (hnumber : number.size = Limits.algorithmBytes)
    (hiv : iv.size = algorithm.ivBytes) :
    nonceIn algorithm (header ++ (number ++ iv ++ rest) ++ text) = iv := by
  have hrow : header ++ (number ++ iv ++ rest) ++ text
      = header ++ number ++ (iv ++ (rest ++ text)) := by
    simp only [ByteArray.append_assoc]
  have hfront : (header ++ number).size = Limits.headerBytes + Limits.algorithmBytes := by
    rw [ByteArray.size_append, hheader, hnumber]
  rw [nonceIn, hrow, ← hfront]
  exact FieldReader.extract_passed hiv

/-- In the associated data of a head the nonce stands behind the number of the algorithm. -/
theorem HeadData.exists_toByteArray_eq (h : HeadData) :
    ∃ rest, h.toByteArray = writeLE Limits.algorithmBytes h.algorithm.id ++ h.iv ++ rest := by
  unfold toByteArray
  simp only [ByteArray.append_assoc]
  exact ⟨_, rfl⟩

/-- **A block that sealing makes** has the nonce it was sealed with. -/
theorem SealedWith.of_sealBlock {keys : PassKeys} {previous clear : ByteArray} {last : Bool}
    {data : AssociatedData} {parts : SealedParts} {number rest : ByteArray}
    (h : sealBlock keys previous data clear last = .ok parts)
    (hencode : data.encode = .ok (number ++ data.iv ++ rest))
    (hnumber : number.size = Limits.algorithmBytes)
    (hiv : data.iv.size = data.algorithm.ivBytes)
    (hsize : Limits.payloadMin ≤ (number ++ data.iv ++ rest).size
        + (clear.size + data.algorithm.tagBytes) ∧
      (number ++ data.iv ++ rest).size + (clear.size + data.algorithm.tagBytes)
        ≤ Limits.payloadMax) :
    SealedWith keys.cipher data parts.bytes := by
  obtain ⟨b, hsealed, hb, -⟩ := exists_sealBlock keys previous last hencode hiv hsize
  obtain ⟨-, hencrypt⟩ := encrypt_of_sealBlock h
  rw [hsealed] at h
  cases h
  have hheader := b.size_header .chained
  refine ⟨⟨_, _, _, clear, rfl, hheader, ?_, hencrypt⟩, Algorithm.nonce_eq_ok hiv, ?_⟩
  · rw [hb]
    exact hencode
  · show nonceIn data.algorithm (b.header .chained ++ b.associated ++ b.text) = data.iv
    rw [hb]
    exact nonceIn_eq hheader hnumber hiv

/-! ### The blocks of a pass -/

/-- A step that has sealed the head of a pass: the salt and the nonce are the first of its random
bytes, the question says both, and the nonce is that of the hint too. -/
structure Attempt.SealsHead (settings : PassSettings) (credential : Credential) (cipher : Key)
    (a : Attempt) : Prop where
  size : a.random.size = Limits.headRandomBytes
  sealed : ∃ (salt : Bytes 16) (iv sealedHint block : ByteArray) (answer : Answer)
      (derivation : Derivation),
    salt.data = a.random.extract 0 Limits.saltBytes ∧
    iv = a.random.extract Limits.saltBytes (Limits.saltBytes + settings.algorithm.ivBytes) ∧
    a.asked = [settings.question salt iv] ∧
    Derivation.ofPassword settings.iterations answer.password credential salt.data
      = .ok derivation ∧
    cipher = derivation.key ∧
    Encryptor.sealHint settings.algorithm (credential.hintKey salt) iv (answer.hint.getD "")
      = .ok sealedHint ∧
    a.block = some block ∧
    SealedWith cipher
      ⟨settings.algorithm, iv, salt, settings.iterations, settings.loop, sealedHint⟩ block

/-- A step that has sealed a further block of a pass, with its random bytes as the nonce. -/
structure Attempt.SealsFurther (settings : PassSettings) (cipher : Key) (a : Attempt) : Prop where
  size : a.random.size = settings.algorithm.ivBytes
  asked : a.asked = []
  sealed : ∃ block, a.block = some block ∧
    SealedWith cipher { algorithm := settings.algorithm, iv := a.random } block

/-- The steps that have sealed the blocks of a pass so far, all with one cipher key. -/
def SealsPass (settings : PassSettings) (credential : Credential) (cipher : Key) :
    List Attempt → Prop
  | [] => True
  | first :: rest =>
    first.SealsHead settings credential cipher ∧ ∀ a ∈ rest, a.SealsFurther settings cipher

section pass

variable {settings : PassSettings} {credential : Credential} {cipher : Key}

theorem SealsPass.snoc {attempts : List Attempt} {a : Attempt}
    (h : SealsPass settings credential cipher attempts) (hne : attempts ≠ [])
    (ha : a.SealsFurther settings cipher) :
    SealsPass settings credential cipher (attempts ++ [a]) := by
  rcases attempts with _ | ⟨first, rest⟩
  · exact absurd rfl hne
  · exact ⟨h.1, List.forall_mem_append.2 ⟨h.2, List.forall_mem_singleton.2 ha⟩⟩

/-- What the head of a pass is sealed with. -/
theorem PassSettings.sealed_of_sealHead {salt : Bytes 16} {iv chunk : ByteArray} {answer : Answer}
    {last : Bool} {keys : PassKeys} {parts : SealedParts}
    (h : settings.sealHead credential salt iv answer chunk last = .ok (keys, parts)) :
    ∃ derivation sealedHint,
      Derivation.ofPassword settings.iterations answer.password credential salt.data
        = .ok derivation ∧
      Encryptor.sealHint settings.algorithm (credential.hintKey salt) iv (answer.hint.getD "")
        = .ok sealedHint ∧ keys = ⟨derivation.key, credential.signingKey salt⟩ ∧
      sealBlock keys .empty
        ⟨settings.algorithm, iv, salt, settings.iterations, settings.loop, sealedHint⟩ chunk last
        = .ok parts := by
  unfold sealHead at h
  by_cases hhint : Limits.hintMaxChars < (answer.hint.getD "").length
  · rw [if_pos hhint] at h
    obtain ⟨_, hthrow, -⟩ := bind_eq_ok.1 h
    exact nomatch hthrow
  rw [if_neg hhint] at h
  obtain ⟨derivation, hderivation, h⟩ := bind_eq_ok.1 h
  obtain ⟨sealedHint, hsealed, h⟩ := bind_eq_ok.1 h
  obtain ⟨parts', hparts, h⟩ := bind_eq_ok.1 h
  rcases Prod.mk.inj (Except.ok.inj h) with ⟨rfl, rfl⟩
  exact ⟨derivation, sealedHint, hderivation, hsealed, rfl, hparts⟩

/-- **The head that a step seals** for a chunk. -/
theorem Attempt.sealsHead_of_sealHead {random : Bytes Limits.headRandomBytes} {salt : Bytes 16}
    {iv chunk : ByteArray} {answer : Answer} {last : Bool} {keys : PassKeys} {parts : SealedParts}
    (hsplit : Encryptor.splitRandom settings.algorithm random = (salt, iv))
    (h : settings.sealHead credential salt iv answer chunk last = .ok (keys, parts))
    (hsize : chunk.size ≤ Limits.readMax) (level : Nat) :
    SealsHead settings credential keys.cipher
      ⟨level, random.data, [settings.question salt iv], some parts.bytes⟩ := by
  have hiv : iv.size = settings.algorithm.ivBytes := by
    have hrandom := size_splitRandom settings.algorithm random
    rw [hsplit] at hrandom
    exact hrandom
  rcases Prod.mk.inj hsplit with ⟨hsalt, hnonce⟩
  obtain ⟨derivation, sealedHint, hderivation, hhint, rfl, hparts⟩ :=
    PassSettings.sealed_of_sealHead h
  obtain ⟨sealedHint', hsealed, hfits, -⟩ :=
    exists_sealHint (credential.hintKey salt) hiv (answer.hint.getD "")
  rw [hhint] at hsealed
  cases hsealed
  -- A head with its fields in range has a bounded size, so that its block has room.
  let head : HeadData := ⟨settings.algorithm, iv, salt, settings.iterations, settings.loop,
    sealedHint, hiv, settings.iterations_mem, settings.loop_valid, hfits⟩
  obtain ⟨rest, hrest⟩ := head.exists_toByteArray_eq
  have hencode := AssociatedData.encode_headData head
  have hroom : Limits.payloadMin ≤ head.toByteArray.size
        + (chunk.size + settings.algorithm.tagBytes) ∧
      head.toByteArray.size + (chunk.size + settings.algorithm.tagBytes) ≤ Limits.payloadMax :=
    ⟨head.payloadMin_le chunk.size, size_payload_le head.size_toByteArray_le hsize⟩
  rw [hrest] at hencode hroom
  refine ⟨random.size_data, salt, iv, sealedHint, parts.bytes, answer, derivation, ?_, hnonce.symm,
    rfl, hderivation, rfl, hhint, rfl, ?_⟩
  · rw [← hsalt]
    rfl
  · exact SealedWith.of_sealBlock hparts hencode (size_writeLE _ _) hiv hroom

/-- **The further block that a step seals** for a chunk with bytes. -/
theorem Attempt.sealsFurther_of_sealFurther {keys : PassKeys} {tag : Bytes 32}
    {iv : Bytes settings.algorithm.ivBytes} {chunk : ByteArray} {last : Bool} {parts : SealedParts}
    (h : settings.sealFurther keys tag iv.data chunk last = .ok parts) (hne : chunk ≠ .empty)
    (hsize : chunk.size ≤ Limits.readMax) (level : Nat) :
    SealsFurther settings keys.cipher ⟨level, iv.data, [], some parts.bytes⟩ := by
  let further : FurtherData := ⟨settings.algorithm, iv.data, iv.size_data⟩
  have hlayout : further.toByteArray
      = writeLE Limits.algorithmBytes settings.algorithm.id ++ iv.data ++ .empty :=
    ByteArray.append_empty.symm
  have hencode := AssociatedData.encode_furtherData further
  have hroom : Limits.payloadMin ≤ further.toByteArray.size
        + (chunk.size + settings.algorithm.tagBytes) ∧
      further.toByteArray.size + (chunk.size + settings.algorithm.tagBytes) ≤ Limits.payloadMax :=
    ⟨further.payloadMin_le hne, size_payload_le further.size_toByteArray_le hsize⟩
  rw [hlayout] at hencode hroom
  exact ⟨iv.size_data, rfl, parts.bytes, rfl,
    SealedWith.of_sealBlock h hencode (size_writeLE _ _) iv.size_data hroom⟩

end pass

/-! ### The account of a session -/

/-- The size of chunk `i` of a session whose first has `start` bytes, if there are as many. -/
def chunkTarget (start i : Nat) : Nat :=
  min (start * 2 ^ i) Limits.readMax

/-- The size of the first `k` chunks of a session, if there are as many bytes. -/
def chunkTotal (start : Nat) : Nat → Nat
  | 0 => 0
  | k + 1 => chunkTotal start k + chunkTarget start k

theorem chunkTarget_zero (readStart : Nat) :
    chunkTarget (clampReadStart readStart) 0 = clampReadStart readStart := by
  rw [chunkTarget, Nat.pow_zero, Nat.mul_one]
  exact Nat.min_eq_left (clampReadStart_mem readStart).2

theorem chunkTarget_succ (start i : Nat) :
    min (chunkTarget start i * 2) Limits.readMax = chunkTarget start (i + 1) := by
  unfold chunkTarget
  rw [Nat.pow_succ, ← Nat.mul_assoc]
  omega

variable {ρ : Type}

/-- A session and its steps so far: what they sealed, and how far in its input the session is. -/
inductive Accounts (Src : Supply ρ) (settings : PassSettings) (credential : Credential)
    (readStart : Nat) : Encryptor → List Attempt → ρ → World → Prop
  | fresh {l : ρ} {w : World} : (Encryptor.start credential readStart).Fresh Src l w →
    Accounts Src settings credential readStart (.start credential readStart) [] l w
  | made {e : Encryptor} {attempts : List Attempt} {keys : PassKeys} {tag : Bytes 32}
      {taken : ByteArray} {last : Bool} {l : ρ} {w : World} :
    Encryptor.Behind Src keys tag taken last e l w → attempts ≠ [] →
    SealsPass settings credential keys.cipher attempts →
    e.readTarget = chunkTarget (clampReadStart readStart) attempts.length →
    (last = false → taken.size = chunkTotal (clampReadStart readStart) attempts.length) →
    Accounts Src settings credential readStart e attempts l w

namespace Accounts

variable {Src Src' : Supply ρ} {settings : PassSettings} {credential : Credential} {readStart : Nat}
  {e : Encryptor} {attempts : List Attempt} {l l' : ρ} {w w' : World} {read : Source ρ}

/-- An account of a session says of its source what is known of it. -/
theorem mono (h : Accounts Src settings credential readStart e attempts l w)
    (hm : ∀ given ended, Src l w given ended → Src' l' w' given ended) :
    Accounts Src' settings credential readStart e attempts l' w' := by
  cases h with
  | fresh he => exact .fresh ⟨he.stage, he.target, hm _ _ he.reader⟩
  | @made _ _ keys tag taken last _ _ hbehind hne hseals htarget htaken =>
    refine .made (?_ : Encryptor.Behind Src' keys tag taken last e l' w') hne hseals htarget htaken
    cases last with
    | true => exact ⟨hbehind.stage, hbehind.ended, hbehind.buffer, hm _ _ hbehind.reader⟩
    | false =>
      exact ⟨hbehind.stage, hbehind.target, hbehind.keys, hbehind.lastTag, hm _ _ hbehind.reader,
        hbehind.buffer_ne⟩

theorem stage_of_not_finished (h : Accounts Src settings credential readStart e attempts l w)
    (hfinished : e.stage ≠ .finished) : e.stage = .initialized ∨ e.stage = .headDone := by
  cases h with
  | fresh he => exact .inl rfl
  | @made _ _ keys tag taken last _ _ hbehind =>
    cases last with
    | true => exact absurd hbehind.stage hfinished
    | false => exact .inr hbehind.stage

/-- A session has made no block as long as it is at its start. -/
theorem initialized_iff (h : Accounts Src settings credential readStart e attempts l w) :
    e.stage = .initialized ↔ attempts = [] := by
  cases h with
  | fresh he => exact ⟨fun _ => rfl, fun _ => rfl⟩
  | @made _ _ keys tag taken last _ _ hbehind hne =>
    refine ⟨fun hstage => ?_, fun h => absurd h hne⟩
    cases last with
    | true => exact Stage.noConfusion (hstage.symm.trans hbehind.stage)
    | false => exact Stage.noConfusion (hstage.symm.trans hbehind.stage)

theorem sealsPass (h : Accounts Src settings credential readStart e attempts l w) :
    ∃ cipher, SealsPass settings credential cipher attempts := by
  cases h with
  | fresh he => exact ⟨.zeros 32, trivial⟩
  | made hbehind hne hseals => exact ⟨_, hseals⟩

/-- **Each step of a session** goes on with its account. -/
theorem meets_next (hs : Supplies read Src fun _ => True) (hinput : InputOnly Src)
    (h : Accounts Src settings credential readStart e attempts l w)
    (hfinished : e.stage ≠ .finished) (level : Nat) :
    Meets read (Step.traced EncryptedPass.engine.next) (⟨e, settings⟩, []) l w
      (fun bytes t l w => t.1.settings = settings ∧
        Accounts Src settings credential readStart t.1.encryptor
          (attempts ++ [.ofEvents level t.2 (some bytes)]) l w)
      fun _ _ _ _ => True := by
  cases h with
  | fresh he =>
    rw [EncryptedPass.meets_traced_next,
      Encryptor.meets_traced_encryptBlock_of_initialized he.stage]
    refine (Encryptor.meets_traced_encryptHead hs hinput he).mono (fun block t l w hb => ?_)
      fun _ _ _ _ _ => trivial
    obtain ⟨chunk, random, salt, iv, answer, keys, parts, hsplit, hparts, hsealed, hhappened⟩ := hb
    have hattempt : Attempt.ofEvents level t.2 (some block.toByteArray)
        = ⟨level, random.data, [settings.question salt iv], some parts.bytes⟩ := by
      rw [Attempt.ofEvents, hhappened.drawn, hhappened.asked, hsealed.block.toByteArray_eq]
      exact congrArg (Attempt.mk level · _ _) ByteArray.empty_append
    refine ⟨rfl, .made hsealed.behind (List.cons_ne_nil _ _) ?_ ?_ fun hmore => ?_⟩
    · rw [hattempt]
      exact ⟨Attempt.sealsHead_of_sealHead hsplit hparts
        (Nat.le_trans hsealed.cut.size_le he.target.2) level, nofun⟩
    · show t.1.readTarget = chunkTarget (clampReadStart readStart) 1
      rw [hsealed.target, ← chunkTarget_succ, chunkTarget_zero]
      rfl
    · show _ = chunkTotal (clampReadStart readStart) 1
      rw [ByteArray.empty_append, hsealed.cut.full hmore, chunkTotal, chunkTarget_zero]
      exact (Nat.zero_add _).symm
  | @made _ _ keys tag taken last _ _ hbehind hne hseals htarget htaken =>
    cases last with
    | true => exact absurd hbehind.stage hfinished
    | false =>
      rw [EncryptedPass.meets_traced_next,
        Encryptor.meets_traced_encryptBlock_of_headDone hbehind.stage]
      refine (Encryptor.meets_traced_encryptFurther hs hinput hbehind).mono
        (fun block t l w hb => ?_) fun _ _ _ _ _ => trivial
      obtain ⟨chunk, iv, parts, hparts, hsealed, hchunk, hhappened⟩ := hb
      have hattempt : Attempt.ofEvents level t.2 (some block.toByteArray)
          = ⟨level, iv.data, [], some parts.bytes⟩ := by
        rw [Attempt.ofEvents, hhappened.drawn, hhappened.asked, hsealed.block.toByteArray_eq]
        exact congrArg (Attempt.mk level · _ _) ByteArray.empty_append
      refine ⟨rfl, .made hsealed.behind (by simp) ?_ ?_ fun hmore => ?_⟩
      · rw [hattempt]
        exact hseals.snoc hne (Attempt.sealsFurther_of_sealFurther hparts hchunk
          (Nat.le_trans hsealed.cut.size_le hbehind.target.2) level)
      · rw [hsealed.target, htarget, chunkTarget_succ, List.length_append]
        rfl
      · rw [ByteArray.size_append, htaken rfl, hsealed.cut.full hmore, htarget, List.length_append]
        rfl

end Accounts

/-! ### What a step draws -/

/-- A step of a session that drew once, when nothing was missing any more. -/
def Attempt.Drew (settings : PassSettings) (head : Prop) (I : Nat → ρ → World → Prop) (a : Attempt)
    (l : ρ) (w : World) : Prop :=
  ∃ w₁, I 0 l w₁ ∧ settings.Draws head a.random a.asked ∧ w₁.Since a.random a.asked w

/-- A step that drew nothing and asked nothing. -/
def Attempt.Silent (a : Attempt) : Prop :=
  a.random = .empty ∧ a.asked = []

section draws

variable {settings : PassSettings} {head : Prop} {I : Nat → ρ → World → Prop} {events : List Event}
  {l : ρ} {w : World}

theorem Encryptor.DrewNext.ofEvents (h : DrewNext (settings.Draws head) I [] events l w)
    (level : Nat) (block : Option ByteArray) :
    (Attempt.ofEvents level events block).Drew settings head I l w := by
  rcases h with ⟨w₁, reads, hI, hplain, random, asked, -, hdraws, hhappened, hsince⟩
  have hrandom : drawnBytes events = random := by
    rw [hhappened.drawn, List.nil_append, hplain.drawn, ByteArray.empty_append]
  have hasked : (questions events).map Prod.fst = asked.map Prod.fst := by
    rw [hhappened.asked, List.nil_append, hplain.asked, List.nil_append]
  refine ⟨w₁, hI, ?_⟩
  rw [Attempt.ofEvents, hrandom, hasked]
  exact ⟨hdraws, hsince⟩

theorem Attempt.silent_ofEvents (h : Plain events) (level : Nat) (block : Option ByteArray) :
    (ofEvents level events block).Silent :=
  ⟨h.drawn, congrArg (List.map Prod.fst) h.asked⟩

end draws

/-! ### The accounts of nested passes -/

section nested

variable {plan : Plan} {credential : Credential} {n bound : Nat} {a : Attempt}

/-- What is known of a source by a ledger is known when a level above makes a step. -/
theorem Layers.handed_add {s : Logged Attempt (Layers EncryptedPass n)} {w w' : World}
    {given : ByteArray} {ended : Bool} (h : Layers.Handed EncryptedPass.engine n s w given ended)
    (ha : n < a.level) :
    Layers.Handed EncryptedPass.engine n (s.add a) w' given ended := by
  cases n with
  | zero => trivial
  | succ n =>
    refine ⟨?_, h.2⟩
    rw [blocksOf_add_of_ne s (Nat.ne_of_gt ha)]
    exact h.1

/-- The account of the pass at level `n + 1`, which reads from the passes below. -/
def Outlet.Accounted (plan : Plan) (credential : Credential) (n : Nat) (o : Outlet EncryptedPass)
    (s : Logged Attempt (Layers EncryptedPass n)) : Prop :=
  plan.passes[n]? = some o.engine.settings ∧
    ∀ w, Accounts (Layers.Handed EncryptedPass.engine n) o.engine.settings credential plan.readStart
      o.engine.encryptor (attemptsOf (n + 1) s.log) s w

/-- The accounts of all passes. -/
def Layers.Accounted (plan : Plan) (credential : Credential) :
    (n : Nat) → Logged Attempt (Layers EncryptedPass n) → Prop
  | 0, _ => True
  | n + 1, ⟨(o, below), ledger⟩ =>
    o.Accounted plan credential n ⟨below, ledger⟩ ∧ Accounted plan credential n ⟨below, ledger⟩

/-- A step of a level above is none of theirs. -/
theorem Layers.Accounted.add {s : Logged Attempt (Layers EncryptedPass n)}
    (h : Layers.Accounted plan credential n s) (ha : n < a.level) :
    Layers.Accounted plan credential n (s.add a) := by
  induction n with
  | zero => trivial
  | succ n ih =>
    rcases s with ⟨⟨o, below⟩, ledger⟩
    refine ⟨⟨h.1.1, fun w => ?_⟩, ih h.2 (by omega)⟩
    have hattempts : attemptsOf (n + 1) (Logged.add ⟨below, ledger⟩ a).log
        = attemptsOf (n + 1) ledger := attemptsOf_add_of_ne _ (Nat.ne_of_gt ha)
    have haccounts := h.1.2 w
    rw [← hattempts] at haccounts
    exact haccounts.mono fun given ended hh => Layers.handed_add hh (by omega)

/-- **A step of a pass** goes on with its account.  It reads as long as bytes are missing, and then
draws once. -/
theorem Outlet.Accounted.meets_step
    {I : Nat → Logged Attempt (Layers EncryptedPass n) → World → Prop}
    {J : Logged Attempt (Layers EncryptedPass n) → World → Prop} {o : Outlet EncryptedPass}
    {s : Logged Attempt (Layers EncryptedPass n)} {w : World} (ho : o.Accounted plan credential n s)
    (hfollows : (Layers.readLogged .ledger EncryptedPass.engine bound n).Follows I J)
    (hfinished : EncryptedPass.engine.isFinished o.engine = false)
    (hI : I o.engine.encryptor.missing s w) :
    Meets (Layers.readLogged .ledger EncryptedPass.engine bound n)
      (Step.traced EncryptedPass.engine.next) (o.engine, []) s w
      (fun bytes t s' w' =>
        Outlet.Accounted plan credential n { o with engine := t.1, pending := bytes }
          (s'.add (.ofEvents (n + 1) t.2 (some bytes))) ∧
        attemptsOf (n + 1) s'.log = attemptsOf (n + 1) s.log ∧
        (Attempt.ofEvents (n + 1) t.2 (some bytes)).Drew o.engine.settings
          (attemptsOf (n + 1) s.log = []) I s' w')
      fun _ t s' w' => attemptsOf (n + 1) s'.log = attemptsOf (n + 1) s.log ∧
        ((Attempt.ofEvents (n + 1) t.2 none).Drew o.engine.settings
            (attemptsOf (n + 1) s.log = []) I s' w' ∨
          J s' w' ∧ (Attempt.ofEvents (n + 1) t.2 none).Silent) := by
  rcases o with ⟨⟨e, settings⟩, pending, ended⟩
  have hstage : e.stage ≠ .finished := of_decide_eq_false hfinished
  -- What the step seals, what it draws, and how the ledger goes on, are known apart.
  have haccounts := (ho.2 w).meets_next (Layers.supplies_handed EncryptedPass.engine bound n)
    (Layers.inputOnly_handed EncryptedPass.engine n) hstage (n + 1)
  have hdraws : Meets (Layers.readLogged .ledger EncryptedPass.engine bound n)
      (Step.traced EncryptedPass.engine.next) (⟨e, settings⟩, []) s w
      (fun _ t l w => Encryptor.DrewNext (settings.Draws (e.stage = .initialized)) I [] t.2 l w)
      fun _ t l w =>
        Encryptor.FailsNext (settings.Draws (e.stage = .initialized)) I J [] t.2 l w := by
    rw [EncryptedPass.meets_traced_next]
    exact Encryptor.meets_next_block hfollows ((ho.2 w).stage_of_not_finished hstage) hI
  rw [propext (ho.2 w).initialized_iff] at hdraws
  have hgrows := (Layers.grows_ledger EncryptedPass.engine bound n s.log).meets
    (Step.traced EncryptedPass.engine.next) (s := (⟨e, settings⟩, [])) (w := w) (.refl _ s.log)
  refine (haccounts.and (hdraws.and hgrows)).mono (fun bytes t s' w' h => ?_) fun _ t s' w' h => ?_
  · rcases t with ⟨⟨e', settings'⟩, events⟩
    dsimp only at h
    rcases h with ⟨⟨rfl, hnext⟩, hdrew, hgrows⟩
    have hattempts := hgrows.attemptsOf_eq (Nat.lt_succ_self n)
    refine ⟨⟨ho.1, fun v => ?_⟩, hattempts, hdrew.ofEvents (n + 1) (some bytes)⟩
    have henter : attemptsOf (n + 1) (s'.add (.ofEvents (n + 1) events (some bytes))).log
        = attemptsOf (n + 1) s'.log ++ [.ofEvents (n + 1) events (some bytes)] :=
      attemptsOf_add s' rfl
    dsimp only
    rw [henter, hattempts]
    exact hnext.mono fun given ended hh => Layers.handed_add hh (Nat.lt_succ_self n)
  · refine ⟨h.2.2.attemptsOf_eq (Nat.lt_succ_self n), h.2.1.imp (fun hdrew => ?_) fun hfail => ?_⟩
    · exact hdrew.ofEvents (n + 1) none
    · obtain ⟨hJ, reads, hplain, hevents⟩ := hfail
      rw [List.nil_append] at hevents
      rw [hevents]
      exact ⟨hJ, Attempt.silent_ofEvents hplain (n + 1) none⟩

/-- Passes that have made no step, around others that have made none. -/
theorem Pipeline.accounted_foldl (plan : Plan) (credential : Credential)
    (before passes : List PassSettings) (p : Pipeline EncryptedPass)
    (hpasses : plan.passes = before ++ passes) (hdepth : p.depth = before.length)
    (hp : Layers.Accounted plan credential p.depth ⟨p.layers, []⟩)
    (hstart : ∀ w, Layers.Handed EncryptedPass.engine p.depth ⟨p.layers, []⟩ w .empty false) :
    ∃ q : Pipeline EncryptedPass,
      passes.foldl (fun p settings => p.push ⟨.start credential plan.readStart, settings⟩) p = q ∧
      q.depth = plan.passes.length ∧ Layers.Accounted plan credential q.depth ⟨q.layers, []⟩ ∧
      ∀ w, Layers.Handed EncryptedPass.engine q.depth ⟨q.layers, []⟩ w .empty false := by
  induction passes generalizing before p with
  | nil =>
    rw [List.append_nil] at hpasses
    exact ⟨p, rfl, by rw [hpasses, hdepth], hp, hstart⟩
  | cons settings passes ih =>
    have hat : plan.passes[p.depth]? = some settings := by
      rw [hpasses, hdepth, List.getElem?_append_right (Nat.le_refl _), Nat.sub_self]
      rfl
    refine ih (before ++ [settings]) (p.push ⟨.start credential plan.readStart, settings⟩) ?_ ?_
      ⟨⟨hat, fun w => .fresh ⟨rfl, clampReadStart_mem _, hstart w⟩⟩, hp⟩
      fun w => ⟨rfl, nofun, nofun⟩
    · rw [hpasses, List.append_assoc]
      rfl
    · rw [List.length_append, ← hdepth]
      rfl

/-- **No pass has made a step** at the start of a run, nor handed out a byte. -/
theorem Plan.accounted_pipeline (plan : Plan) (credential : Credential) :
    (plan.pipeline credential).depth = plan.count ∧
      Layers.Accounted plan credential (plan.pipeline credential).depth
        ⟨(plan.pipeline credential).layers, []⟩ ∧
      ∀ w, Layers.Handed EncryptedPass.engine (plan.pipeline credential).depth
        ⟨(plan.pipeline credential).layers, []⟩ w .empty false := by
  obtain ⟨q, rfl, hdepth, haccounted, hhanded⟩ := Pipeline.accounted_foldl plan credential []
    plan.passes .empty rfl rfl trivial fun w => trivial
  rw [plan.length_passes] at hdepth
  exact ⟨hdepth, haccounted, hhanded⟩

end nested

end SealedStream
