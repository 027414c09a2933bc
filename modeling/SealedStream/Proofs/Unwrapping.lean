import SealedStream.Proofs.LogRules
import SealedStream.Proofs.Parts
import SealedStream.Proofs.Representation

/-!
# How often a stream unwraps

Which of how many a pass is, its head says, and nothing but its tag vouches for that.  So a stream
could tell of any number of passes.  But a pass that is unwrapped further is at least ninety bytes
longer than its clear text, for it has a header, the fields of its head and the tag of a text.  That
bounds the number of passes by the number of bytes, and the loops of decryption never come to their
bounds.

* `Nested.length_le`: how many passes can nest in some bytes.
* `opensListed_openLogged`: opening a stream finds passes that nest in it, and ends.
* `decrypt_is_bounded`: decryption ends with a clear text or a fault that was found or brought,
  whatever the bytes are.
-/

namespace SealedStream

variable {format : WireFormat} {credential : Credential} {head : VerifiedHead}
  {all ahead clear : ByteArray} {reply : Except Fault Answer} {outcome : Option Fault}
  {asked : List PassInfo} {provider : List PassInfo → Except Fault Answer}

/-! ### What a pass takes -/

theorem Algorithm.ivMin_le_ivBytes (a : Algorithm) : Limits.ivMin ≤ a.ivBytes := by
  cases a <;> decide

theorem Algorithm.tagMin_le_tagBytes (a : Algorithm) : Limits.tagMin ≤ a.tagBytes := by
  cases a <;> decide

/-- The least that a framed pass has besides its clear text: a header, the fields of its head but
for the hint, and a tag. -/
def Limits.passOverhead : Nat :=
  headerBytes + (algorithmBytes + ivMin + saltBytes + iterationsBytes + loopBytes + hintLengthBytes)
    + tagMin

/-- Only a framed pass is one of several. -/
theorem ne_message_of_headOf (h : headOf format credential all = .ok (head, ahead))
    (hmore : 1 < head.info.loop.index) : format ≠ .message := by
  rintro rfl
  obtain ⟨b, f, hint, -, -, -, hb, -, rfl⟩ := headOf_message_eq_ok.1 h
  have hindex : f.loop.index = 1 := congrArg LoopIndex.index hb.only
  exact absurd hmore (Nat.not_lt.2 (Nat.le_of_eq hindex))

/-- **A framed pass is longer** than what it opens to. -/
theorem Gives.size_add_le (hf : format ≠ .message)
    (hok : headOf format credential all = .ok (head, ahead)) {opened : PassKeys × ByteArray}
    (hopened : (reply >>= head.decrypt credential) = .ok opened)
    (h : Gives format credential head ahead reply clear outcome) :
    clear.size + Limits.passOverhead ≤ all.size := by
  obtain ⟨b, f, hint, rfl, hb, -, rfl⟩ := (headOf_eq_ok hf).1 hok
  cases h with
  | refused hrefused => cases hrefused.symm.trans hopened
  | opened hdecrypt hunfolds =>
    have hrest := hunfolds.size_le fun h => absurd h hf
    obtain ⟨answer, -, hopen⟩ := bind_eq_ok.1 hdecrypt
    obtain ⟨-, -, hclear⟩ := decrypt_verifiedHead_eq_ok.1 hopen
    have htext := Algorithm.size_of_decrypt hclear
    have hiv := f.algorithm.ivMin_le_ivBytes
    have htag := f.algorithm.tagMin_le_tagBytes
    have hoverhead : Limits.passOverhead = 62 + Limits.ivMin + Limits.tagMin := rfl
    have hheader : Limits.headerBytes = 38 := rfl
    -- What a block has besides its text is its header and the fields of its head.
    rw [concat_cons, ByteArray.size_append, ByteArray.size_append, WireBlock.size_toByteArray,
      WireBlock.payload, ByteArray.size_append, hb.associated, f.size_toByteArray]
    omega

/-- A pass whose head does not open gives nothing. -/
theorem Gives.eq_empty {fault : Fault} (hreply : (reply >>= head.decrypt credential) = .error fault)
    (h : Gives format credential head ahead reply clear outcome) : clear = .empty := by
  cases h with
  | refused => rfl
  | opened hdecrypt => cases hreply.symm.trans hdecrypt

/-! ### What a pass fails with -/

theorem orderly_ofHeader (header : ByteArray) : Orderly (WireFormat.ofHeader header) :=
  (orderly_error (isVerdict_sizeMismatch _ _ _)).ite <| (orderly_ok _).ite <| (orderly_ok _).ite <|
    (orderly_ok _).ite (orderly_error (isVerdict_protocolVersion _))

theorem Unfolds.isVerdict {keys : PassKeys} {tag : Bytes 32} {flags : Nat}
    {clears : List ByteArray} (h : Unfolds format keys tag flags ahead clears outcome)
    {fault : Fault} (hfault : outcome = some fault) : fault.IsVerdict := by
  induction h with
  | finished => cases hfault
  | failed hfailed =>
    cases hfault
    exact orderly_nextOf _ _ _ _ _ _ hfailed
  | block _ _ ih => exact ih hfault

/-- A pass fails for what its bytes are, or as the question for its password was answered. -/
theorem Gives.isVerdict {fault : Fault}
    (h : Gives format credential head ahead reply clear (some fault)) :
    fault.IsVerdict ∨ reply = .error fault := by
  cases h with
  | refused hrefused =>
    rcases bind_eq_error.1 hrefused with hreply | ⟨answer, -, hopen⟩
    · exact .inr hreply
    · exact .inl (orderly_decrypt head credential answer fault hopen)
  | opened _ hunfolds => exact .inl (hunfolds.isVerdict rfl)

section session

variable {ρ : Type} {read : Source ρ} {Src : Supply ρ} {bad : Fault → Prop} {l : ρ} {w : World}

/-- A pass that is not opened has no head, or cannot be read. -/
theorem Decryptor.ends_openPass_orderly (hs : Supplies read Src bad) (ht : Total all Src)
    (credential : Credential) (h : Src l w .empty false) :
    Ends read (openPass credential) l w (fun _ _ _ => True)
      fun fault => bad fault ∨ fault.IsVerdict := by
  unfold openPass
  refine (ends_bind ?_).2 ?_
  · exact fun _ => rfl
  refine (ends_start hs ht credential h).mono (fun d l w hd => ?_) fun fault hb => ?_
  · obtain ⟨-, -, hfresh⟩ := hd
    refine ends_step.2 ((meets_settle _).2 ?_)
    exact (meets_decodeHead_orderly hs ht hfresh).mono (fun _ _ _ _ _ => trivial)
      fun _ _ _ _ hb => hb
  · exact hb.imp_right fun hb => orderly_ofHeader _ _ hb

end session

/-! ### Passes that nest -/

/-- A pass whose head has been verified: its metadata, its cipher text, and what that opens to,
unless the head does not. -/
structure VerifiedPass where
  info : PassInfo
  cipher : ByteArray
  clear : Option ByteArray

/-- Some passes with verified heads, the first of which are the bytes `all`, and each of the others
the clear text of the one before, as their heads say.  When `asked` has been asked before, each asks
its own question next. -/
inductive Nested (credential : Credential) (provider : List PassInfo → Except Fault Answer) :
    List PassInfo → ByteArray → List VerifiedPass → Prop
  | none {asked : List PassInfo} {all : ByteArray} : Nested credential provider asked all []
  | closed {asked : List PassInfo} {all ahead : ByteArray} {format : WireFormat}
      {head : VerifiedHead} {fault : Fault} :
    beginOf credential all = .ok (format, head, ahead) →
    (provider (asked ++ [head.info]) >>= head.decrypt credential) = .error fault →
    Nested credential provider asked all [⟨head.info, all, .none⟩]
  | last {asked : List PassInfo} {all ahead clear : ByteArray} {format : WireFormat}
      {head : VerifiedHead} {outcome : Option Fault} {opened : PassKeys × ByteArray} :
    beginOf credential all = .ok (format, head, ahead) → ¬ 1 < head.info.loop.index →
    (provider (asked ++ [head.info]) >>= head.decrypt credential) = .ok opened →
    Gives format credential head ahead (provider (asked ++ [head.info])) clear outcome →
    Nested credential provider asked all [⟨head.info, all, some clear⟩]
  | pass {asked : List PassInfo} {all ahead mid : ByteArray} {format : WireFormat}
      {head : VerifiedHead} {outcome : Option Fault} {opened : PassKeys × ByteArray}
      {passes : List VerifiedPass} :
    beginOf credential all = .ok (format, head, ahead) → 1 < head.info.loop.index →
    (provider (asked ++ [head.info]) >>= head.decrypt credential) = .ok opened →
    Gives format credential head ahead (provider (asked ++ [head.info])) mid outcome →
    Nested credential provider (asked ++ [head.info]) mid passes →
    Nested credential provider asked all (⟨head.info, all, some mid⟩ :: passes)

namespace Nested

variable {passes : List VerifiedPass}

theorem version_of_beginOf (hbegin : beginOf credential all = .ok (format, head, ahead))
    (hmore : 1 < head.info.loop.index) :
    head.info.version = Limits.version4 ∨ head.info.version = Limits.version5 := by
  have hok := (beginOf_eq_ok.1 hbegin).2
  have hf := ne_message_of_headOf hok hmore
  obtain ⟨b, f, hint, -, -, -, rfl⟩ := (headOf_eq_ok hf).1 hok
  cases format with
  | message => exact absurd rfl hf
  | framed => exact .inl rfl
  | chained => exact .inr rfl

/-- **A pass that is unwrapped further** is a framed one, and longer than its clear text. -/
theorem size_add_le (h : Nested credential provider asked all passes) :
    ∀ p ∈ passes, 1 < p.info.loop.index →
      (p.info.version = Limits.version4 ∨ p.info.version = Limits.version5) ∧
        ∀ clear, p.clear = some clear → clear.size + Limits.passOverhead ≤ p.cipher.size := by
  induction h with
  | none => exact fun p hp => absurd hp List.not_mem_nil
  | closed hbegin =>
    intro p hp hmore
    obtain rfl := List.mem_singleton.1 hp
    exact ⟨version_of_beginOf hbegin hmore, nofun⟩
  | last _ hlast =>
    intro p hp hmore
    obtain rfl := List.mem_singleton.1 hp
    exact absurd hmore hlast
  | pass hbegin hmore hopened hgives _ ih =>
    intro p hp hmore'
    rcases List.mem_cons.1 hp with rfl | hp
    · have hok := (beginOf_eq_ok.1 hbegin).2
      refine ⟨version_of_beginOf hbegin hmore, fun clear hclear => ?_⟩
      cases hclear
      exact hgives.size_add_le (ne_message_of_headOf hok hmore) hok hopened
    · exact ih p hp hmore'

/-- There are no passes in nothing. -/
theorem eq_nil (h : Nested credential provider asked .empty passes) : passes = [] := by
  have hbegin : ∀ {format : WireFormat} {head : VerifiedHead} {ahead : ByteArray},
      beginOf credential .empty ≠ .ok (format, head, ahead) :=
    fun h => nomatch (beginOf_eq_ok.1 h).1
  cases h with
  | none => rfl
  | closed h => exact absurd h hbegin
  | last h => exact absurd h hbegin
  | pass h => exact absurd h hbegin

/-- **How many passes nest** in some bytes. -/
theorem length_le (h : Nested credential provider asked all passes) :
    passes.length ≤ all.size / Limits.passOverhead + 1 := by
  induction h with
  | none => exact Nat.zero_le _
  | closed => exact Nat.le_add_left 1 _
  | last => exact Nat.le_add_left 1 _
  | pass hbegin hmore hopened hgives _ ih =>
    have hok := (beginOf_eq_ok.1 hbegin).2
    have hsize := hgives.size_add_le (ne_message_of_headOf hok hmore) hok hopened
    have hoverhead : Limits.passOverhead = 90 := rfl
    -- The passes inside nest in that much less.
    rw [hoverhead] at ih hsize ⊢
    rw [List.length_cons]
    omega

end Nested

/-! ### Opening passes -/

/-- The metadata of the pass that a turn has opened. -/
def Turn.opened? (_level : Nat) (_events : List Event) : Turn → Option PassInfo
  | opened info => some info
  | _ => none

/-- Puts down of which passes the heads were verified. -/
abbrev Logger.heads : Logger PassInfo :=
  .ofTurns Turn.opened?

/-- `openPasses`, which tells besides of which passes the heads were verified. -/
def openListed (bound : Nat) (credential : Credential) (n : Nat) (p : Pipeline Decryptor) :
    Program Host (Except Fault (Pipeline Decryptor) × List PassInfo) :=
  openLogged .heads bound credential n ⟨p, []⟩

/-- The list changes nothing. -/
theorem run_openPasses_eq (bound : Nat) (credential : Credential) (n : Nat) (p : Pipeline Decryptor)
    (w : World) :
    w.run (openPasses bound credential n p)
      = ((w.run (openListed bound credential n p)).1.1,
          (w.run (openListed bound credential n p)).2) := by
  rw [← World.run_map, openListed, fst_map_openLogged]

section opening

variable {bound depth : Nat}

/-- A block is no pass that is opened, so the list stays as it is while passes are read. -/
theorem Layers.keeps_heads (bound n : Nat) (infos : List PassInfo) :
    (readLogged .heads Decryptor.engine bound n).Preserves fun l => l.log = infos := by
  rintro size l w rfl
  have hgrows : (readLogged .heads Decryptor.engine bound n).Preserves fun l' =>
      GoesOn (fun _ => False) l.log l'.log :=
    grows_readLogged (P := fun _ _ => False) (fun _ _ h => h)
      (fun n events result info h => by cases result <;> cases h) Decryptor.engine bound n l.log
  exact (hgrows (.refl _ l.log)).eq_of_false

/-- One pass is opened, and goes to the list. -/
theorem run_openHeads (bound : Nat) (credential : Credential) (l : Layers Decryptor depth)
    (infos : List PassInfo) (w : World) :
    w.run (Logger.heads.run (depth + 1) (Layers.readLogged .heads Decryptor.engine bound depth)
        .ofOpening (Decryptor.openPass credential) ⟨l, infos⟩)
      = match Source.run (Layers.read Decryptor.engine bound depth)
          (Decryptor.openPass credential) l w with
        | ((.error fault, l), w) => ((.error fault, ⟨l, infos⟩), w)
        | ((.ok (info, d), l), w) => ((.ok (info, d), ⟨l, infos ++ [info]⟩), w) := by
  -- The list apart, the run is the plain one; and what the reads in it leave is the list.
  have hplain : Source.run (Layers.read Decryptor.engine bound depth)
      (Decryptor.openPass credential) l w
        = w.run (Prod.map id Logged.state <$> Logger.heads.run (depth + 1)
            (Layers.readLogged .heads Decryptor.engine bound depth) .ofOpening
            (Decryptor.openPass credential) ⟨l, infos⟩) := by
    rw [Logger.map_run .heads (depth + 1) (Layers.map_readLogged bound depth)]
    rfl
  have hkept := (Layers.keeps_heads bound depth infos).run
    ((Decryptor.openPass credential).traced []) (l := ⟨l, infos⟩) (w := w) rfl
  rw [hplain, World.run_map, Logger.run_ofTurns]
  generalize Source.run (Layers.readLogged .heads Decryptor.engine bound depth)
    ((Decryptor.openPass credential).traced []) ⟨l, infos⟩ w = x at hkept
  rcases x with ⟨⟨⟨fault | ⟨info, d⟩, events⟩, l', log⟩, w'⟩
  · obtain rfl : log = infos := hkept
    rfl
  · obtain rfl : log = infos := hkept
    rfl

theorem run_openLogged_heads (bound : Nat) (credential : Credential) (l : Layers Decryptor depth)
    (infos : List PassInfo) (w : World) (n : Nat) :
    w.run (openLogged .heads bound credential (n + 1) ⟨⟨depth, l⟩, infos⟩)
      = match Source.run (Layers.read Decryptor.engine bound depth)
          (Decryptor.openPass credential) l w with
        | ((.error fault, _), w) => ((.error fault, infos), w)
        | ((.ok (info, d), l), w) =>
          if 1 < info.loop.index then
            w.run (openLogged .heads bound credential n
              ⟨⟨depth + 1, ({ engine := d }, l)⟩, infos ++ [info]⟩)
          else ((.ok ⟨depth + 1, ({ engine := d }, l)⟩, infos ++ [info]), w) := by
  rw [openLogged, World.run_bind, Pipeline.feedLogged, World.run_bind, run_openHeads]
  generalize Source.run (Layers.read Decryptor.engine bound depth)
    (Decryptor.openPass credential) l w = x
  obtain ⟨⟨fault | ⟨info, d⟩, l'⟩, w'⟩ := x
  · rfl
  · show World.run (ite (1 < info.loop.index) _ _) _ = _
    by_cases hmore : 1 < info.loop.index
    · simp only [if_pos hmore]
      rfl
    · simp only [if_neg hmore]
      rfl

/-- A fault that decryption may end with: it tells of bytes or of an answer, or it is in `bad`, or
it is an answer itself. -/
def Accountable (bad : Fault → Prop) (provider : List PassInfo → Except Fault Answer)
    (asked : List PassInfo) (fault : Fault) : Prop :=
  bad fault ∨ fault.IsVerdict ∨ ∃ infos, provider (asked ++ infos) = .error fault

/-- What is accountable behind a pass is so in front of it. -/
theorem Accountable.of_gives {bad : Fault → Prop} {info : PassInfo} {fault : Fault}
    (hgives : Gives format credential head ahead (provider (asked ++ [info])) clear outcome)
    (h : Accountable (fun fault => outcome = some fault ∨ bad fault) provider (asked ++ [info])
      fault) : Accountable bad provider asked fault := by
  rcases h with (rfl | hbad) | hverdict | ⟨infos, hanswer⟩
  · rcases hgives.isVerdict with hverdict | hanswer
    · exact .inr (.inl hverdict)
    · exact .inr (.inr ⟨[info], hanswer⟩)
  · exact .inl hbad
  · exact .inr (.inl hverdict)
  · rw [List.append_assoc] at hanswer
    exact .inr (.inr ⟨_, hanswer⟩)

/-- How opening passes ends: with a pipeline that is a source again, of fewer than `bound` bytes, or
with a fault; what fails is accountable. -/
def OpensListed (bound : Nat) (bad : Fault → Prop)
    (provider : List PassInfo → Except Fault Answer) (asked infos : List PassInfo) :
    (Except Fault (Pipeline Decryptor) × List PassInfo) × World → Prop
  | ((.ok p, infos'), w) => infos' = infos ∧
      ∃ (clear : ByteArray) (asked' : List PassInfo)
        (S : List PassInfo → Supply (Layers Decryptor p.depth)) (bad' : Fault → Prop),
        Feeds (Layers.read Decryptor.engine bound p.depth) clear asked' provider S bad' ∧
        S [] p.layers w .empty false ∧ clear.size < bound ∧
        ∀ fault, bad' fault → Accountable bad provider asked fault
  | ((.error fault, infos'), _) => infos' = infos ∧ Accountable bad provider asked fault

/-- What opens behind a pass opens in front of it. -/
theorem OpensListed.of_gives {bad : Fault → Prop} {info : PassInfo} {infos : List PassInfo}
    {x : (Except Fault (Pipeline Decryptor) × List PassInfo) × World}
    (hgives : Gives format credential head ahead (provider (asked ++ [info])) clear outcome)
    (h : OpensListed bound (fun fault => outcome = some fault ∨ bad fault) provider
      (asked ++ [info]) infos x) : OpensListed bound bad provider asked infos x := by
  obtain ⟨⟨fault | p, infos'⟩, w⟩ := x
  · exact ⟨h.1, h.2.of_gives hgives⟩
  · obtain ⟨hinfos, clear, asked', S, bad', hfeeds, hsrc, hsize, hfaults⟩ := h
    exact ⟨hinfos, clear, asked', S, bad', hfeeds, hsrc, hsize, fun fault hb =>
      (hfaults fault hb).of_gives hgives⟩

/-- **One pass is opened**, and is the source of the next then, which has fewer bytes. -/
theorem ends_openPass_feeds (credential : Credential) {l : Layers Decryptor depth} {w : World}
    {S : List PassInfo → Supply (Layers Decryptor depth)} {bad : Fault → Prop}
    (hfeeds : Feeds (Layers.read Decryptor.engine bound depth) all asked provider S bad)
    (hsrc : S [] l w .empty false) (hbound : all.size + 2 ≤ bound) :
    Ends (Layers.read Decryptor.engine bound depth) (Decryptor.openPass credential) l w
      (fun opened l w => ∃ format head ahead mid outcome S',
        beginOf credential all = .ok (format, head, ahead) ∧ opened.1 = head.info ∧
        Gives format credential head ahead (provider (asked ++ [head.info])) mid outcome ∧
        Feeds (Layers.read Decryptor.engine bound (depth + 1)) mid (asked ++ [head.info]) provider
          S' (fun fault => outcome = some fault ∨ bad fault) ∧
        S' [] ({ engine := opened.2 }, l) w .empty false ∧ mid.size < all.size)
      fun fault => bad fault ∨ fault.IsVerdict := by
  have hopen : Ends (Layers.read Decryptor.engine bound depth) (Decryptor.openPass credential) l w
      _ _ := Decryptor.ends_openPass (hfeeds.supplies []) (hfeeds.total []) hsrc
  refine (hopen.and (Decryptor.ends_openPass_orderly (hfeeds.supplies []) (hfeeds.total [])
    credential hsrc)).mono (fun opened l w h => ?_) fun fault h => h.2
  obtain ⟨⟨head, ahead, hbegin, hinfo, rfl, hd⟩, -⟩ := h
  have hok := (beginOf_eq_ok.1 hbegin).2
  obtain ⟨mid, outcome, hgives⟩ := exists_gives hok (provider (asked ++ [head.info]))
  obtain ⟨S', hfeeds', hsrc', -⟩ := feeds_push hfeeds hbound hd hgives
  exact ⟨_, head, ahead, mid, outcome, S', hbegin, hinfo, hgives, hfeeds', hsrc',
    hgives.size_lt hok⟩

/-- **Opening passes ends**, and finds passes that nest in the bytes of the source, which go to the
list behind those that are in it.  The induction is on the bound for their number: each pass that is
unwrapped further leaves fewer bytes. -/
theorem opensListed_openLogged {n : Nat} :
    ∀ (before : List PassInfo) {depth : Nat} {l : Layers Decryptor depth} {w : World}
      {S : List PassInfo → Supply (Layers Decryptor depth)} {all : ByteArray}
      {asked : List PassInfo} {bad : Fault → Prop},
      Feeds (Layers.read Decryptor.engine bound depth) all asked provider S bad →
      S [] l w .empty false → all.size + 2 ≤ bound → all.size < n →
      ∃ passes, Nested credential provider asked all passes ∧
        OpensListed bound bad provider asked (before ++ passes.map (·.info))
          (w.run (openLogged .heads bound credential n ⟨⟨depth, l⟩, before⟩)) := by
  induction n with
  | zero =>
    intro before depth l w S all asked bad hfeeds hsrc hbound hn
    exact absurd hn (Nat.not_lt_zero _)
  | succ n ih =>
    intro before depth l w S all asked bad hfeeds hsrc hbound hn
    have hopen := ends_openPass_feeds credential hfeeds hsrc hbound
    rw [run_openLogged_heads]
    unfold Ends at hopen
    generalize Source.run (Layers.read Decryptor.engine bound depth)
      (Decryptor.openPass credential) l w = x at hopen
    obtain ⟨⟨fault | ⟨info, d⟩, l'⟩, w'⟩ := x
    · exact ⟨[], .none, (List.append_nil before).symm, hopen.imp_right .inl⟩
    obtain ⟨format, head, ahead, mid, outcome, S', hbegin, rfl, hgives, hfeeds', hsrc', hless⟩ :=
      hopen
    dsimp only
    by_cases hmore : 1 < head.info.loop.index
    · rw [if_pos hmore]
      obtain ⟨passes, hnested, hlisted⟩ :=
        ih (before ++ [head.info]) hfeeds' hsrc' (by omega) (by omega)
      have hlisted := hlisted.of_gives hgives
      rw [List.append_assoc] at hlisted
      cases hreply : provider (asked ++ [head.info]) >>= head.decrypt credential with
      | error fault =>
        -- There is no pass in nothing.
        obtain rfl := hgives.eq_empty hreply
        obtain rfl := hnested.eq_nil
        exact ⟨_, .closed hbegin hreply, hlisted⟩
      | ok opened => exact ⟨_, .pass hbegin hmore hreply hgives hnested, hlisted⟩
    · rw [if_neg hmore]
      have hlisted : OpensListed bound bad provider asked (before ++ [head.info])
          ((.ok ⟨depth + 1, ({ engine := d }, l')⟩, before ++ [head.info]), w') :=
        ⟨rfl, mid, asked ++ [head.info], S', _, hfeeds', hsrc', by omega, fun fault hb =>
          Accountable.of_gives hgives (.inl hb)⟩
      cases hreply : provider (asked ++ [head.info]) >>= head.decrypt credential with
      | error fault => exact ⟨_, .closed hbegin hreply, hlisted⟩
      | ok opened => exact ⟨_, .last hbegin hmore hreply hgives, hlisted⟩

end opening

/-! ### Whole streams -/

/-- A fault that may come from outside at any time: a read of the input fails with it, or some
question is answered with it. -/
def World.MayBring (w : World) (fault : Fault) : Prop :=
  (∃ e, InputItem.failure e ∈ w.input ∧ fault = .ofIoFault e) ∨
    ∃ infos, w.provider (w.asked ++ infos) = .error fault

namespace World

/-- The failures in the input. -/
def Fails (w : World) (fault : Fault) : Prop :=
  ∃ e, InputItem.failure e ∈ w.input ∧ fault = .ofIoFault e

/-- Opening a stream finds passes that nest in what the input delivers. -/
theorem opensListed_start (credential : Credential) (w : World) :
    ∃ passes, Nested credential w.provider w.asked w.delivered passes ∧
      OpensListed w.inputBound w.Fails w.provider w.asked (passes.map (·.info))
        (w.run (openListed w.inputBound credential w.inputBound .empty)) := by
  have hsize : w.delivered.size + 2 ≤ w.inputBound :=
    Nat.add_le_add_right (size_deliveredBytes_le w.input) 2
  have hsrc : Unasked (deliveredSupply w.delivered w.Fails) (w.asked ++ []) w.provider () w .empty
      false := by
    rw [List.append_nil]
    exact ⟨deliveredSupply_start fun e he => ⟨e, he, rfl⟩, rfl, rfl⟩
  exact opensListed_openLogged []
    (feeds_delivered w.inputBound w.delivered w.Fails w.asked w.provider) hsrc hsize (by omega)

/-- **What decryption fails with** it has found, or it was brought from outside. -/
theorem isVerdict_of_decrypt {w v : World} {fault : Fault}
    (h : w.decrypt credential = (.error fault, v)) : fault.IsVerdict ∨ w.MayBring fault := by
  have haccountable : ∀ {fault}, Accountable w.Fails w.provider w.asked fault →
      fault.IsVerdict ∨ w.MayBring fault := by
    rintro fault (hfails | hverdict | hanswer)
    · exact .inr (.inl hfails)
    · exact .inl hverdict
    · exact .inr (.inr hanswer)
  obtain ⟨passes, -, hlisted⟩ := opensListed_start credential w
  rw [decrypt_eq, openStream, run_openPasses_eq] at h
  generalize w.run (openListed w.inputBound credential w.inputBound .empty) = x at h hlisted
  obtain ⟨⟨fault' | p, infos⟩, w'⟩ := x
  · cases h
    exact haccountable hlisted.2
  · obtain ⟨-, clear, asked', S, bad', hfeeds, hsrc, hsize, hfaults⟩ := hlisted
    have hread := run_readAll hfeeds hsrc hsize
    rw [show w'.run (p.readAll Decryptor.engine w.inputBound) = (.error fault, v) from h] at hread
    exact haccountable (hfaults fault hread)

end World

/-- **Decryption is total and bounded**, whatever the input is, however it is delivered, and
whatever the answers are.  It ends with a clear text or with a fault that was found or brought.  The
passes of which the head is verified nest; one that is unwrapped further is a framed one, and at
least ninety bytes longer than what it opens to, so there are only so many.  And wherever received
bytes are taken apart, nothing is asked for that is not there. -/
theorem decrypt_is_bounded (credential : Credential) (w : World) :
    (∀ fault v, w.decrypt credential = (.error fault, v) → fault.IsVerdict ∨ w.MayBring fault) ∧
    (∃ passes : List VerifiedPass,
      let listed := w.run (openListed w.inputBound credential w.inputBound .empty)
      w.run (openStream w.inputBound credential) = (listed.1.1, listed.2) ∧
      listed.1.2 = passes.map (·.info) ∧
      Nested credential w.provider w.asked w.delivered passes ∧
      (∀ p ∈ passes, 1 < p.info.loop.index →
        (p.info.version = Limits.version4 ∨ p.info.version = Limits.version5) ∧
          ∀ clear, p.clear = some clear → clear.size + 90 ≤ p.cipher.size) ∧
      passes.length ≤ w.bytes.size / 90 + 1) ∧
    PartsAreThere := by
  refine ⟨fun _ _ => World.isVerdict_of_decrypt, ?_, parts_are_there⟩
  obtain ⟨passes, hnested, hlisted⟩ := w.opensListed_start credential
  refine ⟨passes, run_openPasses_eq _ _ _ _ _, ?_, hnested, hnested.size_add_le, ?_⟩
  · generalize w.run (openListed w.inputBound credential w.inputBound .empty) = x at hlisted ⊢
    obtain ⟨⟨fault | p, infos⟩, w'⟩ := x
    · exact hlisted.1
    · exact hlisted.1
  · have hdelivered : w.delivered.size ≤ w.bytes.size := by
      rw [World.bytes, size_itemsBytes]
      exact size_deliveredBytes_le w.input
    have hlength : passes.length ≤ w.delivered.size / 90 + 1 := hnested.length_le
    omega

end SealedStream
