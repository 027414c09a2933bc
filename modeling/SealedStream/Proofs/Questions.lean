import SealedStream.Proofs.RoundTrip

/-!
# What is asked, and when

A pipeline does nothing until it is read from, and then as much as it takes for a first byte.  When
it encrypts, that is all of its heads, so that the first read puts all questions, from the innermost
pass to the outermost.  When it decrypts, all heads but the innermost have been read while the
stream was being opened, and the first read puts the one question that is left (`AsksFirst`).

* `Flow.exists_asked_of_reads`: what has been asked after any reads, of whatever sizes.
* `asks_of_encrypt`: what is asked for the passes of a plan, and for the same passes again when they
  are decrypted.

How much a first read asks does not depend on its size, since an outlet looks at the size only when
it has bytes to hand out.
-/

namespace SealedStream

variable {ε : Type} {E : Engine ε} {bound size : Nat} {p p' q : Pipeline ε} {v w w' : World}
  {bytes given all cipher : ByteArray} {ended : Bool} {made : List PassInfo} {plan : Plan}
  {credential : Credential}

/-! ### Reads of a pipeline -/

/-- A pipeline has been read from, in pieces of any sizes, and has given the bytes `given`; no read
goes on behind the end. -/
inductive Pipeline.Reads (E : Engine ε) (bound : Nat) (p : Pipeline ε) (w : World) :
    (given : ByteArray) → (ended : Bool) → Pipeline ε → World → Prop
  | start : Reads E bound p w .empty false p w
  | read {given bytes : ByteArray} {p' p'' : Pipeline ε} {w' w'' : World} {size : Nat} :
    Reads E bound p w given false p' w' → 0 < size →
      w'.run (p'.read E bound size) = ((.ok bytes, p''), w'') →
      Reads E bound p w (given ++ bytes) bytes.isEmpty p'' w''

/-- The first read of a pipeline asks `made`, whatever its size, and no later read asks anything. -/
structure Pipeline.AsksFirst (E : Engine ε) (bound : Nat) (p : Pipeline ε) (w : World)
    (made : List PassInfo) : Prop where
  first : ∀ size, 0 < size → ∃ bytes p' v,
    w.run (p.read E bound size) = ((.ok bytes, p'), v) ∧ v.asked = w.asked ++ made
  later : ∀ given ended p' v, p.Reads E bound w given ended p' v →
    given ≠ .empty ∨ ended = true → v.asked = w.asked ++ made

namespace Layers

/-- The size of a read says only how the bytes of an outlet are split. -/
theorem run_read_succ (n size : Nat) (o : Outlet ε) (below : Layers ε n) (w : World) :
    w.run (Layers.read E bound (n + 1) size (o, below)) =
      match Source.run (Layers.read E bound n) (Outlet.fill E bound o) below w with
      | (((.error e, o), below), w) => ((.error e, (o, below)), w)
      | (((.ok _, o), below), w) => ((.ok (o.pending.extract 0 size),
          ({ o with pending := o.pending.extract size o.pending.size }, below)), w) := by
  have hrun : w.run (Layers.read E bound (n + 1) size (o, below))
      = (((Source.run (Layers.read E bound n) (Outlet.read E bound size o) below w).1.1.1,
          ((Source.run (Layers.read E bound n) (Outlet.read E bound size o) below w).1.1.2,
            (Source.run (Layers.read E bound n) (Outlet.read E bound size o) below w).1.2)),
        (Source.run (Layers.read E bound n) (Outlet.read E bound size o) below w).2) := by
    rw [Layers.read, World.run_bind]
    rfl
  rw [hrun, Outlet.read, Source.run_bind]
  generalize Source.run (Layers.read E bound n) (Outlet.fill E bound o) below w = x
  rcases x with ⟨⟨⟨e | u, o⟩, below⟩, w⟩
  · rfl
  · rfl

end Layers

namespace Pipeline

/-- **A read of another size** succeeds as well, and leaves the world the same. -/
theorem exists_read_of_read (hdepth : p.depth ≠ 0)
    (h : w.run (p.read E bound size) = ((.ok bytes, p'), v)) (size' : Nat) :
    ∃ bytes' q, w.run (p.read E bound size') = ((.ok bytes', q), v) := by
  rcases p with ⟨_ | n, layers⟩
  · exact absurd rfl hdepth
  rcases layers with ⟨o, below⟩
  rw [run_read, Layers.run_read_succ] at h ⊢
  generalize Source.run (Layers.read E bound n) (Outlet.fill E bound o) below w = x at h ⊢
  rcases x with ⟨⟨⟨e | u, o⟩, below⟩, w⟩
  · cases h
  · cases h
    exact ⟨_, _, rfl⟩

/-- A first read finds bytes, or the end. -/
theorem given_or_ended (bytes : ByteArray) :
    .empty ++ bytes ≠ .empty ∨ bytes.isEmpty = true := by
  rw [ByteArray.empty_append]
  by_cases hempty : bytes.isEmpty = true
  · exact .inr hempty
  · exact .inl fun h => hempty (isEmpty_iff.2 h)

namespace Reads

/-- Nothing has been read, or a first read has succeeded. -/
theorem eq_or_exists_first (h : p.Reads E bound w given ended p' v) :
    (p' = p ∧ v = w ∧ given = .empty ∧ ended = false) ∨
      ∃ size bytes q w', w.run (p.read E bound size) = ((.ok bytes, q), w') := by
  induction h with
  | start => exact .inl ⟨rfl, rfl, rfl, rfl⟩
  | read _ _ hrun ih =>
    rcases ih with ⟨rfl, rfl, -, -⟩ | hfirst
    · exact .inr ⟨_, _, _, _, hrun⟩
    · exact .inr hfirst

/-- **What reads keep** of a source. -/
theorem supplied {Src : Supply (Layers ε p.depth)} {bad : Fault → Prop}
    (hs : Supplies (Layers.read E bound p.depth) Src bad) (hsrc : Src p.layers w .empty false)
    (h : p.Reads E bound w given ended p' v) :
    ∃ l, p' = ⟨p.depth, l⟩ ∧ Src l v given ended := by
  induction h with
  | start => exact ⟨p.layers, rfl, hsrc⟩
  | @read given bytes p' p'' w' w'' size _ hsize hrun ih =>
    rcases ih with ⟨l, rfl, hl⟩
    have hgives := hs hsize hl
    rw [run_read] at hrun
    generalize w'.run (Layers.read E bound p.depth size l) = x at hgives hrun
    rcases x with ⟨⟨e | bytes', l'⟩, v⟩
    · cases hrun
    · cases hrun
      exact ⟨l', rfl, hgives⟩

/-- Reading everything is reading so often that the end is found. -/
theorem of_readFrom {n : Nat} {out : ByteArray} (h : p.Reads E bound w out false p' v)
    (hrun : v.run (readFrom E bound n out p') = (.ok all, w')) :
    ∃ q, p.Reads E bound w all true q w' := by
  induction n generalizing out p' v with
  | zero => cases hrun
  | succ n ih =>
    unfold readFrom at hrun
    rw [World.run_bind] at hrun
    rcases hread : v.run (p'.read E bound pieceSize) with ⟨⟨e | bytes, q⟩, v'⟩
    · rw [hread] at hrun
      cases hrun
    · rw [hread] at hrun
      have hreads := h.read (by decide) hread
      by_cases hempty : bytes.isEmpty = true
      · simp only [if_pos hempty] at hrun
        rw [hempty, isEmpty_iff.1 hempty, ByteArray.append_empty] at hreads
        cases hrun
        exact ⟨q, hreads⟩
      · simp only [if_neg hempty] at hrun
        rw [Bool.eq_false_iff.2 hempty] at hreads
        exact ih hreads hrun

end Reads

end Pipeline

/-! ### Encryption -/

section flow

variable {provider : List PassInfo → Except Fault Answer} {limit : Nat} {bad : Fault → Prop}
  {S : Phase → Supply (Layers ε p.depth)}

/-- **After a first read**, of whatever size, a source has put the same questions, and goes on
without any more. -/
theorem Flow.supplies_since (hflow : Flow (Layers.read E bound p.depth) provider limit bad S)
    (hstart : S .start p.layers w .empty false) (hdepth : p.depth ≠ 0)
    (hfirst : w.run (p.read E bound size) = ((.ok bytes, q), w')) :
    Supplies (Layers.read E bound p.depth)
      (fun l v given ended => (l = p.layers ∧ v = w ∧ given = .empty ∧ ended = false) ∨
        S (.asked w'.asked []) l v given ended) bad := by
  intro n l v given hn h
  rcases h with ⟨rfl, rfl, rfl, -⟩ | h
  · have hgives := hflow.supplies .start hn hstart
    rcases Pipeline.exists_read_of_read hdepth hfirst n with ⟨bytes', q', hrun⟩
    rw [Pipeline.run_read] at hrun
    generalize v.run (Layers.read E bound p.depth n p.layers) = x at hgives hrun
    rcases x with ⟨⟨e | bytes'', l'⟩, v'⟩
    · cases hrun
    · cases hrun
      rcases hflow.begun _ _ _ _ hgives (Pipeline.given_or_ended bytes') with ⟨before, hbefore⟩
      have hasked := hflow.asked _ _ _ _ _ _ hbefore
      rw [List.append_nil] at hasked
      rw [← hasked] at hbefore
      exact .inr hbefore
  · have hgives := hflow.supplies (.asked w'.asked []) hn h
    generalize v.run (Layers.read E bound p.depth n l) = x at hgives ⊢
    rcases x with ⟨⟨e | bytes', l'⟩, v'⟩
    · exact hgives
    · exact .inr hgives

/-- **What has been asked** after any reads is what has been asked after the first. -/
theorem Flow.exists_asked_of_reads
    (hflow : Flow (Layers.read E bound p.depth) provider limit bad S)
    (hstart : S .start p.layers w .empty false) (hdepth : p.depth ≠ 0)
    (hfirst : w.run (p.read E bound size) = ((.ok bytes, q), w'))
    (h : p.Reads E bound w given ended p' v) (hgiven : given ≠ .empty ∨ ended = true) :
    v.asked = w'.asked ∧ ∃ l, S (.asked w'.asked []) l v given ended := by
  have hsupplies := hflow.supplies_since hstart hdepth hfirst
  rcases h.supplied hsupplies (.inl ⟨rfl, rfl, rfl, rfl⟩) with ⟨l, -, ⟨-, -, rfl, rfl⟩ | hl⟩
  · rcases hgiven with hne | hended
    · exact absurd rfl hne
    · cases hended
  · have hasked := hflow.asked _ _ _ _ _ _ hl
    rw [List.append_nil] at hasked
    exact ⟨hasked, l, hl⟩

end flow

/-- **Encryption asks at its first read**, one question for each pass of its plan. -/
theorem exists_asksFirst_of_encrypt (h : w.encrypt plan credential = (.ok cipher, w')) :
    ∃ made, w'.asked = w.asked ++ made ∧ plan.Questions plan.count made ∧
      (plan.pipeline credential).AsksFirst EncryptedPass.engine (plan.outputBound w.inputBound) w
        made := by
  rcases plan.exists_flow (fun _ => True) (w := w) credential (fun _ _ => trivial)
    (fun _ _ => .inr fun _ => trivial) with ⟨limit, S, -, hflow, hthrough, hstart⟩
  have hdepth := plan.depth_pipeline credential
  rcases Pipeline.Reads.of_readFrom .start h with ⟨q, hreads⟩
  rcases hreads.eq_or_exists_first with ⟨-, -, -, hended⟩ | ⟨size, bytes, q', v, hfirst⟩
  · cases hended
  rcases hflow.exists_asked_of_reads hstart hdepth hfirst hreads (.inr rfl) with ⟨hasked, l, hl⟩
  rcases hthrough.questions _ _ _ _ _ _ hl with ⟨made, hmade, hquestions⟩
  refine ⟨made, hasked.trans hmade, hquestions, ?_, ?_⟩
  · intro size' _
    rcases Pipeline.exists_read_of_read hdepth hfirst size' with ⟨bytes', q'', hrun⟩
    exact ⟨bytes', q'', v, hrun, hmade⟩
  · intro given ended p' u hreads' hgiven
    have hsame := hflow.exists_asked_of_reads hstart hdepth hfirst hreads' hgiven
    rw [hsame.1, hmade]

/-! ### Decryption -/

/-- **What a source of known bytes asks**, it asks at the first read. -/
theorem Feeds.asksFirst {p : Pipeline Decryptor} {provider : List PassInfo → Except Fault Answer}
    {S : List PassInfo → Supply (Layers Decryptor p.depth)} {bad : Fault → Prop}
    (hfeeds : Feeds (Layers.read Decryptor.engine bound p.depth) all (w.asked ++ made) provider S
      bad) (hbad : ∀ fault, ¬ bad fault) (hsrc : S [] p.layers w .empty false) :
    p.AsksFirst Decryptor.engine bound w made := by
  have hsupplies := hfeeds.supplies []
  constructor
  · intro size hsize
    have hgives := hsupplies hsize hsrc
    rcases hrun : w.run (Layers.read Decryptor.engine bound p.depth size p.layers) with
      ⟨⟨e | bytes, l⟩, v⟩
    · rw [hrun] at hgives
      exact absurd hgives (hbad _)
    · rw [hrun] at hgives
      have hgiven : .empty ++ bytes ≠ .empty ∨ bytes.isEmpty = true := Pipeline.given_or_ended bytes
      have hasked := hfeeds.questions hgiven hgives
      rw [List.append_nil] at hasked
      refine ⟨bytes, ⟨p.depth, l⟩, v, ?_, hasked⟩
      rw [Pipeline.run_read, hrun]
  · intro given ended p' v hreads hgiven
    rcases hreads.supplied hsupplies hsrc with ⟨l, -, hl⟩
    have hasked := hfeeds.questions hgiven hl
    rwa [List.append_nil] at hasked

/-- **Decryption asks all but the last question** while it opens a stream, and the last at the first
read. -/
theorem exists_asksFirst_of_unwraps {infos : List PassInfo} (hp : v.InPieces)
    (h : Unwraps credential v.provider v.asked v.bytes infos all) :
    ∃ p v', v.run (openStream v.inputBound credential) = (.ok p, v') ∧
      v'.asked = v.asked ++ infos.dropLast ∧
      p.AsksFirst Decryptor.engine v.inputBound v' [infos.getLast h.infos_ne] ∧
      ∃ v'', v'.run (p.readAll Decryptor.engine v.inputBound) = (.ok all, v'') := by
  rcases World.exists_openStream_of_unwraps hp h with
    ⟨p, v', S, bad, hrun, hasked, hbad, hfeeds, hsrc, hsize⟩
  rcases exists_readAll hfeeds hbad hsrc hsize with ⟨v'', hread, -⟩
  have hinfos : v.asked ++ infos = v'.asked ++ [infos.getLast h.infos_ne] := by
    rw [hasked, List.append_assoc, List.dropLast_append_getLast]
  rw [hinfos] at hfeeds
  exact ⟨p, v', hrun, hasked, hfeeds.asksFirst hbad hsrc, v'', hread⟩

/-! ### Both ends -/

/-- **What is asked, and when.**  Encryption asks one question for each pass of its plan, from the
innermost to the outermost, all of them at the first read.  Where the same passes are decrypted with
the same passwords, the same questions are asked from the outermost to the innermost, with the hints
that were given for them: all but the last while the stream is opened, and that one at the first
read. -/
theorem asks_of_encrypt (plan : Plan) (credential : Credential) {w w' : World} {cipher : ByteArray}
    (h : w.encrypt plan credential = (.ok cipher, w')) :
    ∃ made, w'.asked = w.asked ++ made ∧
      List.Forall₂ (fun settings info => ∃ salt iv, info = settings.question salt iv) plan.passes
        made ∧
      (plan.pipeline credential).AsksFirst EncryptedPass.engine (plan.outputBound w.inputBound) w
        made ∧
      ∀ v : World, v.InPieces → v.bytes = cipher →
        SamePasswords w.provider w.asked made v.provider v.asked
          (shownInfos w.provider w.asked made) →
        ∃ (opening : List PassInfo) (last : PassInfo) (p : Pipeline Decryptor) (v' v'' : World),
          opening ++ [last] = shownInfos w.provider w.asked made ∧
          (opening ++ [last]).map PassInfo.withoutHint = made.reverse ∧
          v.run (openStream v.inputBound credential) = (.ok p, v') ∧
          v'.asked = v.asked ++ opening ∧
          p.AsksFirst Decryptor.engine v.inputBound v' [last] ∧
          v'.run (p.readAll Decryptor.engine v.inputBound) = (.ok w.delivered, v'') := by
  rcases exists_asksFirst_of_encrypt h with ⟨made, hasked, hquestions, hfirst⟩
  rcases (World.encryptedThrough_of_encrypt h).exists_unwraps with ⟨made', hmade', hshown, hunwraps⟩
  have hsame : made' = made := by
    rw [hasked] at hmade'
    exact (List.append_cancel_left hmade').symm
  subst hsame
  rw [Plan.Questions, plan.take_passes] at hquestions
  refine ⟨made', hasked, hquestions, hfirst, ?_⟩
  intro v hp hbytes hpasswords
  have hcount : plan.count ≠ 0 := Nat.ne_of_gt plan.length_mem.1
  have hopens := hunwraps v.provider v.asked hcount hpasswords
  rw [← hbytes] at hopens
  rcases exists_asksFirst_of_unwraps hp hopens with ⟨p, v', hrun, hopening, hasks, v'', hread⟩
  have hsplit := List.dropLast_append_getLast hopens.infos_ne
  refine ⟨_, _, p, v', v'', hsplit, ?_, hrun, hopening, hasks, hread⟩
  rw [hsplit]
  exact hshown

/-- Three bytes, encrypted in two passes: what is asked for them, and what is asked before the first
read of their decryption. -/
theorem asks_of_encrypt_threeBytes :
    ∃ (cipher : ByteArray) (items : List InputItem) (w' v' : World) (p : Pipeline Decryptor),
      let plan : Plan :=
        ⟨[.aegis256, .aesGcm], Limits.iterationsDefault, 1, by decide, by decide, by decide⟩
      let w : World :=
        { input := [.data (ofList [1, 2, 3])], provider := fun _ => .ok ⟨"secret", some "usual"⟩ }
      let v : World := { input := items, provider := fun _ => .ok ⟨"secret", none⟩ }
      w.encrypt plan ⟨.zeros 32⟩ = (.ok cipher, w') ∧ v.InPieces ∧ v.bytes = cipher ∧
        w'.asked.map PassInfo.loop = [⟨1, 2⟩, ⟨2, 2⟩] ∧ w'.asked.map PassInfo.hint = [none, none] ∧
        v.run (openStream v.inputBound ⟨.zeros 32⟩) = (.ok p, v') ∧
        v'.asked.map PassInfo.loop = [⟨2, 2⟩] ∧ v'.asked.map PassInfo.hint = [some "usual"] := by
  let plan : Plan :=
    ⟨[.aegis256, .aesGcm], Limits.iterationsDefault, 1, by decide, by decide, by decide⟩
  let w : World :=
    { input := [.data (ofList [1, 2, 3])], provider := fun _ => .ok ⟨"secret", some "usual"⟩ }
  have hw : w.InPieces := by decide
  have hanswers : ∀ before info, Usable (w.provider (before ++ [info])) :=
    fun _ _ => ⟨_, rfl, by decide, by decide⟩
  rcases World.exists_encrypt_eq plan ⟨.zeros 32⟩ hw hanswers with ⟨cipher, w', hrun, -⟩
  rcases exists_pieces cipher with ⟨items, hitems, hbytes⟩
  let v : World := { input := items, provider := fun _ => .ok ⟨"secret", none⟩ }
  rcases asks_of_encrypt plan ⟨.zeros 32⟩ hrun with ⟨made, hasked, hmade, -, hdecrypts⟩
  have hsame : SamePasswords w.provider w.asked made v.provider v.asked
      (shownInfos w.provider w.asked made) :=
    samePasswords_const ⟨"secret", some "usual"⟩ ⟨"secret", none⟩ rfl _ _ _ _
  rcases hdecrypts v hitems hbytes hsame with
    ⟨opening, last, p, v', v'', hshown, -, hopen, hopening, -, -⟩
  have hpasses : plan.passes = [plan.pass ⟨0, by decide⟩, plan.pass ⟨1, by decide⟩] := rfl
  rw [hpasses, List.forall₂_cons_left_iff] at hmade
  rcases hmade with ⟨q₁, rest, ⟨salt₁, iv₁, rfl⟩, hrest, rfl⟩
  rw [List.forall₂_cons_left_iff] at hrest
  rcases hrest with ⟨q₂, rest, ⟨salt₂, iv₂, rfl⟩, hrest, rfl⟩
  rw [List.forall₂_nil_left_iff] at hrest
  subst hrest
  have hkept : keptHint "usual" = some "usual" := by decide
  have hfirst : opening = [((plan.pass ⟨1, by decide⟩).question salt₂ iv₂).withHintOf
      (.ok ⟨"secret", some "usual"⟩)] :=
    List.append_inj_left' hshown rfl
  refine ⟨cipher, items, w', v', p, hrun, hitems, hbytes, ?_, ?_, hopen, ?_, ?_⟩
  · rw [hasked]
    rfl
  · rw [hasked]
    rfl
  · rw [hopening, hfirst]
    rfl
  · rw [hopening, hfirst]
    show [keptHint "usual"] = [some "usual"]
    rw [hkept]

end SealedStream
