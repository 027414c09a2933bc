import SealedStream.Proofs.Decryptor
import SealedStream.Proofs.Encryptor
import SealedStream.Proofs.Trace

/-!
# What all steps of a session have

The steps of a session are put together from few parts: it reads from its input, changes its state,
draws, asks and derives, and in between it computes and fails.  So a property that is closed under
putting steps together (`Step.Closed`) is a property of a whole step once the parts have it.  Each
function of a session is walked through here once, for every such property.

* `Encryptor.Closed.sealHead`, `Encryptor.Closed.nextChunk`: what encryption does.
* `Decryptor.Closed.decodeHead`, `Decryptor.Closed.decryptBlock`: what decryption does.
* `Encryptor.readsOnly_nextChunk`, `Decryptor.readsOnly_openPass`: what does no more than read.
-/

namespace SealedStream

variable {σ α : Type}

/-- A property of steps on some states that those have which only compute or fail, and that is
closed under sequences and under handlers that throw again what they catch. -/
structure Step.Closed (P : (α : Type) → Step σ α → Prop) : Prop where
  pure : ∀ {α : Type} (a : α), P α (Pure.pure a)
  throw : ∀ {α : Type} (fault : Fault), P α (MonadExcept.throw fault)
  get : P σ MonadState.get
  except : ∀ {α : Type} (x : Except Fault α), P α (liftM x)
  bind : ∀ {α β : Type} {x : Step σ α} {f : α → Step σ β}, P α x → (∀ a, P β (f a)) →
    P β (x >>= f)
  rethrow : ∀ {α : Type} {x : Step σ α} (f : σ → σ), P α x →
    P α (tryCatch x fun fault => do
      modifyThe σ f
      MonadExcept.throw fault)

/-! ### Readers -/

namespace ChunkReader

/-- A closed property that the parts of reading have. -/
structure Closed (P : (α : Type) → Step ChunkReader α → Prop) : Prop extends Step.Closed P where
  collect : ∀ want inUse, P Unit (collect want inUse)
  handOut : ∀ n, P Chunk (handOut n)

namespace Closed

variable {P : (α : Type) → Step ChunkReader α → Prop} (h : Closed P) (n : Nat) (inUse : Bool)

include h

theorem readAvailable : P Chunk (readAvailable n inUse) :=
  h.bind (h.collect _ _) fun _ => h.handOut _

theorem readFill : P Chunk (readFill n inUse) :=
  h.bind (h.collect _ _) fun _ => h.handOut _

theorem readToLimit : P Chunk (readToLimit n inUse) := by
  refine h.bind (h.collect _ _) fun _ => h.bind h.get fun r => ?_
  dsimp only
  split
  · exact h.bind (h.throw _) fun _ => h.handOut _
  · exact h.handOut _

end Closed

end ChunkReader

/-! ### Encryption -/

namespace Encryptor

/-- A closed property that any change of a session has. -/
structure Closed (P : (α : Type) → Step Encryptor α → Prop) : Prop extends Step.Closed P where
  modify : ∀ f, P PUnit (modifyThe Encryptor f)

namespace Closed

variable {P : (α : Type) → Step Encryptor α → Prop} (h : Closed P) {settings : PassSettings}

include h

theorem require (expected : Stage) (operation : String) : P Unit (require expected operation) :=
  h.bind h.get fun _ => h.except _

theorem nextChunk (hread : ∀ n, P Chunk (Step.onPart reader (fun e reader => { e with reader })
    (ChunkReader.readAvailable n false))) : P Chunk nextChunk :=
  h.bind h.get fun e => h.bind (hread e.readTarget) fun _ => h.bind (h.modify _) fun _ => h.pure _

theorem finishBlock (parts : SealedParts) (last : Bool) : P Block (finishBlock parts last) :=
  h.bind h.get fun _ => h.bind (h.except _) fun _ => h.bind (h.modify _) fun _ => h.pure _

theorem sealHead (hderive : ∀ d, P Key (Step.ofProgram (Host.derive d))) (chunk : Chunk)
    (salt : Bytes 16) (iv : ByteArray) (answer : Answer) :
    P Block (sealHead settings chunk salt iv answer) := by
  unfold Encryptor.sealHead
  by_cases hhint : Limits.hintMaxChars < (answer.hint.getD "").length
  · rw [if_pos hhint]
    exact h.throw _
  · rw [if_neg hhint]
    exact h.bind h.get fun e => h.bind (h.except _) fun derivation => h.bind (hderive _) fun key =>
      h.bind (h.except _) fun sealedHint => h.bind (h.except _) fun parts =>
        h.bind (h.modify _) fun _ => h.finishBlock _ _

end Closed

end Encryptor

/-! ### Decryption -/

namespace Decryptor

/-- A closed property that the parts of decryption have: reads, moves to other stages but that of
failed sessions, and changes of neither the stage nor the metadata. -/
structure Closed (P : (α : Type) → Step Decryptor α → Prop) : Prop extends Step.Closed P where
  modify : ∀ f, (∀ d, (f d).stage = d.stage ∧ (f d).metadata = d.metadata) →
    P PUnit (modifyThe Decryptor f)
  enter : ∀ next, next ≠ .failed → P Unit (enter next)
  readFill : ∀ n inUse, P Chunk (onReader (ChunkReader.readFill n inUse))
  readToLimit : ∀ limit inUse, P Chunk (onReader (ChunkReader.readToLimit limit inUse))

namespace Closed

variable {P : (α : Type) → Step Decryptor α → Prop} (h : Closed P)

include h

theorem settle {step : Step Decryptor α} (hstep : P α step) : P α (settle step) :=
  h.rethrow _ hstep

theorem require (expected : List Stage) (operation : String) :
    P Unit (require expected operation) :=
  h.bind h.get fun _ => h.except _

theorem readPayload (size : Nat) : P ByteArray (readPayload size) := by
  refine h.bind (h.readFill _ _) fun chunk => ?_
  split
  · exact h.bind (h.throw _) fun _ => h.pure _
  · exact h.pure _

theorem verifyHead (d : Decryptor) (header : ByteArray) : P VerifiedHead (verifyHead d header) := by
  unfold Decryptor.verifyHead
  split
  · exact h.bind (h.readToLimit _ _) fun rest => h.except _
  · exact h.bind (h.except _) fun frame => h.bind (h.readPayload _) fun payload => h.except _

/-- Verifying a head tells the session its metadata. -/
theorem decodeHead (hmodify : ∀ f, P PUnit (modifyThe Decryptor f)) : P PassInfo decodeHead := by
  refine h.bind h.get fun d => ?_
  have hverify : ∀ header, P PassInfo (do
      modifyThe Decryptor ({ · with header := none })
      let head ← Decryptor.verifyHead d header
      Decryptor.enter .headDecoded
      modifyThe Decryptor ({ · with metadata := head.info, head })
      return head.info) := fun header =>
    h.bind (hmodify _) fun _ => h.bind (h.verifyHead d header) fun head =>
      h.bind (h.enter _ (by decide)) fun _ => h.bind (hmodify _) fun _ => h.pure _
  cases d.metadata with
  | none =>
    refine h.bind (h.require _ _) fun _ => ?_
    split
    · exact h.throw _
    · exact hverify _
  | some info =>
    dsimp only
    split
    · exact h.pure _
    · refine h.bind (h.require _ _) fun _ => ?_
      split
      · exact h.throw _
      · exact hverify _

theorem finish : P ByteArray finish :=
  h.bind (h.enter _ (by decide)) fun _ => h.bind (h.modify _ fun _ => ⟨rfl, rfl⟩) fun _ => h.pure _

theorem openHead
    (hask : ∀ info, P Answer (do liftM (← Step.ofProgram (Host.password info))))
    (hderive : ∀ d, P Key (Step.ofProgram (Host.derive d))) (info : PassInfo) :
    P ByteArray (openHead info) := by
  refine h.bind h.get fun d => ?_
  split
  · exact h.throw _
  next head =>
    refine h.bind (h.modify _ fun _ => ⟨rfl, rfl⟩) fun _ => ?_
    rw [← bind_assoc]
    exact h.bind (hask info) fun answer => h.bind (h.except _) fun derivation =>
      h.bind (hderive _) fun cipher => h.bind (h.except _) fun clear =>
        h.bind (h.enter _ (by decide)) fun _ =>
          h.bind (h.modify _ fun _ => ⟨rfl, rfl⟩) fun _ => h.pure _

theorem decryptFrame (header : ByteArray) : P ByteArray (decryptFrame header) := by
  refine h.bind h.get fun d => h.bind (h.except _) fun frame => h.bind (h.readPayload _)
    fun payload => ?_
  split
  · exact h.throw _
  · refine h.bind (h.except _) fun block => ?_
    have hlater : ∀ clear : Except Fault ByteArray, P ByteArray (do
        let clear ← clear
        Decryptor.enter .headDone
        modifyThe Decryptor ({ · with lastTag := some block.tag, lastFlags := block.flags })
        return clear) := fun clear =>
      h.bind (h.except _) fun _ => h.bind (h.enter _ (by decide)) fun _ =>
        h.bind (h.modify _ fun _ => ⟨rfl, rfl⟩) fun _ => h.pure _
    split
    · exact h.bind (h.throw _) fun _ => hlater _
    · exact hlater _

theorem decryptFurther : P ByteArray decryptFurther := by
  refine h.settle (h.bind (h.require _ _) fun _ => h.bind h.get fun d => ?_)
  split
  · exact h.finish
  · refine h.bind (h.readFill _ _) fun chunk => ?_
    split
    · split
      · exact h.bind (h.throw _) fun _ => h.finish
      · exact h.finish
    split
    · exact h.throw _
    · exact h.decryptFrame _

section head

variable (hdecode : P PassInfo Decryptor.decodeHead)
  (hask : ∀ info, P Answer (do liftM (← Step.ofProgram (Host.password info))))
  (hderive : ∀ d, P Key (Step.ofProgram (Host.derive d)))

include hdecode hask hderive

theorem decryptHead : P ByteArray decryptHead := by
  rw [decryptHead_eq]
  exact h.settle (h.bind (h.require _ _) fun _ => h.bind hdecode fun info =>
    h.openHead hask hderive info)

theorem decryptBlock : P ByteArray decryptBlock := by
  refine h.bind h.get fun d => ?_
  split
  · exact h.decryptHead hdecode hask hderive
  · exact h.decryptHead hdecode hask hderive
  · exact h.decryptFurther

end head

end Closed

end Decryptor

/-! ### Steps that only read -/

theorem Step.ReadsOnly.closed : Closed fun _ (step : Step σ _) => step.ReadsOnly where
  pure _ _ := .done _
  throw _ _ := .done _
  get _ := .done _
  except x s := by
    cases x with
    | ok a => exact .done _
    | error fault => exact .done _
  bind := .bind
  rethrow f h s := by
    rw [Step.tryCatch_apply]
    refine (h s).bind fun r => ?_
    rcases r with ⟨fault | a, t⟩
    · exact .done _
    · exact .done _

namespace ChunkReader

theorem closed_readsOnly : Closed fun _ step => step.ReadsOnly where
  toClosed := Step.ReadsOnly.closed
  collect want inUse r := readsOnly_fill want inUse r
  handOut _ _ := .done _

end ChunkReader

namespace Encryptor

theorem closed_readsOnly : Closed fun _ step => step.ReadsOnly where
  toClosed := Step.ReadsOnly.closed
  modify _ _ := .done _

theorem readsOnly_nextChunk : nextChunk.ReadsOnly :=
  closed_readsOnly.nextChunk fun n => .onPart (ChunkReader.closed_readsOnly.readAvailable n false)

end Encryptor

namespace Decryptor

theorem closed_readsOnly : Closed fun _ step => step.ReadsOnly where
  toClosed := Step.ReadsOnly.closed
  modify _ _ _ := .done _
  enter _ _ := .bind Step.ReadsOnly.closed.get fun _ =>
    .bind (Step.ReadsOnly.closed.except _) fun _ _ => .done _
  readFill n inUse := .onPart (ChunkReader.closed_readsOnly.readFill n inUse)
  readToLimit n inUse := .onPart (ChunkReader.closed_readsOnly.readToLimit n inUse)

/-- **Opening a pass** does no more than read. -/
theorem readsOnly_openPass (credential : Credential) : (openPass credential).ReadsOnly := by
  unfold openPass start
  refine .bind (.bind (ChunkReader.closed_readsOnly.readFill _ _ _) fun x => .done _)
    fun result => ?_
  rcases result with fault | d
  · exact .done _
  · refine Program.ReadsOnly.bind ?_ fun _ => .done _
    exact closed_readsOnly.settle (closed_readsOnly.decodeHead fun _ _ => .done _) d

end Decryptor

end SealedStream
