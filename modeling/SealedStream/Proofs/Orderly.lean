import SealedStream.Proofs.Opening

/-!
# What checks fail with

A fault that is found by a check of bytes, of an answer or of a sealed text is a verdict on these
(`Fault.IsVerdict`).  No such check fails in another way (`Orderly`): a refused operation tells of
the session alone, and a bound that was exceeded of the loop that has it.

* `orderly_verifyHead`, `orderly_verifyMessage`: verifying the head of a pass.
* `orderly_decrypt`, `orderly_nextOf`: opening its blocks.
-/

namespace SealedStream

/-- A fault that tells of bytes, of an answer or of a sealed text. -/
def Fault.IsVerdict : Fault → Prop
  | .invalidArgument _ | .malformedField _ _ | .protocolVersion _ | .sizeMismatch _ _ _ => True
  | .integrityFailure | .decryptionFailure | .missingTerminal | .extraTerminal => True
  | .stageViolation _ _ | .cancelled | .unbounded | .io _ _ => False

variable {α β : Type}

/-- A check that fails with no other fault than a verdict. -/
def Orderly (x : Except Fault α) : Prop :=
  ∀ fault, x = .error fault → fault.IsVerdict

theorem orderly_ok (a : α) : Orderly (.ok a) := nofun

theorem orderly_error {fault : Fault} (h : fault.IsVerdict) :
    Orderly (.error fault : Except Fault α) := by
  intro fault' he
  cases he
  exact h

theorem Orderly.bind {x : Except Fault α} {f : α → Except Fault β} (hx : Orderly x)
    (hf : ∀ a, Orderly (f a)) : Orderly (x >>= f) := by
  intro fault h
  rcases bind_eq_error.1 h with h | ⟨a, -, h⟩
  · exact hx fault h
  · exact hf a fault h

/-- A check that goes on unless a condition holds. -/
theorem Orderly.unless {c : Prop} [Decidable c] {fault : Fault} {x : Except Fault α}
    (hfault : fault.IsVerdict) (hx : Orderly x) :
    Orderly (do
      if c then throw fault
      x) := by
  intro fault' h
  rcases unless_eq_error.1 h with ⟨-, rfl⟩ | ⟨-, h⟩
  · exact hfault
  · exact hx fault' h

theorem Orderly.ite {c : Prop} [Decidable c] {x y : Except Fault α} (hx : Orderly x)
    (hy : Orderly y) : Orderly (if c then x else y) := by
  split
  · exact hx
  · exact hy

/-! ### Kinds of faults -/

theorem isVerdict_malformedField (field reason : String) :
    (Fault.malformedField field reason).IsVerdict := trivial

theorem isVerdict_protocolVersion (version : Nat) :
    (Fault.protocolVersion version).IsVerdict := trivial

theorem isVerdict_invalidArgument (reason : String) :
    (Fault.invalidArgument reason).IsVerdict := trivial

theorem isVerdict_sizeMismatch (what : String) (expected actual : Nat) :
    (Fault.sizeMismatch what expected actual).IsVerdict := trivial

theorem isVerdict_decryptionFailure : Fault.decryptionFailure.IsVerdict := trivial

theorem isVerdict_integrityFailure : Fault.integrityFailure.IsVerdict := trivial

theorem isVerdict_missingTerminal : Fault.missingTerminal.IsVerdict := trivial

theorem isVerdict_extraTerminal : Fault.extraTerminal.IsVerdict := trivial

/-! ### Fields -/

namespace FieldReader

/-- A reading that fails with no other fault than a verdict, wherever it starts. -/
def IsOrderly (x : Reading α) : Prop :=
  ∀ r, Orderly (x.run r).1

theorem IsOrderly.bind {x : Reading α} {f : α → Reading β} (hx : IsOrderly x)
    (hf : ∀ a, IsOrderly (f a)) : IsOrderly (x >>= f) := by
  intro r
  have h := hx r
  rw [run_bind_eq]
  generalize x.run r = y at h
  rcases y with ⟨fault | a, r'⟩
  · exact orderly_error (h fault rfl)
  · exact hf a r'

theorem isOrderly_pure (a : α) : IsOrderly (pure a : Reading α) := fun _ => orderly_ok a

theorem isOrderly_get : IsOrderly (get : Reading FieldReader) := fun r => orderly_ok r

theorem isOrderly_set (r : FieldReader) : IsOrderly (set r : Reading PUnit) :=
  fun _ => orderly_ok PUnit.unit

theorem isOrderly_throw {fault : Fault} (h : fault.IsVerdict) :
    IsOrderly (throw fault : Reading α) := fun _ => orderly_error h

theorem isOrderly_except {x : Except Fault α} (h : Orderly x) :
    IsOrderly (liftM x : Reading α) := by
  intro r
  cases x with
  | error fault => exact orderly_error (h fault rfl)
  | ok a => exact orderly_ok a

theorem isOrderly_unless {c : Prop} [Decidable c] {fault : Fault} {x : Reading α}
    (hfault : fault.IsVerdict) (hx : IsOrderly x) :
    IsOrderly (do
      if c then throw fault
      x) := by
  by_cases hc : c
  · rw [if_pos hc]
    exact fun _ => orderly_error hfault
  · rw [if_neg hc]
    exact hx

/-- A reading whose fault is caught, and perhaps thrown again. -/
theorem IsOrderly.tryCatch {x : Reading α} {handle : Fault → Reading α} (hx : IsOrderly x)
    (hhandle : ∀ fault, fault.IsVerdict → IsOrderly (handle fault)) :
    IsOrderly (MonadExcept.tryCatch x handle) := by
  intro r
  rw [run_tryCatch]
  have h := hx r
  generalize x.run r = y at h
  rcases y with ⟨fault | a, s⟩
  · exact hhandle fault (h fault rfl) s
  · exact orderly_ok a

theorem isOrderly_take (field : String) (n : Nat) : IsOrderly (take field n) :=
  isOrderly_get.bind fun _ => isOrderly_unless (isVerdict_malformedField _ _)
    ((isOrderly_set _).bind fun _ => isOrderly_pure _)

theorem isOrderly_takeBytes (field : String) (n : Nat) : IsOrderly (takeBytes field n) := by
  refine isOrderly_get.bind fun r => ?_
  split
  · exact (isOrderly_set _).bind fun _ => isOrderly_pure _
  · exact isOrderly_throw (isVerdict_malformedField _ _)

theorem isOrderly_takeNat (field : String) (n : Nat) : IsOrderly (takeNat field n) :=
  (isOrderly_take field n).bind fun _ => isOrderly_pure _

theorem isOrderly_readAlgorithm : IsOrderly readAlgorithm := by
  refine (isOrderly_takeNat _ _).bind fun n => ?_
  split
  · exact fun _ => orderly_ok _
  · exact isOrderly_throw (isVerdict_malformedField _ _)

theorem isOrderly_iv : IsOrderly iv := by
  refine isOrderly_get.bind fun r => ?_
  split
  · exact isOrderly_take _ _
  · exact isOrderly_throw (isVerdict_malformedField _ _)

theorem isOrderly_iterations : IsOrderly iterations := by
  refine (isOrderly_takeNat _ _).bind fun n => isOrderly_except ?_
  unfold checkIterationsField
  split
  · exact orderly_ok n
  · exact orderly_error (isVerdict_malformedField _ _)

theorem isOrderly_version : IsOrderly version :=
  (isOrderly_takeNat _ _).bind fun n => isOrderly_except
    ((orderly_ok n).ite (orderly_error (isVerdict_protocolVersion n)))

theorem isOrderly_size : IsOrderly size :=
  (isOrderly_takeNat _ _).bind fun n => isOrderly_except
    ((orderly_ok n).ite (orderly_error (isVerdict_malformedField _ _)))

theorem isOrderly_flags : IsOrderly flags :=
  (isOrderly_takeNat _ _).bind fun n => isOrderly_except
    ((orderly_ok n).ite (orderly_error (isVerdict_malformedField _ _)))

theorem isOrderly_loopIndex : IsOrderly loopIndex := by
  refine (isOrderly_take _ _).bind fun b => isOrderly_except ?_
  exact (orderly_error (isVerdict_malformedField _ _)).ite
    ((orderly_error (isVerdict_malformedField _ _)).ite (orderly_ok _))

theorem isOrderly_hint : IsOrderly hint :=
  isOrderly_get.bind fun start => (isOrderly_takeNat _ _).bind fun n =>
    (isOrderly_take _ n).tryCatch fun _ hfault =>
      (isOrderly_set start).bind fun _ => isOrderly_throw hfault

theorem isOrderly_rest (field : String) : IsOrderly (rest field) :=
  isOrderly_get.bind fun _ => isOrderly_unless (isVerdict_malformedField _ _)
    ((isOrderly_set _).bind fun _ => isOrderly_pure _)

end FieldReader

open FieldReader

/-! ### Headers and associated data -/

theorem orderly_parse (format : WireFormat) (header : ByteArray) :
    Orderly (FrameHeader.parse format header) := by
  refine IsOrderly.bind (isOrderly_takeBytes _ _) (fun tag => isOrderly_version.bind fun version =>
    isOrderly_unless (isVerdict_protocolVersion _) (isOrderly_size.bind fun size => ?_)) _
  split
  · exact isOrderly_flags.bind fun flags => isOrderly_pure _
  · exact (isOrderly_rest _).bind fun rest =>
      isOrderly_unless (isVerdict_malformedField _ _) (isOrderly_pure _)

theorem orderly_decodeWith {reading : Reading AssociatedData} (h : IsOrderly reading)
    (payload : ByteArray) : Orderly (AssociatedData.decodeWith reading payload) := by
  have hrun := h { bytes := payload }
  unfold AssociatedData.decodeWith
  generalize reading.run { bytes := payload } = x at hrun
  rcases x with ⟨fault | a, r⟩
  · exact orderly_error (hrun fault rfl)
  · exact orderly_ok _

theorem orderly_decodeHead (payload : ByteArray) :
    Orderly (AssociatedData.decodeHead payload) :=
  orderly_decodeWith (isOrderly_readAlgorithm.bind fun _ => isOrderly_iv.bind fun _ =>
    (isOrderly_takeBytes _ _).bind fun _ => isOrderly_iterations.bind fun _ =>
    isOrderly_loopIndex.bind fun _ => isOrderly_hint.bind fun _ => isOrderly_pure _) payload

theorem orderly_decodeFurther (payload : ByteArray) :
    Orderly (AssociatedData.decodeFurther payload) :=
  orderly_decodeWith (isOrderly_readAlgorithm.bind fun _ => isOrderly_iv.bind fun _ =>
    isOrderly_pure _) payload

/-! ### Blocks -/

theorem orderly_splitPayload (payload : ByteArray) (n : Nat) :
    Orderly (splitPayload payload n) :=
  (orderly_error (isVerdict_malformedField _ _)).ite (orderly_ok _)

theorem orderly_verifyTag (expected computed : Bytes 32) : Orderly (verifyTag expected computed) :=
  (orderly_ok _).ite (orderly_error isVerdict_integrityFailure)

theorem orderly_algorithm_decrypt (a : Algorithm) (key : Key) (iv text aad : ByteArray) :
    Orderly (a.decrypt key iv text aad) := by
  refine Orderly.bind ?_ fun nonce => ?_
  · exact (orderly_ok _).ite (orderly_error (isVerdict_invalidArgument _))
  · refine (orderly_error isVerdict_decryptionFailure).ite ?_
    split
    · exact orderly_ok _
    · exact orderly_error isVerdict_decryptionFailure

theorem orderly_openHint (a : Algorithm) (key : Key) (iv sealedHint : ByteArray) :
    Orderly (openHint a key iv sealedHint) :=
  (orderly_ok _).ite ((orderly_algorithm_decrypt a key iv sealedHint .empty).bind fun _ =>
    orderly_ok _)

theorem orderly_verifyMessage (message : ByteArray) (credential : Credential) :
    Orderly (Message.verify message credential) := by
  refine .unless (isVerdict_malformedField _ _) (Orderly.bind ?_ fun fields =>
    (orderly_verifyTag _ _).bind fun _ => (orderly_openHint _ _ _ _).bind fun _ => orderly_ok _)
  exact IsOrderly.bind (isOrderly_takeBytes _ _) (fun _ => isOrderly_readAlgorithm.bind fun _ =>
    isOrderly_iv.bind fun _ => (isOrderly_takeBytes _ _).bind fun _ =>
    isOrderly_iterations.bind fun _ => isOrderly_version.bind fun _ =>
    isOrderly_unless (isVerdict_protocolVersion _) (isOrderly_hint.bind fun _ =>
      isOrderly_get.bind fun _ => IsOrderly.bind ((isOrderly_rest _).bind fun _ =>
        isOrderly_pure _) fun _ => isOrderly_pure _)) _

theorem orderly_verifyHead (frame : FrameHeader) (format : WireFormat) (header payload : ByteArray)
    (credential : Credential) : Orderly (frame.verifyHead format header payload credential) := by
  refine (orderly_decodeHead payload).bind fun data =>
    (orderly_splitPayload _ _).bind fun parts => ?_
  dsimp only
  split
  · exact (orderly_verifyTag _ _).bind fun _ => (orderly_openHint _ _ _ _).bind fun _ =>
      orderly_ok _
  · exact orderly_error (isVerdict_malformedField _ _)

theorem orderly_verifyFurther (frame : FrameHeader) (header payload : ByteArray) (signingKey : Key)
    (previous : ByteArray) : Orderly (frame.verifyFurther header payload signingKey previous) :=
  (orderly_decodeFurther payload).bind fun _ => (orderly_splitPayload _ _).bind fun _ =>
    (orderly_verifyTag _ _).bind fun _ => orderly_ok _

theorem orderly_ofBytes (format : WireFormat) (ahead : ByteArray) :
    Orderly (Frame.ofBytes format ahead) :=
  .unless (isVerdict_sizeMismatch _ _ _) ((orderly_parse _ _).bind fun _ =>
    .unless (isVerdict_sizeMismatch _ _ _) (orderly_ok _))

/-- **A further block** is opened or refused for what it is. -/
theorem orderly_nextOf (format : WireFormat) (keys : PassKeys) (tag : Bytes 32) (flags : Nat)
    (ahead : ByteArray) : Orderly (nextOf format keys tag flags ahead) := by
  refine ((orderly_error isVerdict_missingTerminal).ite (orderly_ok _)).ite ?_
  exact (orderly_ofBytes _ _).bind fun _ => (orderly_verifyFurther _ _ _ _ _).bind fun _ =>
    .unless isVerdict_extraTerminal ((orderly_algorithm_decrypt _ _ _ _ _).bind fun _ =>
      orderly_ok _)

/-- **A head** is opened with an answer, or the answer is refused for what it is. -/
theorem orderly_decrypt (head : VerifiedHead) (credential : Credential) (answer : Answer) :
    Orderly (head.decrypt credential answer) := by
  refine Orderly.bind ?_ fun derivation =>
    (orderly_algorithm_decrypt _ _ _ _ _).bind fun clear => orderly_ok _
  refine Orderly.bind ?_ fun _ => Orderly.bind ?_ fun _ =>
    .unless (isVerdict_invalidArgument _) (orderly_ok _)
  · exact (orderly_ok _).ite (orderly_error (isVerdict_invalidArgument _))
  · unfold checkSalt
    split
    · exact orderly_ok _
    · exact orderly_error (isVerdict_invalidArgument _)

end SealedStream
