import Mathlib.Data.List.Forall2
import SealedStream.Proofs.Opening

/-!
# The grammar of a framed pass

A pass of the framed formats is a head and any number of further blocks (`FramedPass`).  It is well
formed if each of them is a block of its kind, signed after the one before it, and if none says that
it is the last but the last one, which in the chained format has to (`FramedPass.WellFormed`).

* `unfolds_none_iff`: the bytes behind a block open to their end exactly if they are such blocks.
-/

namespace SealedStream

open WireFormat (requiresTerminal)

/-- A pass of a framed format: its blocks, with their fields. -/
structure FramedPass where
  head : WireBlock
  data : HeadData
  further : List (WireBlock × FurtherData)

/-- Further blocks in a row, the first of them behind a block with the tag given: each is signed
after the one before it. -/
def Linked (format : WireFormat) (key : Key) : Bytes 32 → List (WireBlock × FurtherData) → Prop
  | _, [] => True
  | tag, (b, f) :: rest =>
    IsFurther format key (format.previous tag) f b ∧ Linked format key b.tag rest

/-- The text of a further block opens under a key. -/
def OpensTo (key : Key) (block : WireBlock × FurtherData) (clear : ByteArray) : Prop :=
  block.2.algorithm.decrypt key block.2.iv block.1.text block.1.associated = .ok clear

/-- The bytes of some further blocks. -/
def furtherBytes (format : WireFormat) (further : List (WireBlock × FurtherData)) : ByteArray :=
  concat (further.map fun block => block.1.toByteArray format)

namespace FramedPass

/-- The blocks of a pass, in the order of the wire. -/
def blocks (p : FramedPass) : List WireBlock :=
  p.head :: p.further.map Prod.fst

/-- The bytes of a pass. -/
def toByteArray (format : WireFormat) (p : FramedPass) : ByteArray :=
  p.head.toByteArray format ++ furtherBytes format p.further

/-- What can be checked of a pass without its password. -/
structure WellFormed (format : WireFormat) (credential : Credential) (p : FramedPass) : Prop where
  head : IsHead format credential p.data p.head
  linked : Linked format (credential.signingKey p.data.salt) p.head.tag p.further
  /-- In the chained format the last block says that it is, and no other; in the other format none
  does. -/
  terminal : p.blocks.map WireBlock.terminal
    = List.replicate p.further.length false ++ [format.requiresTerminal]

/-- The texts of a pass open under a cipher key. -/
structure Opens (key : Key) (p : FramedPass) (clear : ByteArray) (clears : List ByteArray) :
    Prop where
  head : p.data.algorithm.decrypt key p.data.iv p.head.text p.head.associated = .ok clear
  further : List.Forall₂ (OpensTo key) p.further clears

/-- The blocks of a row are blocks of their format. -/
theorem inRange_of_linked {format : WireFormat} {key : Key} {tag : Bytes 32}
    {further : List (WireBlock × FurtherData)}
    (h : Linked format key tag further) : ∀ b ∈ further.map Prod.fst, b.InRange format := by
  induction further generalizing tag with
  | nil => exact fun b hb => (nomatch hb)
  | cons block further ih =>
    obtain ⟨c, f⟩ := block
    intro b hb
    rcases List.mem_cons.1 hb with rfl | hb
    · exact h.1.inRange
    · exact ih h.2 b hb

end FramedPass

/-! ### The last block -/

variable {format : WireFormat} {b : WireBlock}

/-- A pass may end behind a block that says so where it has to. -/
theorem WireBlock.InRange.may_end_iff (hb : b.InRange format) :
    (format.requiresTerminal = true → b.flags = Limits.flagTerminal) ↔
      b.terminal = format.requiresTerminal := by
  rw [b.flags_eq_terminal_iff]
  cases hrequires : format.requiresTerminal with
  | true => simp
  | false =>
    -- Only the chained format has a flag, and it is the one that requires it.
    have ht : b.terminal ≠ true := fun h => by
      rw [hb.chained_of_terminal h] at hrequires
      cases hrequires
    simpa using ht

/-- A block may follow one that does not say that it is the last. -/
theorem WireBlock.InRange.may_go_on_iff (hb : b.InRange format) :
    (format.requiresTerminal = true → b.flags ≠ Limits.flagTerminal) ↔ b.terminal = false := by
  rw [ne_eq, b.flags_eq_terminal_iff, Bool.not_eq_true]
  constructor
  · intro h
    by_cases ht : b.terminal = true
    · rw [hb.chained_of_terminal ht] at h
      exact h rfl
    · exact Bool.eq_false_iff.2 ht
  · exact fun h _ => h

/-! ### Blocks that open -/

/-- **Blocks to the end.**  What is behind a block opens to the end of the bytes exactly if it is a
row of further blocks that are linked and open, and the last of all says that it is. -/
theorem unfolds_none_iff (hf : format ≠ .message) {keys : PassKeys} (hb : b.InRange format)
    {ahead : ByteArray} {clears : List ByteArray} :
    Unfolds format keys b.tag b.flags ahead clears none ↔
      ∃ further, ahead = furtherBytes format further ∧ Linked format keys.signing b.tag further ∧
        List.Forall₂ (OpensTo keys.cipher) further clears ∧
        (b :: further.map Prod.fst).map WireBlock.terminal
          = List.replicate further.length false ++ [format.requiresTerminal] := by
  constructor
  · intro h
    -- The induction is on the blocks, and `b` is the block before them: its tag and its flags are
    -- indices, which each block takes over.
    generalize htag : b.tag = tag at h
    generalize hflags : b.flags = flags at h
    generalize hfault : (none : Option Fault) = fault at h
    induction h generalizing b with
    | finished h =>
      obtain ⟨rfl, hend⟩ := nextOf_eq_none.1 h
      rw [← hflags, hb.may_end_iff] at hend
      exact ⟨[], rfl, trivial, .nil, congrArg (fun x => [x]) hend⟩
    | failed h => cases hfault
    | block h _ ih =>
      obtain ⟨c, f, rfl, hc, hlast, hclear, hctag, hcflags⟩ := (nextOf_eq_some hf).1 h
      rw [← hflags, hb.may_go_on_iff] at hlast
      obtain ⟨further, hafter, hlinked, hopens, hterminal⟩ :=
        ih hc.inRange hctag.symm hcflags.symm hfault
      refine ⟨(c, f) :: further, ?_, ⟨htag ▸ hc, hctag ▸ hlinked⟩, .cons hclear hopens, ?_⟩
      · rw [hafter]
        rfl
      · rw [List.map_cons, List.map_cons, hterminal, hlast]
        rfl
  · rintro ⟨further, rfl, hlinked, hopens, hterminal⟩
    induction further generalizing b clears with
    | nil =>
      cases hopens
      refine .finished (nextOf_eq_none.2 ⟨rfl, hb.may_end_iff.2 ?_⟩)
      exact List.head_eq_of_cons_eq hterminal
    | cons block further ih =>
      obtain ⟨c, f⟩ := block
      obtain ⟨hc, hlinked⟩ := hlinked
      cases hopens with
      | cons hclear hopens =>
        rename_i clear clears
        have hnext : nextOf format keys b.tag b.flags (furtherBytes format ((c, f) :: further))
            = .ok (some ⟨c.tag, c.flags, clear, furtherBytes format further⟩) := by
          refine (nextOf_eq_some hf).2 ⟨c, f, rfl, hc, hb.may_go_on_iff.2 ?_, hclear, rfl, rfl⟩
          exact List.head_eq_of_cons_eq hterminal
        exact .block hnext (ih hc.inRange hlinked hopens (List.tail_eq_of_cons_eq hterminal))

end SealedStream
