import SealedStream.Text.Utf8

/-!
# The longest start of a text

What is kept of a text for which there is not room enough: of its starts in whole characters that
take at most so many bytes, the one that all others begin (`IsLongestStart`).  There is exactly one,
and `takeUtf8` cuts it off; it reads back from its bytes, since those are well-formed.

* `isLongestStart_takeUtf8`, `IsLongestStart.unique`: which start is cut off.
* `decodeLossy_toUTF8`: a text is what its bytes decode to.
-/

namespace SealedStream

/-- `s` is the longest start of `text`, in whole characters, that takes at most `max` bytes. -/
structure IsLongestStart (max : Nat) (text s : String) : Prop where
  starts : s.toList <+: text.toList
  size_le : s.utf8ByteSize ≤ max
  longest : ∀ t : String, t.toList <+: text.toList → t.utf8ByteSize ≤ max → t.toList <+: s.toList

/-! ### Cutting -/

section cutting

open Text

theorem utf8ByteSize_eq (s : String) : s.utf8ByteSize = s.toList.utf8Encode.size := by
  rw [String.utf8Encode_toList, String.size_toByteArray]

theorem size_utf8Encode_cons (c : Char) (cs : List Char) :
    (c :: cs).utf8Encode.size = c.utf8Size + cs.utf8Encode.size := by
  have hone : [c].utf8Encode.size = c.utf8Size := by
    simp [List.utf8Encode]
  rw [List.utf8Encode_cons, ByteArray.size_append, hone]

theorem takeUtf8_prefix (max : Nat) (cs : List Char) : takeUtf8 max cs <+: cs := by
  induction cs generalizing max with
  | nil => exact List.nil_prefix
  | cons c cs ih =>
    rw [takeUtf8]
    split
    · exact List.cons_prefix_cons.2 ⟨rfl, ih _⟩
    · exact List.nil_prefix

theorem size_utf8Encode_takeUtf8 (max : Nat) (cs : List Char) :
    (takeUtf8 max cs).utf8Encode.size ≤ max := by
  induction cs generalizing max with
  | nil => exact Nat.zero_le max
  | cons c cs ih =>
    rw [takeUtf8]
    split
    next hc =>
      have hrest := ih (max - c.utf8Size)
      rw [size_utf8Encode_cons]
      omega
    next => exact Nat.zero_le max

/-- Whatever starts the text and fits begins what is cut off.  The induction is on the text; a first
character that does not fit leaves only the empty start. -/
theorem prefix_takeUtf8 {max : Nat} {cs ds : List Char} (h : ds <+: cs)
    (hsize : ds.utf8Encode.size ≤ max) : ds <+: takeUtf8 max cs := by
  induction cs generalizing max ds with
  | nil => exact h
  | cons c cs ih =>
    cases ds with
    | nil => exact List.nil_prefix
    | cons d ds =>
      obtain ⟨rfl, hds⟩ := List.cons_prefix_cons.1 h
      rw [size_utf8Encode_cons] at hsize
      rw [takeUtf8, if_pos (by omega)]
      exact List.cons_prefix_cons.2 ⟨rfl, ih hds (by omega)⟩

/-- **The longest start** is what is cut off. -/
theorem isLongestStart_takeUtf8 (max : Nat) (text : String) :
    IsLongestStart max text (String.ofList (takeUtf8 max text.toList)) where
  starts := by
    rw [String.toList_ofList]
    exact takeUtf8_prefix max text.toList
  size_le := by
    rw [utf8ByteSize_eq, String.toList_ofList]
    exact size_utf8Encode_takeUtf8 max text.toList
  longest t ht hsize := by
    rw [utf8ByteSize_eq] at hsize
    rw [String.toList_ofList]
    exact prefix_takeUtf8 ht hsize

namespace IsLongestStart

variable {max : Nat} {text s t : String}

/-- There is only one. -/
theorem unique (hs : IsLongestStart max text s) (ht : IsLongestStart max text t) : s = t := by
  have hst := ht.longest s hs.starts hs.size_le
  have hts := hs.longest t ht.starts ht.size_le
  exact String.toList_inj.1 (hst.eq_of_length_le hts.length_le)

/-- Where any character has room, something is kept of a text that is not empty. -/
theorem ne_empty (hs : IsLongestStart max text s) (hmax : 4 ≤ max) (htext : text ≠ "") :
    s ≠ "" := by
  rintro rfl
  cases hcs : text.toList with
  | nil => exact htext (String.toList_eq_nil_iff.1 hcs)
  | cons c cs =>
    have hfits : (String.ofList [c]).utf8ByteSize ≤ max := by
      rw [utf8ByteSize_eq, String.toList_ofList, size_utf8Encode_cons]
      exact Nat.le_trans c.utf8Size_le_four hmax
    have hlongest := hs.longest (String.ofList [c])
      (by rw [String.toList_ofList, hcs]; exact List.cons_prefix_cons.2 ⟨rfl, List.nil_prefix⟩)
      hfits
    rw [String.toList_ofList] at hlongest
    exact absurd hlongest (by simp)

end IsLongestStart

end cutting

/-! ### Reading back -/

/-- **A text is what its bytes decode to.** -/
theorem decodeLossy_toUTF8 (s : String) : Text.decodeLossy s.toUTF8 = s := by
  have hvalid : String.fromUTF8? s.toUTF8 = some s := by
    simp [String.fromUTF8?, String.fromUTF8, s.isValidUTF8]
  rw [Text.decodeLossy, hvalid]

end SealedStream
