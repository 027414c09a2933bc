import SealedStream.CommandLine.Files

/-!
# Changes of files

A change of one file leaves all others as they are, in their order: `Files.remove` forgets all that
was done to a file, and what is known of another file is known without it.
-/

namespace SealedStream.CommandLine.Files

variable {files files' : Files} {name other : String} {bytes : ByteArray}

/-- The files without the one that is written to, if any is. -/
def butFor (files : Files) : Sink → Files
  | .file name => files.remove name
  | .device _ => files

/-! ### Removing -/

@[simp] theorem remove_put (files : Files) (name : String) (bytes : ByteArray) :
    (files.put name bytes).remove name = files.remove name := by
  rw [put, remove, remove]
  split
  next hhas =>
    clear hhas
    induction files with
    | nil => rfl
    | cons f files ih =>
      by_cases hf : f.1 = name
      · simpa [hf] using ih
      · simpa [hf] using ih
  next => simp

@[simp] theorem remove_remove (files : Files) (name : String) :
    (files.remove name).remove name = files.remove name := by
  simp [remove, List.filter_filter]

/-- A file that has been removed is not there. -/
@[simp] theorem has_remove (files : Files) (name : String) :
    (files.remove name).has name = false := by
  simp [has, remove]

theorem has_remove_of_ne (files : Files) (h : other ≠ name) :
    (files.remove name).has other = files.has other := by
  rw [has, has, remove, List.any_filter]
  refine congrArg files.any (funext fun f => ?_)
  by_cases hf : f.1 = other
  · simp [hf, h]
  · simp [hf]

theorem content_remove_of_ne (files : Files) (h : other ≠ name) :
    (files.remove name).content other = files.content other := by
  rw [content, content, remove, List.find?_filter]
  refine congrArg (fun p => ((files.find? p).map Prod.snd).getD .empty) (funext fun f => ?_)
  by_cases hf : f.1 = other
  · simp [hf, h]
  · simp [hf]

/-- **What the files are but for one** determines what is known of any other. -/
theorem content_eq_of_remove_eq (h : files'.remove name = files.remove name)
    (hne : other ≠ name) : files'.content other = files.content other := by
  rw [← content_remove_of_ne files' hne, h, content_remove_of_ne files hne]

theorem has_eq_of_remove_eq (h : files'.remove name = files.remove name) (hne : other ≠ name) :
    files'.has other = files.has other := by
  rw [← has_remove_of_ne files' hne, h, has_remove_of_ne files hne]

/-- What a change of one file leaves of the others. -/
theorem kept_of_butFor_eq {place : Sink} (h : files'.butFor place = files.butFor place)
    (hne : place ≠ .file name) :
    files'.has name = files.has name ∧ files'.content name = files.content name := by
  cases place with
  | file written =>
    have hother : name ≠ written := fun heq => hne (congrArg Sink.file heq.symm)
    exact ⟨has_eq_of_remove_eq h hother, content_eq_of_remove_eq h hother⟩
  | device device =>
    have hsame : files' = files := h
    rw [hsame]
    exact ⟨rfl, rfl⟩

@[simp] theorem butFor_butFor (files : Files) (place : Sink) :
    (files.butFor place).butFor place = files.butFor place := by
  cases place with
  | file name => exact remove_remove files name
  | device device => rfl

/-! ### Finding -/

/-- A name of one letter has no other part. -/
theorem splitOn_letter (h : name ∈ ["f", "g", "x"]) : name.splitOn "/" = [name] := by
  -- The split recurses on positions, so that it is unfolded before it can be evaluated.
  rw [String.splitOn, String.splitOnAux, String.splitOnAux]
  revert name
  decide +kernel

theorem resolve_letter (files : Files) (h : name ∈ ["f", "g", "x"]) :
    files.resolve name = files.follow workingDirectory [name] := by
  have hsize : name.utf8ByteSize ≤ longestName := by
    revert name
    decide
  have hroot : name.startsWith "/" = false := by
    revert name
    decide +kernel
  rw [resolve, if_neg (Nat.not_lt.2 hsize), splitOn_letter h, hroot]
  rfl

theorem has_of_source? {path : Path} {file : String}
    (h : files.source? path = some (.file file)) : files.has file = true := by
  unfold source? at h
  split at h
  · cases h
  · split at h
    next hhas =>
      cases h
      exact hhas
    · cases h

/-- A file that is opened is there. -/
theorem has_of_find {file : String} (h : files.find name = .ok (.file file)) :
    files.has file = true := by
  unfold find at h
  generalize files.resolve name = place at h
  rcases place with e | _ | ⟨path, asDirectory⟩
  · cases h
  · cases h
  dsimp only [bind, Except.bind] at h
  generalize checkLast path = last at h
  cases last with
  | error e => cases h
  | ok _ =>
    dsimp only at h
    split at h
    · cases h
    next source hsource =>
      split at h
      · cases h
      · cases h
        exact has_of_source? hsource

/-! ### Putting -/

theorem content_put_of_ne (files : Files) (h : other ≠ name) :
    (files.put name bytes).content other = files.content other :=
  content_eq_of_remove_eq (remove_put files name bytes) h

@[simp] theorem content_put (files : Files) (name : String) (bytes : ByteArray) :
    (files.put name bytes).content name = bytes := by
  rw [put]
  split
  next hhas =>
    induction files with
    | nil => cases hhas
    | cons f files ih =>
      by_cases hf : f.1 = name
      · simp [content, hf]
      · have hrest : Files.has files name := by simpa [has, hf] using hhas
        simpa [content, hf] using ih hrest
  next hhas =>
    have hnone : files.find? (·.1 = name) = none :=
      List.find?_eq_none.2 (List.any_eq_false.1 (Bool.eq_false_iff.2 hhas))
    simp [content, List.find?_append, hnone]

@[simp] theorem has_put (files : Files) (name : String) (bytes : ByteArray) :
    (files.put name bytes).has name = true := by
  rw [put]
  split
  next hhas =>
    obtain ⟨f, hf, hname⟩ := List.any_eq_true.1 hhas
    refine List.any_eq_true.2 ⟨_, List.mem_map_of_mem hf, ?_⟩
    rw [if_pos (of_decide_eq_true hname)]
    exact decide_eq_true rfl
  next hhas => simp [has]

/-! ### Sizes -/

/-- The size of all files, added to a number. -/
def sizeFrom (n : Nat) (files : Files) : Nat :=
  files.foldl (fun n f => n + f.2.size) n

theorem le_sizeFrom (n : Nat) (files : Files) : n ≤ files.sizeFrom n := by
  induction files generalizing n with
  | nil => exact Nat.le_refl n
  | cons f files ih => exact Nat.le_trans (Nat.le_add_right n _) (ih _)

/-- No file is larger than all. -/
theorem size_content_le (n : Nat) (files : Files) (name : String) :
    (files.content name).size ≤ files.sizeFrom n := by
  induction files generalizing n with
  | nil => exact Nat.zero_le n
  | cons f files ih =>
    by_cases hf : f.1 = name
    · have hcontent : Files.content (f :: files) name = f.2 := by simp [content, hf]
      rw [hcontent]
      exact Nat.le_trans (Nat.le_add_left _ n) (le_sizeFrom _ files)
    · have hcontent : Files.content (f :: files) name = Files.content files name := by
        simp [content, hf]
      rw [hcontent]
      exact ih _

end SealedStream.CommandLine.Files
