/-!
# Scanning text

A scan takes characters from the front of a text, and fails without a reason when they are not the
ones it wants.  A scan that fails takes nothing.
-/

namespace SealedStream.Text

/-- A scan with a result in `α`. -/
abbrev Scan (α : Type) := StateT (List Char) Option α

namespace Scan

variable {α β : Type}

/-- The next character, which is not taken; none at the end. -/
def peek? : Scan (Option Char) := do
  return (← get).head?

/-- One character with a property. -/
def satisfy (p : Char → Bool) : Scan Char
  | c :: cs => if p c then some (c, cs) else none
  | [] => none

/-- One given character. -/
def char (c : Char) : Scan Unit := do
  discard (satisfy (· = c))

/-- Some given characters. -/
def word (s : String) : Scan Unit :=
  s.toList.forM char

/-- As many characters with a property as there are. -/
def takeWhile (p : Char → Bool) : Scan (List Char) := fun cs =>
  some (cs.span p)

/-- As many characters with a property as there are, and at least one. -/
def takeSome (p : Char → Bool) : Scan (List Char) := do
  let c ← satisfy p
  return c :: (← takeWhile p)

/-- Exactly `n` characters with a property. -/
def takeExactly (n : Nat) (p : Char → Bool) : Scan (List Char) :=
  (List.replicate n ()).mapM fun _ => satisfy p

/-- The end of the text. -/
def ending : Scan Unit := do
  guard (← get).isEmpty

/-- A result, or none if the scan fails. -/
def optional? (scan : Scan α) : Scan (Option α) :=
  (some <$> scan) <|> pure none

/-- The loop of `many`: at most `n` more results. -/
def manyFrom (scan : Scan α) : (n : Nat) → List Char → List α × List Char
  | 0, cs => ([], cs)
  | n + 1, cs =>
    match scan cs with
    | none => ([], cs)
    | some (a, rest) =>
      -- A result of no characters would come back for ever.
      if rest.length < cs.length then
        let (as, rest) := manyFrom scan n rest
        (a :: as, rest)
      else ([], cs)

/-- Results until the scan fails or takes nothing. -/
def many (scan : Scan α) : Scan (List α) := fun cs =>
  some (manyFrom scan cs.length cs)

/-- At least one result, with something between each two. -/
def sepBy (scan : Scan α) (separator : Scan β) : Scan (List α) := do
  let a ← scan
  return a :: (← many (separator *> scan))

end Scan

end SealedStream.Text
