/-!
# A line that is typed unseen

A password is typed on a terminal that does not show it.  What is typed can be mended: the last
character, the last word, or all of it can be erased.  Other keys that are no characters, such as
arrows, leave the line as it is; a terminal sends some of them as a sequence of characters, which
begins with an escape.

What has been erased is rubbed out on the screen.  Nothing of the line is there to be rubbed out,
except that once a word has been erased, what is left of the line counts as seen.

* `HiddenLine.type`: the line that is typed, how it ends, and the characters after its end.
-/

namespace SealedStream.CommandLine

/-- A line while it is typed. -/
structure HiddenLine where
  /-- The characters of the line, the last in front. -/
  typed : List Char := []
  /-- How many of its characters count as seen. -/
  seen : Nat := 0
  /-- How many characters have been rubbed out. -/
  rubbedOut : Nat := 0
  deriving DecidableEq, Repr

/-- What a character that was typed may be part of. -/
inductive KeySequence
  /-- Nothing: it is a key of its own. -/
  | none
  /-- What an escape has begun. -/
  | escape
  /-- Parameters of a function, up to the character that names it. -/
  | parameters
  deriving DecidableEq, Repr

/-- How a line ends. -/
inductive LineEnd
  /-- It is complete. -/
  | entered
  /-- There will be no line: the end of all input was typed, which counts on an empty line only. -/
  | closed
  deriving DecidableEq, Repr

/-- Whether a character ends a line. -/
def isLineEnd (c : Char) : Bool :=
  c = '\n' || c = '\r'

/-- Whether a character is a control character. -/
def isControl (c : Char) : Bool :=
  c.toNat < 0x20 || (0x7f ≤ c.toNat && c.toNat ≤ 0x9f)

namespace HiddenLine

/-! ### Keys -/

/-- The line with a character more. -/
def push (c : Char) (l : HiddenLine) : HiddenLine :=
  { l with typed := c :: l.typed }

/-- The line without its last character. -/
def eraseChar (l : HiddenLine) : HiddenLine :=
  match l.typed with
  | [] => l
  | _ :: rest =>
    { typed := rest, seen := l.seen - 1, rubbedOut := l.rubbedOut + min 1 l.seen }

/-- The line without its last word, and the spaces after it. -/
def eraseWord (l : HiddenLine) : HiddenLine :=
  let rest := (l.typed.dropWhile (· = ' ')).dropWhile (· ≠ ' ')
  let erased := l.typed.length - rest.length
  { typed := rest, seen := rest.length, rubbedOut := l.rubbedOut + min erased l.seen }

/-- An empty line. -/
def erase (l : HiddenLine) : HiddenLine :=
  { typed := [], seen := 0, rubbedOut := l.rubbedOut + l.seen }

/-- The line after a key. -/
def press (c : Char) (l : HiddenLine) : HiddenLine :=
  match c with
  | '\x08' | '\x7f' => l.eraseChar
  | '\x15' => l.erase
  | '\x17' => l.eraseWord
  | c => if isControl c then l else l.push c

/-! ### Lines -/

/-- Types characters up to the end of a line.  An end of line within a sequence is part of that;
where the characters run out, so does the line. -/
def type : KeySequence → HiddenLine → List Char → LineEnd × HiddenLine × List Char
  | _, l, [] => (.entered, l, [])
  | .none, l, c :: cs =>
    if isLineEnd c then (.entered, l, cs)
    else if c = '\x04' ∧ l.typed.isEmpty then (.closed, l, cs)
    else if c = '\x1b' then type .escape l cs
    else type .none (l.press c) cs
  | .escape, l, c :: cs => type (if c = '[' ∨ c = 'O' then .parameters else .none) l cs
  | .parameters, l, c :: cs => type (if '@' ≤ c ∧ c ≤ '~' then .none else .parameters) l cs

/-- The text of a line. -/
def text (l : HiddenLine) : String :=
  .ofList l.typed.reverse

/-- What a terminal has shown while the line was typed. -/
def shown (l : HiddenLine) : String :=
  String.join (List.replicate l.rubbedOut "\x08 \x08")

end HiddenLine

end SealedStream.CommandLine
