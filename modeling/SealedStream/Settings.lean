import SealedStream.Limits
import SealedStream.Text.Utf8
import SealedStream.Toml.Grammar

/-!
# Settings

What a settings file may say, all of it optional.  Names that mean nothing are passed over, but
whatever has a meaning must be of the right kind.

```text
[crypto]
algorithms = ["X20-PLY"]        one for each pass, innermost first
iterations = 1000000
read_size_start = 1048576       the size of the first chunk

[logging]
level = "info"
format = "text"
```

A section may also be an array that gives its values in this order.
-/

namespace SealedStream

/-- Settings of encryption. -/
structure CryptoSettings where
  algorithms : List String := ["X20-PLY"]
  iterations : Nat := Limits.iterationsDefault
  readStart : Nat := Limits.readStart
  deriving DecidableEq

/-- Settings of the log. -/
structure LogSettings where
  level : String := "info"
  format : String := "text"
  deriving DecidableEq

/-- All settings. -/
structure Settings where
  crypto : CryptoSettings := {}
  log : LogSettings := {}
  deriving DecidableEq

namespace Settings

open Toml (Value Entries)

/-! ### Values -/

/-- A text. -/
def textOf? : Value → Option String
  | .string s => some s
  | _ => none

/-- A list of texts. -/
def textsOf? : Value → Option (List String)
  | .array items => items.mapM textOf?
  | _ => none

/-- A natural number below a bound. -/
def numberBelow? (bound : Nat) : Value → Option Nat
  | .integer n => if 0 ≤ n ∧ n < bound then some n.toNat else none
  | _ => none

/-! ### Sections -/

/-- The values of a section for names in some order, each of them optional.  A time has none. -/
def sectionOf? (names : List String) : Value → Option (List (Option Value))
  | .table _ entries => some (names.map (Entries.find? entries))
  | .array items => some ((List.range names.length).map (items[·]?))
  | .time _ => some (names.map fun _ => none)
  | _ => none

/-- A value of a section that must be of the right kind if it is there. -/
def read? {α : Type} (read : Value → Option α) (usual : α) : Option Value → Option α
  | some v => read v
  | none => some usual

/-- The settings of encryption in a section. -/
def cryptoOf? (v : Value) : Option CryptoSettings := do
  match ← sectionOf? ["algorithms", "iterations", "read_size_start"] v with
  | [algorithms, iterations, start] =>
    let usual : CryptoSettings := {}
    return ⟨← read? textsOf? usual.algorithms algorithms,
      ← read? (numberBelow? UInt32.size) usual.iterations iterations,
      ← read? (numberBelow? UInt64.size) usual.readStart start⟩
  | _ => none

/-- The settings of the log in a section. -/
def logOf? (v : Value) : Option LogSettings := do
  match ← sectionOf? ["level", "format"] v with
  | [level, format] =>
    let usual : LogSettings := {}
    return ⟨← read? textOf? usual.level level, ← read? textOf? usual.format format⟩
  | _ => none

/-- The settings in a document. -/
def ofText? (text : String) : Option Settings := do
  let entries ← Toml.parse text
  return ⟨← read? cryptoOf? {} (Entries.find? entries "crypto"),
    ← read? logOf? {} (Entries.find? entries "logging")⟩

/-! ### Files -/

/-- Why settings could not be loaded. -/
inductive Failure
  /-- The document is malformed, or a value is not of its kind. -/
  | malformed
  /-- The file could not be read, or is not text. -/
  | unreadable (reason : String)
  deriving DecidableEq, Repr

/-- The settings in a file that has been read or could not be; the usual ones if there is none. -/
def load : Option (Except String ByteArray) → Except Failure Settings
  | none => .ok {}
  | some (.error reason) => .error (.unreadable reason)
  | some (.ok bytes) =>
    match String.fromUTF8? bytes with
    | none => .error (.unreadable "stream did not contain valid UTF-8")
    | some text =>
      match ofText? text with
      | some settings => .ok settings
      | none => .error .malformed

end Settings

end SealedStream
