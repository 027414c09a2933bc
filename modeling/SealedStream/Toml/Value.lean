/-!
# TOML values

Tables remember how they came to be, which decides what may still be added to them:

* a table in braces is complete;
* a table with a header takes the assignments under it, and is opened only once;
* a table implied by the header of one within it may still be opened by a header;
* a table that began as the first part of a dotted key takes further dotted keys, but no header.
-/

namespace SealedStream.Toml

/-- How a table came to be. -/
inductive TableKind
  | braces
  | header
  | implied
  | dotted
  deriving DecidableEq, Repr

/-- A value.  Floats and times are checked, but only their spelling is kept. -/
inductive Value
  | string (s : String)
  | integer (n : Int)
  | boolean (b : Bool)
  | float (spelling : String)
  | time (spelling : String)
  | array (items : List Value)
  | table (kind : TableKind) (entries : List (String × Value))
  /-- An array of tables, each of which has a header. -/
  | tables (elements : List (List (String × Value)))

/-- The entries of a table. -/
abbrev Entries := List (String × Value)

namespace Entries

/-- The value of a key. -/
def find? (entries : Entries) (key : String) : Option Value :=
  entries.lookup key

/-- The entries with a value for a key, in its place if there was one. -/
def put (key : String) (value : Value) : Entries → Entries
  | [] => [(key, value)]
  | e :: entries => if e.1 = key then (key, value) :: entries else e :: put key value entries

/-! ### Building -/

/-- What is done to a table that a path leads to, given its kind and entries. -/
abbrev Edit := TableKind → Entries → Option (TableKind × Entries)

/-- An edit of the table that a path leads to.  Missing tables on the way are made; a dotted key
makes them `dotted`, and may not pass through a table that has a header. -/
def within (byKey : Bool) (edit : Edit) : (path : List String) → Edit
  | [], kind, entries => edit kind entries
  | key :: path, kind, entries => do
    let value ← match entries.find? key with
      | none => do
        let (k, es) ← within byKey edit path (if byKey then .dotted else .implied) []
        pure (Value.table k es)
      | some (.table k es) => do
        guard (k ≠ .braces ∧ ¬(byKey ∧ k = .header))
        let (k, es) ← within byKey edit path k es
        pure (.table k es)
      | some (.tables elements) => do
        let (_, es) ← within byKey edit path .header (← elements.getLast?)
        pure (.tables (elements.dropLast ++ [es]))
      | some _ => none
    return (kind, entries.put key value)

/-- Adds a value with a new key.  A dotted key must end in a table made by dotted keys. -/
def add (path : List String) (key : String) (value : Value) : Edit :=
  within true (fun kind entries => do
    guard (path.isEmpty ∨ kind = .dotted)
    guard (entries.find? key).isNone
    return (kind, entries.put key value)) path

/-- Opens a table by its header. -/
def openTable (key : String) : Edit := fun kind entries =>
  match entries.find? key with
  | none => some (kind, entries.put key (.table .header []))
  | some (.table .implied es) => some (kind, entries.put key (.table .header es))
  | some _ => none

/-- Starts a new element of an array of tables. -/
def openElement (key : String) : Edit := fun kind entries =>
  match entries.find? key with
  | none => some (kind, entries.put key (.tables [[]]))
  | some (.tables elements) => some (kind, entries.put key (.tables (elements ++ [[]])))
  | some _ => none

end Entries

/-! ### Documents -/

/-- What a line of a document says. -/
inductive Statement
  /-- A value for a key of the open table; the path is the key without its last part. -/
  | assign (path : List String) (key : String) (value : Value)
  /-- The header of a table. -/
  | header (path : List String) (key : String)
  /-- The header of an element of an array of tables. -/
  | element (path : List String) (key : String)

/-- A document up to some line: all entries, and the path of the table that is open. -/
structure Draft where
  entries : Entries := []
  current : List String := []

namespace Draft

/-- An edit of the table at a path. -/
def edit (d : Draft) (path : List String) (e : Entries.Edit) : Option Entries := do
  return (← Entries.within false e path .header d.entries).2

/-- The document with one more line. -/
def step (d : Draft) : Statement → Option Draft
  | .assign path key value => do
    return { d with entries := ← d.edit d.current (Entries.add path key value) }
  | .header path key => do
    return ⟨← d.edit path (Entries.openTable key), path ++ [key]⟩
  | .element path key => do
    return ⟨← d.edit path (Entries.openElement key), path ++ [key]⟩

end Draft

/-- The entries of a document. -/
def Entries.ofStatements (statements : List Statement) : Option Entries := do
  return (← statements.foldlM Draft.step {}).entries

/-- The table in braces that holds some assignments. -/
def Value.ofPairs (pairs : List (List String × String × Value)) : Option Value := do
  let (_, entries) ← pairs.foldlM (fun (kind, entries) (path, key, value) =>
    Entries.add path key value kind entries) (.header, [])
  return .table .braces entries

end SealedStream.Toml
