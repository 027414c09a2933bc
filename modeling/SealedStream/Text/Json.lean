import SealedStream.Field.Range

/-!
# JSON

Values, and their text on several lines: each item of an array and each member of an object has a
line of its own, two blanks further in than its brackets.
-/

namespace SealedStream.Text

/-- A value.  A number is given by its text. -/
inductive Json
  | number (text : String)
  | string (s : String)
  | array (items : List Json)
  | object (members : List (String × Json))

namespace Json

/-- A natural number. -/
def ofNat (n : Nat) : Json :=
  number (toString n)

/-- The numbers of some bytes. -/
def ofBytes (b : ByteArray) : Json :=
  array (b.data.toList.map fun b => ofNat b.toNat)

/-- A character within quotes. -/
def escape (c : Char) : String :=
  match c with
  | '"' => "\\\""
  | '\\' => "\\\\"
  | '\n' => "\\n"
  | '\r' => "\\r"
  | '\t' => "\\t"
  | c =>
    if c.toNat = 8 then "\\b"
    else if c.toNat = 12 then "\\f"
    else if c.toNat < 32 then "\\u00" ++ hexByte c.toNat
    else c.toString

/-- A string within quotes. -/
def quote (s : String) : String :=
  "\"" ++ String.join (s.toList.map escape) ++ "\""

/-- Lines between brackets that stand `indent` blanks in; just the brackets if there are none. -/
def bracket (indent : Nat) (left right : String) (lines : List String) : String :=
  if lines.isEmpty then left ++ right
  else
    let blanks (n : Nat) := String.ofList (List.replicate n ' ')
    left ++ "\n" ++ ",\n".intercalate (lines.map (blanks (indent + 2) ++ ·)) ++ "\n"
      ++ blanks indent ++ right

mutual

/-- The text of a value that starts on a line `indent` blanks in. -/
def render (indent : Nat) : Json → String
  | number text => text
  | string s => quote s
  | array items => bracket indent "[" "]" (renderItems (indent + 2) items)
  | object members => bracket indent "\x7b" "\x7d" (renderMembers (indent + 2) members)

/-- The texts of the items of an array. -/
def renderItems (indent : Nat) : List Json → List String
  | [] => []
  | item :: items => render indent item :: renderItems indent items

/-- The texts of the members of an object. -/
def renderMembers (indent : Nat) : List (String × Json) → List String
  | [] => []
  | (name, value) :: members =>
    (quote name ++ ": " ++ render indent value) :: renderMembers indent members

end

/-- The text of a value. -/
def pretty (value : Json) : String :=
  value.render 0

end Json

end SealedStream.Text
