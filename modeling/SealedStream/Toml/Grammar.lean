import SealedStream.Text.Scan
import SealedStream.Toml.Value

/-!
# TOML grammar

Version 1.0 of the format: keys, the kinds of values, and the lines of a document (`Toml.parse`).
Values may nest, and keys have parts, up to a limit.
-/

namespace SealedStream.Toml

attribute [local instance (2000)] instPowNat

open Text (Scan)
open Text.Scan

/-- The parts of a key, and the depth of values, stay below this. -/
def depthLimit : Nat := 80

/-! ### Blanks and comments -/

/-- Blanks within a line. -/
def isSpace (c : Char) : Bool :=
  c = ' ' || c = '\t'

/-- A character that may stand in comments and, but for its delimiter, in strings. -/
def isText (c : Char) : Bool :=
  c = '\t' || (0x20 ≤ c.toNat && c.toNat ≠ 0x7f)

/-- Any blanks within a line. -/
def spaces : Scan Unit := do
  discard (takeWhile isSpace)

/-- The end of a line. -/
def newline : Scan Unit :=
  char '\n' <|> word "\r\n"

/-- A comment, without the end of its line. -/
def comment : Scan Unit := do
  char '#'
  discard (takeWhile isText)

/-- Everything that may stand between the items of an array. -/
def gaps : Scan Unit := do
  discard (many (discard (takeSome isSpace) <|> newline <|> comment))

/-- The rest of a line after what it says. -/
def lineEnd : Scan Unit := do
  spaces
  discard (optional? comment)
  newline <|> ending

/-! ### Strings -/

/-- The number of some digits. -/
def ofDigits (base : Nat) (digits : List Char) : Nat :=
  digits.foldl (fun n c =>
    n * base + (if c.isDigit then c.toNat - 48 else c.toLower.toNat - 87)) 0

/-- A digit to base sixteen. -/
def isHexDigit (c : Char) : Bool :=
  c.isDigit || ('a' ≤ c.toLower && c.toLower ≤ 'f')

/-- A character given by a number of hexadecimal digits. -/
def codePoint (digits : Nat) : Scan Char := do
  let n := ofDigits 16 (← takeExactly digits isHexDigit)
  guard (decide n.isValidChar)
  return Char.ofNat n

/-- A character after a backslash. -/
def escape : Scan Char := do
  char '\\'
  match ← satisfy fun _ => true with
  | 'b' => return '\x08'
  | 't' => return '\t'
  | 'n' => return '\n'
  | 'f' => return '\x0c'
  | 'r' => return '\r'
  | '"' => return '"'
  | '\\' => return '\\'
  | 'u' => codePoint 4
  | 'U' => codePoint 8
  | _ => failure

/-- A string on one line, in double quotes, with escapes. -/
def basicString : Scan String := do
  char '"'
  let s ← many (escape <|> satisfy fun c => isText c && c ≠ '"' && c ≠ '\\')
  char '"'
  return .ofList s

/-- A string on one line, in single quotes, just as it stands. -/
def literalString : Scan String := do
  char '\''
  let s ← takeWhile fun c => isText c && c ≠ '\''
  char '\''
  return .ofList s

/-- A backslash at the end of a line, which takes all blanks and lines up to the next text. -/
def lineContinuation : Scan (List Char) := do
  char '\\'
  spaces
  newline
  discard (many (discard (satisfy isSpace) <|> newline))
  return []

/-- Up to two quotes within a string of several lines. -/
def innerQuotes (quote : Char) : Scan (List Char) := do
  let quotes ← takeSome (· = quote)
  guard (quotes.length ≤ 2)
  return quotes

/-- The end of a string of several lines, before which there may be up to two quotes more. -/
def outerQuotes (quote : Char) : Scan (List Char) := do
  let quotes ← takeSome (· = quote)
  guard (3 ≤ quotes.length ∧ quotes.length ≤ 5)
  return quotes.drop 3

/-- A string of several lines between three quotes.  A line that begins right after them counts from
there, and each end of a line is the same character. -/
def longString (quote : Char) (piece : Scan (List Char)) : Scan String := do
  word (.ofList [quote, quote, quote])
  discard (optional? newline)
  let pieces ← many (piece <|> (do newline; return ['\n']) <|> innerQuotes quote)
  let last ← outerQuotes quote
  return .ofList (pieces.flatten ++ last)

/-- A string of several lines with escapes. -/
def longBasicString : Scan String :=
  longString '"' (lineContinuation <|> (do return [← escape])
    <|> takeSome fun c => isText c && c ≠ '"' && c ≠ '\\')

/-- A string of several lines just as it stands. -/
def longLiteralString : Scan String :=
  longString '\'' (takeSome fun c => isText c && c ≠ '\'')

/-- A string of any of the four kinds. -/
def string : Scan String :=
  -- Three quotes are first taken for the start of several lines, not for an empty string.
  longBasicString <|> basicString <|> longLiteralString <|> literalString

/-! ### Keys -/

/-- A character of a key without quotes. -/
def isBareKey (c : Char) : Bool :=
  c.isAlphanum || c = '_' || c = '-'

/-- A part of a key, and the blanks around it. -/
def keyPart : Scan String := do
  spaces
  let part ← basicString <|> literalString <|> (do return .ofList (← takeSome isBareKey))
  spaces
  return part

/-- A key, as its parts but the last, and its last part. -/
def key : Scan (List String × String) := do
  let parts ← sepBy keyPart (char '.')
  guard (parts.length < depthLimit)
  return (parts.dropLast, ← parts.getLast?)

/-! ### Numbers -/

/-- Digits, between which single underscores may stand; the underscores are dropped. -/
def digits (p : Char → Bool) : Scan (List Char) := do
  let first ← satisfy p
  return first :: (← many ((do char '_'; satisfy p) <|> satisfy p))

/-- A sign, if there is one. -/
def sign : Scan (List Char) := do
  return (← optional? (satisfy fun c => c = '+' || c = '-')).toList

/-- The digits of a whole number, which do not begin with zero unless it is zero. -/
def wholeDigits : Scan (List Char) := do
  match ← peek? with
  | some '0' => return [← satisfy (· = '0')]
  | _ => digits Char.isDigit

/-- A whole number to a base that its first two characters give. -/
def basedInteger (start : String) (base : Nat) (p : Char → Bool) : Scan Int := do
  word start
  return ofDigits base (← digits p)

/-- A whole number in decimal digits. -/
def decimalInteger : Scan Int := do
  let sign ← sign
  let n := ofDigits 10 (← wholeDigits)
  return if sign = ['-'] then -n else n

/-- A whole number of 64 bits. -/
def integer : Scan Int := do
  let n ← basedInteger "0x" 16 isHexDigit
    <|> basedInteger "0o" 8 (fun c => '0' ≤ c && c ≤ '7')
    <|> basedInteger "0b" 2 (fun c => c = '0' || c = '1') <|> decimalInteger
  guard (Int64.minValue.toInt ≤ n ∧ n ≤ Int64.maxValue.toInt)
  return n

/-- The digits after a point. -/
def fraction : Scan (List Char) := do
  char '.'
  digits Char.isDigit

/-- A power of ten, as its sign and digits. -/
def power : Scan (List Char × List Char) := do
  discard (satisfy fun c => c = 'e' || c = 'E')
  return (← sign, ← digits Char.isDigit)

/-- The least number that rounds to more than the largest float. -/
def tooLarge : Nat := (1 <<< 1024) - (1 <<< 970)

/-- Whether `n * 10 ^ e` rounds to more than the largest float.  Most numbers are told by their
size. -/
def exceedsFloat (n : Nat) (e : Int) : Bool :=
  let size : Int := (toString n).length + e
  if n = 0 ∨ size < 309 then false
  else if 309 < size then true
  else if e < 0 then tooLarge * 10 ^ e.natAbs ≤ n
  else tooLarge ≤ n * 10 ^ e.natAbs

/-- A number with a fraction, a power of ten, or both.  One that is too large is refused, unless it
is negative: then it counts as the infinity. -/
def decimalFloat : Scan String := do
  let sign ← sign
  let whole ← wholeDigits
  let part ← optional? fraction
  let scale ← optional? power
  guard (part.isSome ∨ scale.isSome)
  let part := part.getD []
  let (scaleSign, scale) := scale.getD ([], ['0'])
  let e : Int := if scaleSign = ['-'] then -ofDigits 10 scale else ofDigits 10 scale
  guard (sign = ['-'] ∨ !exceedsFloat (ofDigits 10 (whole ++ part)) (e - part.length))
  return .ofList (sign ++ whole ++ '.' :: part ++ 'e' :: scaleSign ++ scale)

/-- An infinity, or a float that is no number. -/
def specialFloat : Scan String := do
  let sign ← sign
  let name ← (do word "inf"; return "inf") <|> (do word "nan"; return "nan")
  return .ofList sign ++ name

/-! ### Times -/

/-- A number of exactly so many digits, within bounds. -/
def boundedNumber (width least greatest : Nat) : Scan Nat := do
  let n := ofDigits 10 (← takeExactly width Char.isDigit)
  guard (least ≤ n ∧ n ≤ greatest)
  return n

/-- The number of days of a month. -/
def daysOfMonth (year month : Nat) : Nat :=
  if month = 2 then
    if year % 4 = 0 ∧ (year % 100 ≠ 0 ∨ year % 400 = 0) then 29 else 28
  else if month ∈ [4, 6, 9, 11] then 30
  else 31

/-- A day that the calendar has. -/
def date : Scan Unit := do
  let year ← boundedNumber 4 0 9999
  char '-'
  let month ← boundedNumber 2 1 12
  char '-'
  discard (boundedNumber 2 1 (daysOfMonth year month))

/-- Hours, minutes and seconds, of which there may be sixty for a leap second. -/
def timeOfDay : Scan Unit := do
  discard (boundedNumber 2 0 23)
  char ':'
  discard (boundedNumber 2 0 59)
  char ':'
  discard (boundedNumber 2 0 60)
  discard (optional? (do char '.'; takeSome Char.isDigit))

/-- The distance of a time from universal time. -/
def timeOffset : Scan Unit :=
  char 'Z' <|> char 'z' <|> do
    discard (satisfy fun c => c = '+' || c = '-')
    discard (boundedNumber 2 0 23)
    char ':'
    discard (boundedNumber 2 0 59)

/-- A time of day on a date, and perhaps its offset. -/
def timeOfDate : Scan Unit := do
  discard (satisfy fun c => c = 'T' || c = 't' || c = ' ')
  timeOfDay
  discard (optional? timeOffset)

/-- A date, a time of day, or both; just as it is spelled. -/
def time : Scan String := do
  let start ← get
  (do date; discard (optional? timeOfDate)) <|> timeOfDay
  return .ofList (start.take (start.length - (← get).length))

/-! ### Values -/

/-- A value that does not hold others. -/
def scalar : Scan Value := do
  match ← peek? with
  | some 't' => word "true"; return .boolean true
  | some 'f' => word "false"; return .boolean false
  | some c =>
    if c = '"' || c = '\'' then return .string (← string)
    else if c = 'i' || c = 'n' then return .float (← specialFloat)
    else if c = '+' || c = '-' || c.isDigit then
      -- In this order, since a whole number is the start of any of the others.
      (do return .time (← time)) <|> (do return .float (← decimalFloat))
        <|> (do return .float (← specialFloat)) <|> do return .integer (← integer)
    else failure
  | none => failure

/-- An array of values; a comma may follow the last. -/
def arrayOf (value : Scan Value) : Scan Value := do
  char '['
  let item := do gaps; let v ← value; gaps; return v
  let items := (← optional? (sepBy item (char ','))).getD []
  if !items.isEmpty then discard (optional? (char ','))
  gaps
  char ']'
  return .array items

/-- A key, and the value that it is to have. -/
def pairOf (value : Scan Value) : Scan (List String × String × Value) := do
  let (path, key) ← key
  char '='
  spaces
  return (path, key, ← value)

/-- A table in braces; no comma may follow the last pair. -/
def bracesOf (value : Scan Value) : Scan Value := do
  char '\x7b'
  let pair := do let p ← pairOf value; spaces; return p
  let pairs := (← optional? (sepBy pair (char ','))).getD []
  spaces
  char '\x7d'
  Value.ofPairs pairs

/-- A value with at most `depth` values around those within it. -/
def value : (depth : Nat) → Scan Value
  | 0 => scalar
  | depth + 1 => do
    match ← peek? with
    | some '[' => arrayOf (value depth)
    | some '\x7b' => bracesOf (value depth)
    | _ => scalar

/-! ### Documents -/

/-- A header between brackets. -/
def headerIn (left right : String) : Scan (List String × String) := do
  word left
  let key ← key
  word right
  return key

/-- What a line says. -/
def statement : Scan Statement :=
  (do let (path, key) ← headerIn "[[" "]]"; return .element path key)
    <|> (do let (path, key) ← headerIn "[" "]"; return .header path key)
    <|> do
      let (path, key, v) ← pairOf (value (depthLimit - 1))
      return .assign path key v

/-- A line, which may say nothing. -/
def line : Scan (Option Statement) := do
  spaces
  let s ← optional? statement
  lineEnd
  return s

/-- All lines of a document.  A byte order mark in front does not matter. -/
def document : Scan (List Statement) := do
  discard (optional? (char '\ufeff'))
  let lines ← many line
  ending
  return lines.filterMap id

/-- The entries of a document, if it is well-formed. -/
def parse (text : String) : Option Entries := do
  let (statements, _) ← document text.toList
  Entries.ofStatements statements

end SealedStream.Toml
