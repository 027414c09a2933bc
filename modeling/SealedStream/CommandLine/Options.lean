/-!
# Options of a command

The options before a command and those after it follow the same rules:

* `--name value`, `--name=value` and `-n value`, `-nvalue`, `-n=value`;
* several options without values may share a dash;
* a value in a word of its own does not begin with a dash, unless it is one;
* after `--` there would be names of files, but no command takes any.

What the options mean is left to `Rule`s, which change a state of the parse one by one.
-/

namespace SealedStream.CommandLine

/-- Why there is no command to run. -/
inductive Stop
  /-- The words are none that a command has. -/
  | usage
  /-- Only the version was asked for. -/
  | version
  /-- Only help was asked for. -/
  | help
  deriving DecidableEq, Repr

/-- What an option does. -/
inductive Effect (σ : Type)
  | flag (set : σ → Except Stop σ)
  | value (set : String → σ → Except Stop σ)

/-- An option. -/
structure Rule (σ : Type) where
  name : String
  letter : Option Char := none
  effect : Effect σ

/-- What has become of a word: it has been dealt with, or the next one is its value. -/
inductive Progress (σ : Type)
  | done (s : σ)
  | awaiting (set : String → σ → Except Stop σ) (s : σ)

variable {σ : Type}

/-- An option by its name, perhaps with a value. -/
def readName (rules : List (Rule σ)) (body : List Char) (s : σ) : Except Stop (Progress σ) :=
  let (name, rest) := body.span (· ≠ '=')
  match rules.find? (·.name = .ofList name), rest with
  | some ⟨_, _, .flag set⟩, [] => .done <$> set s
  | some ⟨_, _, .value set⟩, [] => .ok (.awaiting set s)
  | some ⟨_, _, .value set⟩, _ :: value => .done <$> set (.ofList value) s
  | _, _ => .error .usage

/-- Options by their letters, the last of them perhaps with a value. -/
def readLetters (rules : List (Rule σ)) : List Char → σ → Except Stop (Progress σ)
  | [], s => .ok (.done s)
  | c :: cs, s =>
    match rules.find? (·.letter = some c) with
    | some ⟨_, _, .flag set⟩ => do readLetters rules cs (← set s)
    | some ⟨_, _, .value set⟩ =>
      match cs with
      | [] => .ok (.awaiting set s)
      | '=' :: value => .done <$> set (.ofList value) s
      | value => .done <$> set (.ofList value) s
    | none => .error .usage

/-- A word that is an option. -/
def readOption (rules : List (Rule σ)) (word : String) (s : σ) : Except Stop (Progress σ) :=
  match word.toList with
  | '-' :: '-' :: body => readName rules body s
  | '-' :: c :: cs => readLetters rules (c :: cs) s
  | _ => .error .usage

/-- Whether a word cannot be a value. -/
def looksLikeOption (word : String) : Bool :=
  word.startsWith "-" && word ≠ "-"

/-- Reads options up to a command, which is given with the words after it, or up to the end. -/
def readOptions (rules : List (Rule σ)) (commands : List String) :
    List String → σ → Except Stop (σ × Option (String × List String))
  | [], s => .ok (s, none)
  | word :: words, s =>
    if word ∈ commands then .ok (s, some (word, words))
    else if word = "--" then if words.isEmpty then .ok (s, none) else .error .usage
    else
      match readOption rules word s with
      | .error stop => .error stop
      | .ok (.done s) => readOptions rules commands words s
      | .ok (.awaiting set s) =>
        match words with
        | [] => .error .usage
        | value :: words =>
          if looksLikeOption value then .error .usage
          else match set value s with
            | .error stop => .error stop
            | .ok s => readOptions rules commands words s

/-! ### Effects -/

/-- Sets what may be set only once. -/
def once {α : Type} (current : Option α) (value : α) : Except Stop (Option α) :=
  if current.isSome then .error .usage else .ok (some value)

/-- Sets a flag, only once. -/
def onceTrue (current : Bool) : Except Stop Bool :=
  if current then .error .usage else .ok true

/-- The name of a file, which is not empty. -/
def fileName (s : String) : Except Stop String :=
  if s.isEmpty then .error .usage else .ok s

/-- A whole number below a bound, perhaps after a sign. -/
def numberBelow (bound : Nat) (s : String) : Except Stop Nat :=
  let (negative, digits) := match s.toList with
    | '-' :: cs => (true, cs)
    | '+' :: cs => (false, cs)
    | cs => (false, cs)
  let n := digits.foldl (fun n c => n * 10 + (c.toNat - 48)) 0
  if digits.isEmpty ∨ !digits.all Char.isDigit ∨ bound ≤ n ∨ (negative ∧ n ≠ 0) then .error .usage
  else .ok n

end SealedStream.CommandLine
