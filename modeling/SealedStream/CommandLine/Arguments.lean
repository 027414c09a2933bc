import SealedStream.Algorithm
import SealedStream.CommandLine.Options

/-!
# Arguments of the program

The commands and their options, and the variables that stand in for options that are not given.

```text
qcrypt [-c FILE] [--log-level LEVEL] [--log-format json|text] [--user-cred TEXT] COMMAND

encrypt [-i FILE] [-o FILE] [--alg NAME]... [--ic COUNT] [--hint TEXT] [--armor]
decrypt [-i FILE] [-o FILE] [--armor]
info    [-i FILE] [--armor] [--json]
bench   [--json]
```
-/

namespace SealedStream.CommandLine

/-- The options of encryption. -/
structure EncryptOptions where
  input : Option String := none
  output : Option String := none
  /-- The algorithms of the passes, if any are given. -/
  algorithms : List Algorithm := []
  iterations : Option Nat := none
  hint : Option String := none
  armor : Bool := false
  deriving DecidableEq

/-- The options of decryption. -/
structure DecryptOptions where
  input : Option String := none
  output : Option String := none
  armor : Bool := false
  deriving DecidableEq

/-- The options of showing metadata. -/
structure InfoOptions where
  input : Option String := none
  armor : Bool := false
  json : Bool := false
  deriving DecidableEq

/-- What to do. -/
inductive Command
  | encrypt (options : EncryptOptions)
  | decrypt (options : DecryptOptions)
  | info (options : InfoOptions)
  | bench (json : Bool)
  deriving DecidableEq

/-- How the log is written. -/
inductive LogFormat
  | json
  | text
  deriving DecidableEq, Repr

/-- The options before the command. -/
structure GlobalOptions where
  settings : Option String := none
  logLevel : Option String := none
  logFormat : Option LogFormat := none
  credential : Option String := none
  deriving DecidableEq

/-- A command and the options before it. -/
structure Invocation where
  options : GlobalOptions
  command : Command
  deriving DecidableEq

/-! ### Rules -/

/-- The rule that stops for help. -/
def helpRule {σ : Type} : Rule σ :=
  ⟨"help", some 'h', .flag fun _ => .error .help⟩

/-- The options before the command. -/
def globalRules : List (Rule GlobalOptions) :=
  [⟨"config", some 'c', .value fun v s => do
      return { s with settings := ← once s.settings (← fileName v) }⟩,
    ⟨"log-level", none, .value fun v s => do
      return { s with logLevel := ← once s.logLevel v }⟩,
    ⟨"log-format", none, .value fun v s => do
      let format ← match v with
        | "json" => .ok LogFormat.json
        | "text" => .ok LogFormat.text
        | _ => .error .usage
      return { s with logFormat := ← once s.logFormat format }⟩,
    ⟨"user-cred", none, .value fun v s => do
      return { s with credential := ← once s.credential v }⟩,
    ⟨"version", some 'V', .flag fun _ => .error .version⟩,
    helpRule]

/-- The options of encryption. -/
def encryptRules : List (Rule EncryptOptions) :=
  [⟨"input", some 'i', .value fun v s => do
      return { s with input := ← once s.input (← fileName v) }⟩,
    ⟨"output", some 'o', .value fun v s => do
      return { s with output := ← once s.output (← fileName v) }⟩,
    ⟨"alg", none, .value fun v s =>
      match Algorithm.ofName v with
      | .ok a => .ok { s with algorithms := s.algorithms ++ [a] }
      | .error _ => .error .usage⟩,
    ⟨"ic", none, .value fun v s => do
      return { s with iterations := ← once s.iterations (← numberBelow UInt32.size v) }⟩,
    ⟨"hint", none, .value fun v s => do
      return { s with hint := ← once s.hint v }⟩,
    ⟨"armor", none, .flag fun s => do
      return { s with armor := ← onceTrue s.armor }⟩,
    helpRule]

/-- The options of decryption. -/
def decryptRules : List (Rule DecryptOptions) :=
  [⟨"input", some 'i', .value fun v s => do
      return { s with input := ← once s.input (← fileName v) }⟩,
    ⟨"output", some 'o', .value fun v s => do
      return { s with output := ← once s.output (← fileName v) }⟩,
    ⟨"armor", none, .flag fun s => do
      return { s with armor := ← onceTrue s.armor }⟩,
    helpRule]

/-- The options of showing metadata. -/
def infoRules : List (Rule InfoOptions) :=
  [⟨"input", some 'i', .value fun v s => do
      return { s with input := ← once s.input (← fileName v) }⟩,
    ⟨"armor", none, .flag fun s => do
      return { s with armor := ← onceTrue s.armor }⟩,
    ⟨"json", none, .flag fun s => do
      return { s with json := ← onceTrue s.json }⟩,
    helpRule]

/-- The options of timing. -/
def benchRules : List (Rule Bool) :=
  [⟨"json", none, .flag onceTrue⟩, helpRule]

/-! ### Reading -/

/-- The names of the commands. -/
def commandNames : List String :=
  ["encrypt", "decrypt", "info", "bench", "help"]

/-- The options after a command. -/
def readAll {σ : Type} (rules : List (Rule σ)) (words : List String) (s : σ) : Except Stop σ :=
  Prod.fst <$> readOptions rules [] words s

/-- A command, from its name and the words after it. -/
def readCommand (name : String) (words : List String) : Except Stop Command :=
  match name with
  | "encrypt" => .encrypt <$> readAll encryptRules words {}
  | "decrypt" => .decrypt <$> readAll decryptRules words {}
  | "info" => .info <$> readAll infoRules words {}
  | "bench" => .bench <$> readAll benchRules words false
  | _ =>
    -- There is help for each command, and no part of a command has help of its own.
    .error (if words.length ≤ 1 ∧ words.all (· ∈ commandNames) then .help else .usage)

/-- The values of variables. -/
abbrev Environment := String → Option String

/-- Options that are not given, from their variables. -/
def GlobalOptions.orVariables (o : GlobalOptions) (env : Environment) :
    Except Stop GlobalOptions := do
  let settings ← match o.settings with
    | some file => .ok (some file)
    | none => (env "QCRYPT_CONFIG").mapM fileName
  return { o with
    settings
    logLevel := o.logLevel <|> env "QCRYPT_LOG"
    credential := o.credential <|> env "QCRYPT_USER_CRED" }

/-- The invocation that the words of a command line ask for. -/
def Invocation.read (words : List String) (env : Environment) : Except Stop Invocation := do
  match ← readOptions globalRules commandNames words {} with
  | (_, none) => .error .usage
  | (options, some (name, words)) =>
    let command ← readCommand name words
    return ⟨← options.orVariables env, command⟩

/-! ### The settings file -/

/-- A name in a directory. -/
def joinPath (directory name : String) : String :=
  if directory.isEmpty then name
  else if directory.endsWith "/" then directory ++ name
  else directory ++ "/" ++ name

/-- The settings file, unless one is given. -/
def usualSettingsFile (env : Environment) : String :=
  let directory := match env "XDG_CONFIG_HOME", env "HOME" with
    | some directory, _ => directory
    | none, some home => joinPath home ".config"
    | none, none => "."
  joinPath (joinPath directory "qcrypt") "qcrypt.toml"

end SealedStream.CommandLine
