import SealedStream.CommandLine.Shell

/-!
# Passwords

A password is the value of a variable, the same for all passes, or is typed for each pass on the
terminal.  A new password is typed twice.  Who types nothing declines.
-/

namespace SealedStream.CommandLine

/-- Which pass a question is about, if there are several. -/
def passLabel (loop : LoopIndex) : String :=
  if 1 < loop.count then s!" for loop {loop.index} of {loop.count}" else ""

/-- What is typed after a text has been shown. -/
def typed (text : String) : Program Shell (Except Fault String) := do
  match ← ask (.prompt text) with
  | .error e => return .error e.toFault
  | .ok none => return .error (.io .unexpectedEof "unexpected end of file")
  | .ok (some password) => return if password.isEmpty then .error .cancelled else .ok password

/-- A password that is typed twice. -/
def typedTwice (first second : String) : Program Shell (Except Fault String) := do
  match ← typed first with
  | .error fault => return .error fault
  | .ok password =>
    match ← typed second with
    | .error fault => return .error fault
    | .ok again =>
      if password = again then return .ok password
      else return .error (.invalidArgument "passwords do not match")

/-- Answers questions while encrypting, all with the same hint. -/
def newPassword (fixed hint : Option String) : Provider := fun info => do
  match fixed with
  | some password => return .ok ⟨password, hint⟩
  | none =>
    let label := passLabel info.loop
    let password ← typedTwice s!"Password{label} ({info.algorithm.name}): "
      s!"Confirm password{label}: "
    return password.map (⟨·, hint⟩)

/-- Answers questions while decrypting.  The hint is shown, if it says anything. -/
def knownPassword (fixed : Option String) : Provider := fun info => do
  match fixed with
  | some password => return .ok ⟨password, none⟩
  | none =>
    let hint := match info.hint with
      | some h => if h.isEmpty then "" else s!"Hint: {h}\n"
      | none => ""
    return (← typed s!"{hint}Password{passLabel info.loop}: ").map (⟨·, none⟩)

end SealedStream.CommandLine
