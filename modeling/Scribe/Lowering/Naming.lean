import Scribe.Lowering.Error

/-!
# Naming conventions

Modules and models are letters with an uppercase first, other definitions but constants are
letters with a lowercase first, and a constant is any identifier. All of it in ASCII.
-/

namespace Scribe.Lowering

/-- Requires a non-empty name of letters and gives its first. -/
def checkLetters (name : String) : Checked Char :=
  match name.toList with
  | [] => .error (.invalidName name .notEmpty)
  | first :: rest =>
    if (first :: rest).all Char.isAlpha then .ok first
    else .error (.invalidName name .lettersOnly)

/-- The name of a module or a model. -/
def checkTypeName (name : String) : Checked Unit := do
  if (← checkLetters name).isUpper then
    return ()
  else
    throw (.invalidName name .uppercaseFirst)

/-- The name of a function, method, parameter, field or local. -/
def checkMemberName (name : String) : Checked Unit := do
  if (← checkLetters name).isLower then
    return ()
  else
    throw (.invalidName name .lowercaseFirst)

/-- The name of a constant. -/
def checkConstantName (name : String) : Checked Unit :=
  match name.toList with
  | [] => .error (.invalidName name .notEmpty)
  | first :: rest =>
    if first.isDigit then .error (.invalidName name .noDigitFirst)
    else if (first :: rest).all fun c => c.isAlphanum || c == '_' then .ok ()
    else .error (.invalidName name .identifierOnly)

end Scribe.Lowering
