/-!
# Reading characters

A reader takes characters from the front of a text. Alternatives start again where they began.
-/

namespace Scribe.Toml

/-- A computation that takes characters, or fails. -/
abbrev Reader := StateT (List Char) Option

namespace Reader

/-- The next character, left where it is. -/
def peek? : Reader (Option Char) := do
  return (← get).head?

/-- The next character, if it is of a class. -/
def satisfy (p : Char → Bool) : Reader Char := do
  match ← get with
  | c :: rest =>
    if p c then
      set rest
      return c
    else
      failure
  | [] => failure

/-- A given character. -/
def char (c : Char) : Reader Unit := do
  let _ ← satisfy (· == c)

/-- A given word. -/
def word (w : String) : Reader Unit :=
  w.toList.forM char

/-- All characters of a class up to the first other one. -/
def run (p : Char → Bool) : Reader (List Char) :=
  modifyGet fun cs => (cs.takeWhile p, cs.dropWhile p)

/-- At least one character of a class, and all that follow. -/
def run1 (p : Char → Bool) : Reader (List Char) := do
  match ← run p with
  | [] => failure
  | cs => return cs

/-- The end of the text. -/
def endOfText : Reader Unit := do
  match ← get with
  | [] => return ()
  | _ :: _ => failure

end Reader

open Reader

/-! ## Blanks and lines -/

def isBlank (c : Char) : Bool :=
  c == ' ' || c == '\t'

/-- Characters that may stand in comments and strings: no control characters but the tab. -/
def isPlain (c : Char) : Bool :=
  c == '\t' || (0x20 ≤ c.toNat && c.toNat != 0x7f)

/-- Blanks. -/
def blanks : Reader Unit := do
  let _ ← run isBlank

/-- The end of a line. -/
def newline : Reader Unit := do
  match ← get with
  | '\n' :: rest => set rest
  | '\r' :: '\n' :: rest => set rest
  | _ => failure

/-- A comment, up to the end of its line. -/
def comment : Reader Unit := do
  char '#'
  let _ ← run isPlain

/-- What may follow an expression on its line. -/
def lineTrailing : Reader Unit := do
  blanks
  let _ ← optional comment
  newline <|> endOfText

/-- One step over blanks, comments and line ends. -/
def fillerStep : Reader Unit :=
  (do let _ ← run1 isBlank) <|> (do comment; newline) <|> newline

/-- Repeats a reader as long as it succeeds, at most `n` times. -/
def repeatUpTo {α : Type} (r : Reader α) : Nat → Reader (List α)
  | 0 => return []
  | n + 1 => do
    match ← optional r with
    | none => return []
    | some a => do
      let as ← repeatUpTo r n
      return a :: as

/-- Repeats a reader as long as it succeeds. Each time it has to take a character, so the length of
the text bounds the number of times. -/
def repeatAll {α : Type} (r : Reader α) : Reader (List α) := do
  repeatUpTo r (← get).length

/-- Blanks, comments and line ends between the values of an array. -/
def filler : Reader Unit := do
  let _ ← repeatAll fillerStep

end Scribe.Toml
