import Scribe.Toml.Reader

/-!
# Quoted strings

Strings stand between double or single quotes, or between three of them to span several lines.
Between double quotes a backslash starts an escape; between single quotes nothing does.
-/

namespace Scribe.Toml

open Reader

/-- The value of hexadecimal digits. -/
def hexValue? (digits : List Char) : Option Nat :=
  digits.foldlM (fun n c => do
    let d ←
      if '0' ≤ c ∧ c ≤ '9' then some (c.toNat - '0'.toNat)
      else if 'a' ≤ c ∧ c ≤ 'f' then some (c.toNat - 'a'.toNat + 10)
      else if 'A' ≤ c ∧ c ≤ 'F' then some (c.toNat - 'A'.toNat + 10)
      else none
    return n * 16 + d) 0

/-- The character with a code point in hexadecimal digits. -/
def charOfHex? (digits : List Char) : Option Char := do
  let n ← hexValue? digits
  if n.isValidChar then some (Char.ofNat n) else none

/-- The character that a short escape stands for. -/
def shortEscape? : Char → Option Char
  | 'b' => some '\x08'
  | 't' => some '\t'
  | 'n' => some '\n'
  | 'f' => some '\x0c'
  | 'r' => some '\r'
  | '\x22' => some '\x22'
  | '\\' => some '\\'
  | _ => none

/-- A character in front of what follows it. -/
def push (c : Option Char) (rest : Option (List Char × List Char)) :
    Option (List Char × List Char) := do
  let c ← c
  let (cs, rest) ← rest
  return (c :: cs, rest)

/-- A string in double quotes after its opening quote, and the text after it. -/
def basicBody : List Char → Option (List Char × List Char)
  | '\x22' :: rest => some ([], rest)
  | '\\' :: 'u' :: a :: b :: c :: d :: rest => push (charOfHex? [a, b, c, d]) (basicBody rest)
  | '\\' :: 'U' :: a :: b :: c :: d :: e :: f :: g :: h :: rest =>
    push (charOfHex? [a, b, c, d, e, f, g, h]) (basicBody rest)
  | '\\' :: c :: rest => push (shortEscape? c) (basicBody rest)
  | c :: rest => if isPlain c && c != '\\' then push (some c) (basicBody rest) else none
  | [] => none

/-- A string in single quotes after its opening quote, and the text after it. -/
def literalBody : List Char → Option (List Char × List Char)
  | '\x27' :: rest => some ([], rest)
  | c :: rest => if isPlain c then push (some c) (literalBody rest) else none
  | [] => none

/-- What stands behind three closing quotes: up to two more quotes belong to the string. -/
def afterClosing (quote : Char) : List Char → List Char × List Char
  | a :: b :: rest =>
    if a ≠ quote then ([], a :: b :: rest)
    else if b ≠ quote then ([a], b :: rest)
    else ([a, b], rest)
  | [a] => if a = quote then ([a], []) else ([], [a])
  | [] => ([], [])

/-- Whether only blanks are left on the line. -/
def lineIsOver (cs : List Char) : Bool :=
  match cs.dropWhile isBlank with
  | '\n' :: _ => true
  | '\r' :: '\n' :: _ => true
  | _ => false

/-- A string in three double quotes after its opening, and the text after it. A backslash at the end
of a line takes away all blanks and line ends up to the next other character; `trim` says that this
is going on. -/
def basicLines (trim : Bool) : List Char → Option (List Char × List Char)
  | '\x22' :: '\x22' :: '\x22' :: rest => some (afterClosing '\x22' rest)
  | '\r' :: '\n' :: rest =>
    if trim then basicLines true rest else push (some '\n') (basicLines false rest)
  | '\n' :: rest => if trim then basicLines true rest else push (some '\n') (basicLines false rest)
  | '\\' :: 'u' :: a :: b :: c :: d :: rest =>
    push (charOfHex? [a, b, c, d]) (basicLines false rest)
  | '\\' :: 'U' :: a :: b :: c :: d :: e :: f :: g :: h :: rest =>
    push (charOfHex? [a, b, c, d, e, f, g, h]) (basicLines false rest)
  | '\\' :: c :: rest =>
    if lineIsOver (c :: rest) then basicLines true (c :: rest)
    else push (shortEscape? c) (basicLines false rest)
  | c :: rest =>
    if trim && isBlank c then basicLines true rest
    else if isPlain c && c != '\\' then push (some c) (basicLines false rest)
    else none
  | [] => none

/-- A string in three single quotes after its opening, and the text after it. -/
def literalLines : List Char → Option (List Char × List Char)
  | '\x27' :: '\x27' :: '\x27' :: rest => some (afterClosing '\x27' rest)
  | '\r' :: '\n' :: rest => push (some '\n') (literalLines rest)
  | '\n' :: rest => push (some '\n') (literalLines rest)
  | c :: rest => if isPlain c then push (some c) (literalLines rest) else none
  | [] => none

/-- A line end directly after the opening quotes does not count. -/
def dropNewline : List Char → List Char
  | '\r' :: '\n' :: rest => rest
  | '\n' :: rest => rest
  | cs => cs

/-- A string on one line. -/
def quotedLine : Reader String := fun cs => do
  let (content, rest) ← match cs with
    | '\x22' :: rest => basicBody rest
    | '\x27' :: rest => literalBody rest
    | _ => none
  return (String.ofList content, rest)

/-- A string of any form. -/
def quoted : Reader String := fun cs =>
  match cs with
  | '\x22' :: '\x22' :: '\x22' :: rest => do
    let (content, rest) ← basicLines false (dropNewline rest)
    return (String.ofList content, rest)
  | '\x27' :: '\x27' :: '\x27' :: rest => do
    let (content, rest) ← literalLines (dropNewline rest)
    return (String.ofList content, rest)
  | cs => quotedLine cs

end Scribe.Toml
