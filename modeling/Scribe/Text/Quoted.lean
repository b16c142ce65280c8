import Scribe.Text.Unprintable

/-!
# Quoted text

Strings and runes are shown between quotes, with every character that cannot be shown as itself
escaped. The five characters NUL, tab, carriage return, line feed and backslash have an escape of
their own, the quote in use is escaped by a backslash (the other kind of quote is not), and every
other unprintable character is written by its code point.

No escape contains a line break, so a quoted text always stays on one line.
-/

namespace Scribe.Text

/-- The code point of a character between braces, in lower case hexadecimal without padding. -/
def codePointEscape (c : Char) : List Char :=
  ['\\', 'u', '\x7b'] ++ Nat.toDigits 16 c.toNat ++ ['\x7d']

/-- One character as it stands in a text quoted by `quote`. -/
def escapeChar (quote c : Char) : List Char :=
  if c = '\x00' then ['\\', '0']
  else if c = '\t' then ['\\', 't']
  else if c = '\r' then ['\\', 'r']
  else if c = '\n' then ['\\', 'n']
  else if c = '\\' then ['\\', '\\']
  else if c = quote then ['\\', quote]
  else if c.toNat < 0x20 || c.toNat = 0x7f || isUnprintable c then codePointEscape c
  else [c]

/-- Characters between two copies of `quote`. -/
def quoteWith (quote : Char) (cs : List Char) : String :=
  String.ofList (quote :: (cs.flatMap (escapeChar quote) ++ [quote]))

/-- A string between double quotes. -/
def quoteString (s : String) : String :=
  quoteWith '\x22' s.toList

/-- A rune between single quotes. -/
def quoteRune (c : Char) : String :=
  quoteWith '\x27' [c]

end Scribe.Text
