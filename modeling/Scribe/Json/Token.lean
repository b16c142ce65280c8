import Scribe.Json.Number

/-!
# Tokens of JSON texts

The lexer is a machine that takes one character at a time, so it is total and reads a text of any
length in one pass. Blanks are space, tab, line feed and carriage return.

A string token holds the text it denotes, or nothing if an escape in it names half of a surrogate
pair: the grammar allows that, but no text is denoted.
-/

namespace Scribe.Json

/-- A token of a JSON text. -/
inductive Token where
  | openObject
  | closeObject
  | openArray
  | closeArray
  | colon
  | comma
  | null
  | bool (value : Bool)
  | number (literal : NumberLiteral)
  | string (text : Option String)

/-! ## Strings -/

/-- What stands between the quotes of a string: a character, or a code unit given by number. -/
inductive Piece where
  | char (c : Char)
  | unit (n : Nat)

def isHighSurrogate (n : Nat) : Bool := 0xd800 ≤ n && n < 0xdc00

def isLowSurrogate (n : Nat) : Bool := 0xdc00 ≤ n && n < 0xe000

/-- The character that two surrogates stand for. -/
def ofSurrogates (high low : Nat) : Char :=
  Char.ofNat (0x10000 + (high - 0xd800) * 0x400 + (low - 0xdc00))

/-- Joins pairs of surrogates; a surrogate without its partner denotes nothing. -/
def joinPieces? : List Piece → Option (List Char)
  | [] => some []
  | .char c :: rest => (joinPieces? rest).map (c :: ·)
  | [.unit n] => if isHighSurrogate n || isLowSurrogate n then none else some [Char.ofNat n]
  | .unit n :: .unit m :: rest =>
    if isHighSurrogate n then
      if isLowSurrogate m then (joinPieces? rest).map (ofSurrogates n m :: ·) else none
    else if isLowSurrogate n then none
    else (joinPieces? (.unit m :: rest)).map (Char.ofNat n :: ·)
  | .unit n :: .char c :: rest =>
    if isHighSurrogate n || isLowSurrogate n then none
    else (joinPieces? rest).map (fun cs => Char.ofNat n :: c :: cs)

/-- The character that follows a backslash, where it stands for one character. -/
def simpleEscape? (c : Char) : Option Char :=
  match c with
  | '\x22' => some '\x22'
  | '\\' => some '\\'
  | '/' => some '/'
  | 'b' => some '\x08'
  | 'f' => some '\x0c'
  | 'n' => some '\n'
  | 'r' => some '\r'
  | 't' => some '\t'
  | _ => none

/-- The value of a hexadecimal digit of either case. -/
def hexValue? (c : Char) : Option Nat :=
  if '0' ≤ c ∧ c ≤ '9' then some (c.toNat - '0'.toNat)
  else if 'a' ≤ c ∧ c ≤ 'f' then some (c.toNat - 'a'.toNat + 10)
  else if 'A' ≤ c ∧ c ≤ 'F' then some (c.toNat - 'A'.toNat + 10)
  else none

/-! ## The machine -/

/-- What the lexer is in the middle of; pieces and characters are held last first. -/
inductive Mode where
  | between
  | string (done : List Piece)
  | escape (done : List Piece)
  | hex (done : List Piece) (value digits : Nat)
  | number (done : List Char)
  | word (done : List Char)

/-- The tokens found so far, and the mode. -/
structure Lexer where
  tokens : Array Token
  mode : Mode

def isBlank (c : Char) : Bool :=
  c = ' ' || c = '\t' || c = '\n' || c = '\r'

def isNumberChar (c : Char) : Bool :=
  c.isDigit || c = '+' || c = '-' || c = '.' || c = 'e' || c = 'E'

/-- The token a word stands for. -/
def word? (cs : List Char) : Option Token :=
  if cs = ['n', 'u', 'l', 'l'] then some .null
  else if cs = ['t', 'r', 'u', 'e'] then some (.bool true)
  else if cs = ['f', 'a', 'l', 's', 'e'] then some (.bool false)
  else none

namespace Lexer

def initial : Lexer := ⟨#[], .between⟩

/-- Takes a character that belongs to no token begun before. -/
def begin? (tokens : Array Token) (c : Char) : Option Lexer :=
  if isBlank c then some ⟨tokens, .between⟩
  else if c = '\x7b' then some ⟨tokens.push .openObject, .between⟩
  else if c = '\x7d' then some ⟨tokens.push .closeObject, .between⟩
  else if c = '[' then some ⟨tokens.push .openArray, .between⟩
  else if c = ']' then some ⟨tokens.push .closeArray, .between⟩
  else if c = ':' then some ⟨tokens.push .colon, .between⟩
  else if c = ',' then some ⟨tokens.push .comma, .between⟩
  else if c = '\x22' then some ⟨tokens, .string []⟩
  else if c = '-' || c.isDigit then some ⟨tokens, .number [c]⟩
  else if c.isAlpha then some ⟨tokens, .word [c]⟩
  else none

/-- Takes the next character. -/
def step? (l : Lexer) (c : Char) : Option Lexer :=
  match l.mode with
  | .between => begin? l.tokens c
  | .string done =>
    if c = '\x22' then
      some ⟨l.tokens.push (.string ((joinPieces? done.reverse).map String.ofList)), .between⟩
    else if c = '\\' then some ⟨l.tokens, .escape done⟩
    else if c.toNat < 0x20 then none
    else some ⟨l.tokens, .string (.char c :: done)⟩
  | .escape done =>
    if c = 'u' then some ⟨l.tokens, .hex done 0 0⟩
    else (simpleEscape? c).map fun e => ⟨l.tokens, .string (.char e :: done)⟩
  | .hex done value digits =>
    (hexValue? c).map fun d =>
      let value := value * 16 + d
      if digits = 3 then ⟨l.tokens, .string (.unit value :: done)⟩
      else ⟨l.tokens, .hex done value (digits + 1)⟩
  | .number done =>
    if isNumberChar c then some ⟨l.tokens, .number (c :: done)⟩
    else do
      let literal ← NumberLiteral.ofChars? done.reverse
      begin? (l.tokens.push (.number literal)) c
  | .word done =>
    if c.isAlpha then some ⟨l.tokens, .word (c :: done)⟩
    else do
      let token ← word? done.reverse
      begin? (l.tokens.push token) c

/-- The tokens of a text that ends here. -/
def finish? (l : Lexer) : Option (Array Token) :=
  match l.mode with
  | .between => some l.tokens
  | .number done => (NumberLiteral.ofChars? done.reverse).map (l.tokens.push <| .number ·)
  | .word done => (word? done.reverse).map l.tokens.push
  | _ => none

end Lexer

/-- The tokens of a text. -/
def tokens? (text : String) : Option (Array Token) := do
  let l ← text.toList.foldlM Lexer.step? Lexer.initial
  l.finish?

end Scribe.Json
