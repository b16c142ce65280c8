/-!
# Operators

The unary and binary operators of the language, shared by syntax trees and core programs, with the
spelling they have in texts.
-/

namespace Scribe

/-- Unary operators. -/
inductive UnaryOp where
  /-- Logical negation. -/
  | not
  /-- Arithmetic negation. -/
  | negate
  /-- The code point of a rune. -/
  | castToInt
  /-- The string that holds just one rune. -/
  | castToString
  /-- The hash of a value. -/
  | hash
  deriving DecidableEq, Repr

/-- Binary operators. -/
inductive BinaryOp where
  | equals
  | notEqual
  | lessThan
  | lessThanOrEqual
  | greaterThan
  | greaterThanOrEqual
  | add
  | subtract
  | multiply
  /-- Division, toward zero. -/
  | divide
  | modulo
  | and
  | or
  deriving DecidableEq, Repr

namespace UnaryOp

/-- Spelling of an operator. -/
def symbol : UnaryOp → String
  | not => "!"
  | negate => "-"
  | castToInt => "int"
  | castToString => "string"
  | hash => "hash"

/-- Whether the operator is written before its operand, without parentheses. -/
def isSign : UnaryOp → Bool
  | not | negate => true
  | castToInt | castToString | hash => false

end UnaryOp

namespace BinaryOp

/-- Spelling of an operator. -/
def symbol : BinaryOp → String
  | equals => "=="
  | notEqual => "!="
  | lessThan => "<"
  | lessThanOrEqual => "<="
  | greaterThan => ">"
  | greaterThanOrEqual => ">="
  | add => "+"
  | subtract => "-"
  | multiply => "*"
  | divide => "/"
  | modulo => "%"
  | and => "&&"
  | or => "||"

/-- Whether the operator is `==` or `!=`. -/
def isEquality : BinaryOp → Bool
  | equals | notEqual => true
  | _ => false

end BinaryOp

end Scribe
