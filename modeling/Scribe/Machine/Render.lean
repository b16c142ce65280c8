import Scribe.Core.Dump
import Scribe.Machine.Cycle

/-!
# Text of values

Strings and runes are quoted. A value that contains itself has no text. Any other is nested no deeper
than there are pieces of storage.
-/

namespace Scribe.Machine

open Scribe.Core
open Scribe.Text (quoteString quoteRune)

/-- The texts of several values, if all have one. -/
def textsOf (text : Value → Option String) (vs : Array Value) : Option (List String) :=
  vs.toList.mapM text

/-- The text of a value whose storage is nested less deep than `depth`. -/
def textWithin (h : Heap) : Nat → Value → Option String
  | 0, _ => none
  | depth + 1, v =>
    match v with
    | .void => some "void"
    | .null => some "null"
    | .bool b => some (toString b)
    | .int n => some (toString n.toInt)
    | .rune c => some (quoteRune c)
    | .string s => some (quoteString s)
    | .list a => do
      let items ← textsOf (textWithin h depth) (h.list a)
      return "[" ++ commaSeparated items ++ "]"
    | .set a => do
      let items ← textsOf (textWithin h depth) (h.set a)
      return "set\x7b" ++ commaSeparated items ++ "\x7d"
    | .map a => do
      let keys ← textsOf (textWithin h depth) ((h.map a).map (·.1))
      let values ← textsOf (textWithin h depth) ((h.map a).map (·.2))
      return "\x7b" ++ commaSeparated (keys.zipWith (· ++ ": " ++ ·) values) ++ "\x7d"
    | .object _ a => do
      let fields ← textsOf (textWithin h depth) (h.fields a)
      return h.modelName a ++ " \x7b " ++ commaSeparated fields ++ " \x7d"

/-- The text of a value; `none` if it contains itself. -/
def text? (h : Heap) (v : Value) : Option String :=
  if isCyclic h v then none else textWithin h (h.size + 1) v

end Scribe.Machine
