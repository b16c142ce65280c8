/-!
# Reports

A failure is reported by a message and the causes behind it, the outermost first.
-/

namespace Scribe

/-- What went wrong, and why. -/
structure Report where
  message : String
  causes : List String := []
  deriving DecidableEq, Repr

namespace Report

/-- The report in one piece of text. -/
def inline (r : Report) : String :=
  ": ".intercalate (r.message :: r.causes)

/-- A text whose further lines are indented. -/
def indentLines (width : Nat) (text : String) : String :=
  ("\n" ++ String.ofList (List.replicate width ' ')).intercalate (text.splitOn "\n")

/-- A number, right-aligned in five columns. -/
def numberText (n : Nat) : String :=
  let digits := toString n
  String.ofList (List.replicate (5 - digits.length) ' ') ++ digits ++ ": "

/-- The only cause. -/
def soleCause (text : String) : String :=
  "    " ++ indentLines 4 text

/-- One of several causes. -/
def numberedCause (n : Nat) (text : String) : String :=
  numberText n ++ indentLines 7 text

/-- The causes, each on a line of its own and numbered if there are several. -/
def causeLines : List String → List String
  | [cause] => [soleCause cause]
  | causes => causes.mapIdx numberedCause

/-- The text of a report. -/
def render (r : Report) : String :=
  if r.causes.isEmpty then "Error: " ++ r.message ++ "\n"
  else
    "Error: " ++ r.message ++ "\n\nCaused by:\n" ++ "\n".intercalate (causeLines r.causes) ++ "\n"

end Report

end Scribe
