import Scribe.Core.Program
import Scribe.Text.Quoted

/-!
# Text of a program

A program prints as a list of lines, each with its depth: definitions in the order of their
declaration, bodies one level deeper than their heads, and a statement per line. Literals are
quoted, so no literal can break a line.
-/

namespace Scribe.Core

open Scribe.Text (quoteString quoteRune)

/-- A line of output. -/
structure Line where
  depth : Nat
  text : String
  deriving DecidableEq, Repr

namespace Line

/-- A line is indented by two blanks for each level. -/
def render (l : Line) : String :=
  String.ofList (List.replicate (2 * l.depth) ' ') ++ l.text ++ "\n"

end Line

/-- Texts with a comma between them. -/
def commaSeparated (texts : List String) : String :=
  ", ".intercalate texts

/-- Whether a character is white space. -/
def isSpace (c : Char) : Bool :=
  let n := c.toNat
  (9 ≤ n && n ≤ 13) || n == 0x20 || n == 0x85 || n == 0xa0 || n == 0x1680 ||
    (0x2000 ≤ n && n ≤ 0x200a) || n == 0x2028 || n == 0x2029 || n == 0x202f || n == 0x205f ||
    n == 0x3000

/-- A text without the white space at its end. -/
def trimEnd (text : String) : String :=
  String.ofList (text.toList.reverse.dropWhile isSpace).reverse

namespace Program

variable (p : Program)

/-- The name of a definition, empty where there is none. -/
def definitionName (d : Definition) : String :=
  (p.definitionName? d).getD ""

/-- The name of a function, empty where there is none. -/
def functionName (id : FunctionId) : String :=
  ((p.getFunction? id).map (·.name)).getD ""

/-- The name of a local, empty where there is none. -/
def localName (id : LocalId) : String :=
  ((p.getLocal? id).map (·.name)).getD ""

/-- A call, given the texts of its receiver and its arguments. -/
def callText (receiver : Option String) (arguments : List String)
    (function : FunctionId) : String :=
  let call := p.functionName function ++ "(" ++ commaSeparated arguments ++ ")"
  match receiver with
  | some r => r ++ "." ++ call
  | none => call

/-- An operator applied to the text of its operand. Words stand like functions. -/
def unaryText (op : UnaryOp) (operand : String) : String :=
  if op.isSign then op.symbol ++ operand else op.symbol ++ "(" ++ operand ++ ")"

mutual

/-- An expression. -/
def exprText : Expr → String
  | .bool value => toString value
  | .int value => toString value.toInt
  | .rune value => quoteRune value
  | .string value => quoteString value
  | .list items _ => "[" ++ commaSeparated (exprTexts items) ++ "]"
  | .set items _ => "set\x7b" ++ commaSeparated (exprTexts items) ++ "\x7d"
  | .map entries _ _ => "\x7b" ++ commaSeparated (entryTexts entries) ++ "\x7d"
  | .emptyList item => "list<" ++ p.typeName item ++ ">\x7b\x7d"
  | .emptySet item => "set<" ++ p.typeName item ++ ">\x7b\x7d"
  | .emptyMap key value => "map<" ++ p.typeName key ++ ", " ++ p.typeName value ++ ">\x7b\x7d"
  | .call receiver arguments function _ =>
    p.callText (receiverText receiver) (exprTexts arguments) function
  | .lookup container key _ _ => exprText container ++ "[" ++ exprText key ++ "]"
  | .property receiver field _ =>
    exprText receiver ++ "." ++ p.definitionName (.field field.model field.index)
  | .contains set value => exprText set ++ ".contains(" ++ exprText value ++ ")"
  | .new model => "new " ++ p.typeName (.model model) ++ "()"
  | .length operand _ => "len(" ++ exprText operand ++ ")"
  | .unary op operand _ => unaryText op (exprText operand)
  | .binary op left right _ =>
    "(" ++ exprText left ++ " " ++ op.symbol ++ " " ++ exprText right ++ ")"
  | .var definition _ => p.definitionName definition
  | .self _ => "self"
  | .null _ => "null"
  | .pop list _ => exprText list ++ ".pop()"

def exprTexts : List Expr → List String
  | [] => []
  | e :: rest => exprText e :: exprTexts rest

def entryTexts : List (Expr × Expr) → List String
  | [] => []
  | (key, value) :: rest => (exprText key ++ ": " ++ exprText value) :: entryTexts rest

def receiverText : Option Expr → Option String
  | none => none
  | some e => some (exprText e)

end

/-- A statement on one line; one that holds blocks only by its keyword. -/
def stmtText : Stmt → String
  | .declare binding value =>
    let type := ((p.getLocal? binding).map fun l => p.typeName l.type).getD ""
    "let " ++ p.localName binding ++ ": " ++ type ++ " = " ++ p.exprText value
  | .assign place value => p.exprText place ++ " = " ++ p.exprText value
  | .ret (some value) _ => "return " ++ p.exprText value
  | .ret none _ => "return"
  | .brk => "break"
  | .cont => "continue"
  | .add set value => p.exprText set ++ ".add(" ++ p.exprText value ++ ")"
  | .push list value => p.exprText list ++ ".push(" ++ p.exprText value ++ ")"
  | .pop list => p.exprText list ++ ".pop()"
  | .call receiver arguments function _ =>
    p.callText (p.receiverText receiver) (p.exprTexts arguments) function
  | .conditional .. => "if ..."
  | .forLoop .. | .forEach .. => "for ..."

/-- The head of a loop. Nothing follows the second semicolon when there is no last part. -/
def forText (start : Option Stmt) (condition : Expr) (after : Option Stmt) :
    String :=
  trimEnd ("for " ++ (start.map p.stmtText).getD "" ++ "; " ++ p.exprText condition ++ "; " ++
    (after.map p.stmtText).getD "")

mutual

/-- The lines of a statement. -/
def stmtLines (depth : Nat) : Stmt → List Line
  | .conditional [] otherwise => otherwiseLines depth otherwise
  | .conditional ((condition, block) :: arms) otherwise =>
    ⟨depth, "if " ++ p.exprText condition⟩ ::
      (blockLines (depth + 1) block ++ armLines depth arms ++ otherwiseLines depth otherwise)
  | .forLoop start condition after body =>
    ⟨depth, p.forText start condition after⟩ :: blockLines (depth + 1) body
  | .forEach item iterable _ _ body =>
    ⟨depth, "for " ++ p.localName item ++ " in " ++ p.exprText iterable⟩ ::
      blockLines (depth + 1) body
  | s => [⟨depth, p.stmtText s⟩]

def blockLines (depth : Nat) : List Stmt → List Line
  | [] => []
  | s :: rest => stmtLines depth s ++ blockLines depth rest

/-- The arms after the first. -/
def armLines (depth : Nat) : List (Expr × List Stmt) → List Line
  | [] => []
  | (condition, block) :: rest =>
    ⟨depth, "else if " ++ p.exprText condition⟩ ::
      (blockLines (depth + 1) block ++ armLines depth rest)

def otherwiseLines (depth : Nat) : Option (List Stmt) → List Line
  | none => []
  | some block => ⟨depth, "else"⟩ :: blockLines (depth + 1) block

end

def constantLine (c : Constant) : Line :=
  ⟨0, "const " ++ c.name ++ ": " ++ p.typeName c.type ++ " = " ++ p.exprText c.value⟩

/-- The head of a function or method. -/
def headText (f : Function) : String :=
  let parameters := f.parameters.map fun q => q.name ++ ": " ++ p.typeName q.type
  (if f.owner.isNone then "function " else "method ") ++ f.name ++ "(" ++
    commaSeparated parameters ++ ") -> " ++ p.typeName f.returnType

def functionLines (depth : Nat) (id : FunctionId) : List Line :=
  match p.getFunction? id with
  | some f => ⟨depth, p.headText f⟩ :: p.blockLines (depth + 1) f.body
  | none => []

def equalityLines (e : Equality) : List Line :=
  ⟨1, "equal(" ++ p.localName e.other ++ ")"⟩ :: p.blockLines 2 e.body

def hashingLines (body : Block) : List Line :=
  ⟨1, "hash"⟩ :: p.blockLines 2 body

/-- A model: its fields, its methods, then its overrides. -/
def modelLines (m : Model) : List Line :=
  ⟨0, "model " ++ m.name⟩ ::
    (m.fields.map (fun f => ⟨1, "field " ++ f.name ++ ": " ++ p.typeName f.type⟩) ++
      m.methods.flatMap (fun f => p.functionLines 1 f.function) ++
      (m.equality.map p.equalityLines).getD [] ++
      (m.hashing.map p.hashingLines).getD [])

/-- The whole program: constants, models, free functions. -/
def lines : List Line :=
  ⟨0, "module " ++ p.name⟩ ::
    (p.constants.toList.map p.constantLine ++ p.models.toList.flatMap p.modelLines ++
      p.freeFunctions.flatMap (p.functionLines 0))

/-- The text of a program. -/
def dump : String :=
  String.join (p.lines.map Line.render)

end Program

end Scribe.Core
