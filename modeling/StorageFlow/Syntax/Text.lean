import StorageFlow.Syntax.Stmt

/-!
# StorageFlow.Syntax.Text

The written form of a tree, on one line.

* `Expr.toText`, `Stmt.toText`, `Block.toText` — statements of a block are separated by blanks.
* `commaSeparated` — the form of every list of names and of arguments.
-/

namespace StorageFlow

/-- The items of a list, a comma and a blank between neighbours. -/
def commaSeparated (items : List String) : String :=
  ", ".intercalate items

/-- A literal is written as its text, a string in double quotes. Nothing inside is escaped. -/
def Literal.toText (literal : Literal) : String :=
  match literal.kind with
  | .number => literal.text
  | .boolean => literal.text
  | .string => "\"" ++ literal.text ++ "\""

/-- A type follows the declared name behind a colon. -/
def Binder.toText (declared : Binder) : String :=
  match declared.type? with
  | some type => declared.name ++ ":" ++ type
  | none => declared.name

namespace Expr

mutual

/-- The written form of an expression. -/
def toText : Expr → String
  | .literal value => value.toText
  | .identifier x => x.name
  | .call callee arguments _ => callee.name ++ "(" ++ commaSeparated (textAll arguments) ++ ")"
  | .instruction operator arguments _ =>
      operator.mnemonic ++ "(" ++ commaSeparated (textAll arguments) ++ ")"

/-- The written forms of the expressions of a list. -/
def textAll : List Expr → List String
  | [] => []
  | e :: es => e.toText :: textAll es

end

theorem textAll_eq_map (es : List Expr) : textAll es = es.map toText := by
  induction es with
  | nil => rfl
  | cons e es ih => simp [textAll, ih]

end Expr

/-- The written form of a value behind the names that take it. -/
def Expr.assignedText : Option Expr → String
  | some value => " := " ++ value.toText
  | none => ""

/-- The head of a function definition, its results behind an arrow if it has any. -/
def signatureText (name : Name) (parameters results : List Binder) : String :=
  let head := "function " ++ name ++ "(" ++ commaSeparated (parameters.map Binder.toText) ++ ")"
  if results.isEmpty then head
  else head ++ " -> " ++ commaSeparated (results.map Binder.toText)

mutual

/-- The written form of a statement. -/
def Stmt.toText : Stmt → String
  | .expression value _ => value.toText
  | .assign targets (some value) _ =>
      commaSeparated (targets.map Identifier.name) ++ " := " ++ value.toText
  | .assign targets none _ => commaSeparated (targets.map Identifier.name) ++ " := <missing>"
  | .declare declared value? _ =>
      "let " ++ commaSeparated (declared.map Binder.toText) ++ Expr.assignedText value?
  | .ifThen condition body _ => "if " ++ condition.toText ++ " " ++ body.toText
  | .switch scrutinee cases _ => "switch " ++ scrutinee.toText ++ Case.spacedText cases
  | .forLoop initial condition post body _ =>
      "for " ++ initial.toText ++ " " ++ condition.toText ++ " " ++ post.toText ++ " " ++
        body.toText
  | .function name parameters results body _ =>
      signatureText name parameters results ++ " " ++ body.toText
  | .breakLoop _ => "break"
  | .continueLoop _ => "continue"
  | .block body => body.toText

/-- The written forms of statements, a blank before each. -/
def Stmt.spacedText : List Stmt → String
  | [] => ""
  | s :: ss => " " ++ s.toText ++ Stmt.spacedText ss

/-- The written form of a case. -/
def Case.toText : Case → String
  | ⟨some value, body, _⟩ => "case " ++ value.toText ++ " " ++ body.toText
  | ⟨none, body, _⟩ => "default " ++ body.toText

/-- The written forms of cases, a blank before each. -/
def Case.spacedText : List Case → String
  | [] => ""
  | c :: cs => " " ++ c.toText ++ Case.spacedText cs

/-- The written form of a block, in braces. -/
def Block.toText : Block → String
  | ⟨statements, _⟩ => "\x7b" ++ Stmt.spacedText statements ++ " \x7d"

end

end StorageFlow
