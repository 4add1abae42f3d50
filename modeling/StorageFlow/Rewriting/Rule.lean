import StorageFlow.Effect.Summary
import StorageFlow.Text.Quoted

/-!
# StorageFlow.Rewriting.Rule

Rewriting rules for operations.

* `Dialect.operation?` — the instruction that an expression computes, in either spelling.
* `Rule` — rewrites an instruction applied to arguments, or does not match, or fails.
* `RuleTable.firstMatch` — the first rule of a table that matches wins.
-/

namespace StorageFlow

/-- The instruction and the arguments of an expression that is an instruction or calls a builtin
that stands for one, provided that the number of arguments is right. -/
def Dialect.operation? (dialect : Dialect) : Expr → Option (Instruction × List Expr)
  | .literal _ => none
  | .identifier _ => none
  | .call callee arguments _ =>
      ((dialect.builtin? callee.name).bind Builtin.instruction?).bind fun operator =>
        if arguments.length = operator.arity then some (operator, arguments) else none
  | .instruction operator arguments _ =>
      if arguments.length = operator.arity then some (operator, arguments) else none

/-- A rewriting rule. -/
structure Rule where
  name : String
  /-- Rewrites an instruction applied to arguments; the answer is `none` if the rule does not
  match. -/
  apply : Dialect → Instruction → List Expr → Except Error (Option Expr)

/-- Rules in the order in which they are tried. -/
abbrev RuleTable := List Rule

namespace RuleTable

/-- The first rule that matches, by name, with what it makes of the operation. A rule that fails
stops the search. -/
def firstMatch (dialect : Dialect) (operator : Instruction) (arguments : List Expr) :
    RuleTable → Except Error (Option (String × Expr))
  | [] => .ok none
  | rule :: rules =>
    match rule.apply dialect operator arguments with
    | .error e => .error e
    | .ok (some result) => .ok (some (rule.name, result))
    | .ok none => firstMatch dialect operator arguments rules

/-- The names of the rules, written as a list. -/
def toText (rules : RuleTable) : String :=
  Quoted.quotedList (rules.map Rule.name)

end RuleTable

end StorageFlow
