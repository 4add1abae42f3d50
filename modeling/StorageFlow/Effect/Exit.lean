import StorageFlow.Dialect
import StorageFlow.Syntax.Stmt

/-!
# StorageFlow.Effect.Exit

How control leaves a statement, as far as its outermost form tells.

* `Exit` — the ways; `Stmt.exit` — the way of one statement.
* `firstDiversion` — the first statement of a list that control never passes.
-/

namespace StorageFlow

/-- How control leaves a statement. -/
inductive Exit
  /-- Control may go on with the next statement. -/
  | next
  | breakLoop
  | continueLoop
  /-- Control never returns. -/
  | halt
  deriving DecidableEq

/-- Whether the expression is itself a terminating operation. Its arguments are not considered, and
a call that is not known to be a builtin counts as returning. -/
def Expr.terminates (dialect : Dialect) : Expr → Bool
  | .literal _ => false
  | .identifier _ => false
  | .call callee _ _ => (dialect.callEffects? callee.name).any Effects.terminates
  | .instruction operator _ _ => (dialect.instructionEffects operator).terminates

/-- How control leaves the statement. The answer for a statement that holds others is `next`. -/
def Stmt.exit (dialect : Dialect) : Stmt → Exit
  | .expression value _ => if value.terminates dialect then .halt else .next
  | .breakLoop _ => .breakLoop
  | .continueLoop _ => .continueLoop
  | _ => .next

/-- The first statement that control never passes: how it leaves, and the position. If control may
reach the end of the list, the answer is `next` without a position. -/
def firstDiversion (dialect : Dialect) : List Stmt → Exit × Option Nat
  | [] => (.next, none)
  | s :: ss =>
    match s.exit dialect with
    | .next =>
      let (kind, position?) := firstDiversion dialect ss
      (kind, position?.map (· + 1))
    | kind => (kind, some 0)

end StorageFlow
