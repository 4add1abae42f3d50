import StorageFlow.Analysis.Run

/-!
# StorageFlow.Pass

Passes that replace expressions by simpler ones of the same value.

* `Pass.copyPropagation` — replaces a variable by the literal it holds, or by the variable it
  copies.
* `Pass.loadForwarding` — replaces a load by the variable that is known to be stored there.
* `Pass.hookOf`, `Pass.run` — passes one after another at each expression, and `PassCounts` of
  what they replaced.
-/

namespace StorageFlow

/-- A pass over a program. -/
inductive Pass
  | copyPropagation
  | loadForwarding
  deriving DecidableEq

/-- How often each pass replaced an expression. -/
structure PassCounts where
  propagated : Nat := 0
  forwarded : Nat := 0
  deriving DecidableEq

namespace Pass

/-- What a variable is replaced by: the literal it is known to hold, or the visible variable that it
is known to equal. -/
def propagated? (view : View) (x : Identifier) : Option Expr :=
  match view.knowledge.value? x.name with
  | some (.literal value) => some (.literal { value with span := x.span })
  | some (.identifier y) =>
      if view.isVisible y.name then some (.identifier ⟨y.name, x.span⟩) else none
  | _ => none

/-- What an expression is replaced by if it loads from a slot that a variable holds: the visible
variable that is known to be stored there. -/
def forwarded? (view : View) (e : Expr) : Option Expr :=
  match view.context.dialect.operation? e with
  | some (.sload, [.identifier slot]) =>
      ((view.knowledge.storedAt? slot.name).filter view.isVisible).map fun value =>
        .identifier ⟨value, e.span⟩
  | _ => none

/-- What the pass replaces an expression by, if it does. -/
def replacement? (pass : Pass) (view : View) (e : Expr) : Option Expr :=
  match pass, e with
  | copyPropagation, .identifier x => propagated? view x
  | copyPropagation, _ => none
  | loadForwarding, e => forwarded? view e

/-- Counts one replacement by the pass. -/
def count (pass : Pass) (counts : PassCounts) : PassCounts :=
  match pass with
  | copyPropagation => { counts with propagated := counts.propagated + 1 }
  | loadForwarding => { counts with forwarded := counts.forwarded + 1 }

/-- The hook that applies the pass to each expression. -/
def hook (pass : Pass) : Hook PassCounts := fun view e counts =>
  match pass.replacement? view e with
  | some replaced => .done replaced (pass.count counts)
  | none => .done e counts

/-- The hook that applies passes one after another to each expression. -/
def hookOf : List Pass → Hook PassCounts
  | [] => .idle
  | pass :: passes => pass.hook.andThen (hookOf passes)

/-- Runs passes over a program with a new analysis, standard rules and the default configuration. -/
def run (dialect : Dialect) (passes : List Pass) (program : Block) (counts : PassCounts) :
    Step PassCounts Block :=
  (Analysis.run { dialect } (hookOf passes) program (.initial counts)).mapState
    Analysis.State.hook

end Pass

end StorageFlow
