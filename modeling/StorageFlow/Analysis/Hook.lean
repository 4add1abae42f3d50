import StorageFlow.Analysis.Step
import StorageFlow.Knowledge.Storage

/-!
# StorageFlow.Analysis.Hook

What an analysis is set up with, and what it shows to those that rewrite a program along the way.

* `Context` — dialect, rules and `Config` of an analysis.
* `Scope` — the variables declared at one level of nesting.
* `View` — what a hook may ask at an expression.
* `Hook` — rewrites the expressions that an analysis visits; hooks compose by `Hook.andThen`.
-/

namespace StorageFlow

/-- The settings of an analysis. -/
structure Config where
  /-- The bounds of every simplification. -/
  limits : Limits := {}
  /-- Whether a run ends with a test of the knowledge. -/
  testsKnowledge : Bool := true
  deriving DecidableEq

/-- What stays the same during an analysis. -/
structure Context where
  dialect : Dialect
  rules : RuleTable := .standard
  config : Config := {}

/-- The simplifier that proves facts about variables with the given knowledge. -/
def Context.simplifier (context : Context) (knowledge : Knowledge) : Simplifier where
  dialect := context.dialect
  rules := context.rules
  limits := context.config.limits
  known := knowledge.values

/-- The variables declared at one level of nesting. -/
structure Scope where
  names : NameSet
  /-- The scopes around a function are not visible from inside. -/
  isBoundary : Bool
  deriving DecidableEq

/-- The scopes visible from the innermost one, out to the next function. -/
def visibleScopes : List Scope → List Scope
  | [] => []
  | scope :: outer => scope :: if scope.isBoundary then [] else visibleScopes outer

/-- What an analysis shows of its state right before an expression is evaluated. -/
structure View where
  context : Context
  knowledge : Knowledge
  /-- The visible scopes, innermost first. -/
  scopes : List Scope

namespace View

/-- Whether a variable of that name is visible. -/
def isVisible (view : View) (name : Name) : Bool :=
  view.scopes.any fun scope => scope.names.contains name

/-- The simplifier that knows what the analysis knows. -/
def simplifier (view : View) : Simplifier :=
  view.context.simplifier view.knowledge

end View

/-- A hook is called for each expression after its arguments. It may rewrite the expression, and may
stop the analysis. It has a state of its own. -/
def Hook (σ : Type) : Type := View → Expr → σ → Step σ Expr

namespace Hook

variable {σ : Type}

/-- The hook that changes nothing. -/
def idle : Hook σ := fun _ e state => .done e state

/-- Calls one hook and then another on what the first one made. -/
def andThen (first second : Hook σ) : Hook σ := fun view e state =>
  (first view e state).andThen id (second view)

end Hook

end StorageFlow
