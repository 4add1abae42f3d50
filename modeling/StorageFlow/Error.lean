import StorageFlow.Span

/-!
# StorageFlow.Error

The causes for which an analysis stops.

* `Error` — one constructor per cause.
* `Error.tag`, `Error.message`, `Error.span?` — its stable tag, its wording and its place.
-/

namespace StorageFlow

/-- The cause for which an analysis stops: a malformed tree, a broken invariant of the analysis, or
a failure that a rule or a hook reports. -/
inductive Error
  /-- Facts of an expression were asked for a statement or a block. -/
  | statementAsExpression (span : Span)
  /-- An assignment to `names` has no value. -/
  | missingValue (names : String) (span : Span)
  /-- The initial block of a loop is not empty. -/
  | loopPrologue (span : Span)
  /-- The recorded knowledge contradicts itself. -/
  | contradiction (detail : String)
  /-- A run left scopes open or closed too many. -/
  | unbalancedScopes (expected actual : Nat)
  /-- A rule or a hook refused to go on. -/
  | refused (detail : String) (span : Span)
  deriving DecidableEq

namespace Error

/-- The stable tag of the cause. -/
def tag : Error → String
  | statementAsExpression _ => "statement-in-expression-context"
  | missingValue _ _ => "missing-assignment-value"
  | loopPrologue _ => "non-empty-for-loop-pre"
  | contradiction _ => "inconsistent-knowledge"
  | unbalancedScopes _ _ => "scope-imbalance"
  | refused _ _ => "internal"

/-- The wording of the cause without its common opening. -/
def detail : Error → String
  | statementAsExpression _ => "effect facts requested for a statement"
  | missingValue names _ => "assignment to `" ++ names ++ "` has no value"
  | loopPrologue _ => "for loop with a non-empty pre block"
  | contradiction detail => "inconsistent knowledge: " ++ detail
  | unbalancedScopes expected actual =>
      "scope stack has " ++ toString actual ++ " frames, expected " ++ toString expected
  | refused detail _ => detail

/-- The full wording. -/
def message (error : Error) : String :=
  "internal optimizer error: " ++ error.detail

/-- The place in the source, where the cause has one. -/
def span? : Error → Option Span
  | statementAsExpression span => some span
  | missingValue _ span => some span
  | loopPrologue span => some span
  | contradiction _ => none
  | unbalancedScopes _ _ => none
  | refused _ span => some span

end Error

end StorageFlow
