import StorageFlow.Syntax.Expr

/-!
# StorageFlow.Syntax.Stmt

Statements and the blocks they stand in.

* `Binder` — a declared name with an optional type.
* `Stmt`, `Case`, `Block` — the tree of a program; a program is a block.
* `Block.ofStatements`, `Stmt.eval`, `Stmt.assignTo`, … — nodes without a source location.
-/

namespace StorageFlow

/-- A declared name with an optional type. -/
structure Binder where
  name : Name
  type? : Option Name
  span : Span
  deriving DecidableEq

/-- The declaration of `name` without a type and without a source location. -/
def Binder.ofName (name : Name) : Binder :=
  ⟨name, none, .synthetic⟩

mutual

/-- A statement. -/
inductive Stmt
  /-- The evaluation of an expression for its effects. -/
  | expression (value : Expr) (span : Span)
  /-- An assignment. One without a value is malformed, but can be represented. -/
  | assign (targets : List Identifier) (value? : Option Expr) (span : Span)
  /-- A declaration of variables, which start at zero if there is no value. -/
  | declare (declared : List Binder) (value? : Option Expr) (span : Span)
  | ifThen (condition : Expr) (body : Block) (span : Span)
  | switch (scrutinee : Expr) (cases : List Case) (span : Span)
  /-- A loop. The `initial` block must be empty where a program is analysed. -/
  | forLoop (initial : Block) (condition : Expr) (post body : Block) (span : Span)
  | function (name : Name) (parameters results : List Binder) (body : Block) (span : Span)
  | breakLoop (span : Span)
  | continueLoop (span : Span)
  | block (body : Block)

/-- A case of a switch; the default case has no value. -/
inductive Case
  | mk (value? : Option Literal) (body : Block) (span : Span)

/-- A list of statements with a scope of its own. -/
inductive Block
  | mk (statements : List Stmt) (span : Span)

end

namespace Block

/-- The block of the given statements. -/
def ofStatements (statements : List Stmt) : Block :=
  ⟨statements, .synthetic⟩

/-- The block without statements. -/
def empty : Block :=
  ofStatements []

instance : Inhabited Block := ⟨empty⟩

/-- The statements in order. -/
def statements : Block → List Stmt
  | ⟨statements, _⟩ => statements

/-- The source location of the block. -/
def span : Block → Span
  | ⟨_, span⟩ => span

/-- Whether the block has no statement. -/
def isEmpty (block : Block) : Bool :=
  block.statements.isEmpty

end Block

namespace Case

/-- The literal that selects the case; the default case has none. -/
def value? : Case → Option Literal
  | ⟨value?, _, _⟩ => value?

/-- The statements that run when the case is selected. -/
def body : Case → Block
  | ⟨_, body, _⟩ => body

/-- The source location of the case. -/
def span : Case → Span
  | ⟨_, _, span⟩ => span

/-- The case selected by `value`. -/
def ofValue (value : Literal) (body : Block) : Case :=
  ⟨some value, body, .synthetic⟩

/-- The case that is selected when no other is. -/
def otherwise (body : Block) : Case :=
  ⟨none, body, .synthetic⟩

end Case

namespace Stmt

/-- The evaluation of `value`. -/
def eval (value : Expr) : Stmt :=
  .expression value .synthetic

/-- The assignment of `value` to `names`. -/
def assignTo (names : List Name) (value : Expr) : Stmt :=
  .assign (names.map .ofName) (some value) .synthetic

/-- The declaration of `names` with the given value. -/
def declareAs (names : List Name) (value? : Option Expr) : Stmt :=
  .declare (names.map .ofName) value? .synthetic

/-- The branch that runs `body` if `condition` is not zero. -/
def when (condition : Expr) (body : Block) : Stmt :=
  .ifThen condition body .synthetic

/-- The choice among `cases` by the value of `scrutinee`. -/
def switchOn (scrutinee : Expr) (cases : List Case) : Stmt :=
  .switch scrutinee cases .synthetic

/-- The loop that runs `body` and then `post` while `condition` is not zero. -/
def loop (condition : Expr) (post body : Block) : Stmt :=
  .forLoop .empty condition post body .synthetic

/-- The definition of the function `name`. -/
def define (name : Name) (parameters results : List Name) (body : Block) : Stmt :=
  .function name (parameters.map .ofName) (results.map .ofName) body .synthetic

/-- The source location of the statement; that of a nested block is the block's. -/
def span : Stmt → Span
  | .expression _ span => span
  | .assign _ _ span => span
  | .declare _ _ span => span
  | .ifThen _ _ span => span
  | .switch _ _ span => span
  | .forLoop _ _ _ _ span => span
  | .function _ _ _ _ span => span
  | .breakLoop span => span
  | .continueLoop span => span
  | .block body => body.span

end Stmt

end StorageFlow
