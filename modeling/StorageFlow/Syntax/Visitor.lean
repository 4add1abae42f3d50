import StorageFlow.Syntax.Stmt

/-!
# StorageFlow.Syntax.Visitor

Read-only traversal of a tree in source order, in any monad.

* `Visitor` — one handler per kind of node. A handler is given the whole node and the traversal of
  its children, and decides whether and when the children are visited; by default they are.
* `Expr.visit`, `Stmt.visit`, `Block.visit` — the traversals.

A loop is traversed as initial block, condition, body, post block. The targets of assignments, the
names of declarations and the literals of cases are not nodes of their own and are not visited.
-/

namespace StorageFlow

/-- What to do at each kind of node, which is given by its parts in the order of its constructor. The
last argument of a handler that ends in `m Unit → m Unit` is the traversal of the children. -/
structure Visitor (m : Type → Type) [Monad m] where
  block : Block → m Unit → m Unit := fun _ children => children
  statement : Stmt → m Unit → m Unit := fun _ children => children
  expression : Expr → m Unit → m Unit := fun _ children => children
  literal : Literal → m Unit := fun _ => pure ()
  identifier : Identifier → m Unit := fun _ => pure ()
  call : Identifier → List Expr → Span → m Unit → m Unit := fun _ _ _ children => children
  instruction : Instruction → List Expr → Span → m Unit → m Unit := fun _ _ _ children => children
  assignment : List Identifier → Option Expr → Span → m Unit → m Unit :=
    fun _ _ _ children => children
  forLoop : Block → Expr → Block → Block → Span → m Unit → m Unit :=
    fun _ _ _ _ _ children => children
  function : Name → List Binder → List Binder → Block → Span → m Unit → m Unit :=
    fun _ _ _ _ _ children => children
  breakLoop : Span → m Unit := fun _ => pure ()
  continueLoop : Span → m Unit := fun _ => pure ()

variable {m : Type → Type} [Monad m]

mutual

/-- Visits an expression. -/
def Expr.visit (v : Visitor m) : Expr → m Unit
  | .literal value => v.expression (.literal value) (v.literal value)
  | .identifier x => v.expression (.identifier x) (v.identifier x)
  | .call callee arguments span =>
      v.expression (.call callee arguments span)
        (v.call callee arguments span (Expr.visitAll v arguments))
  | .instruction operator arguments span =>
      v.expression (.instruction operator arguments span)
        (v.instruction operator arguments span (Expr.visitAll v arguments))

/-- Visits expressions one after another. -/
def Expr.visitAll (v : Visitor m) : List Expr → m Unit
  | [] => pure ()
  | e :: es => do e.visit v; Expr.visitAll v es

end

/-- Visits an expression that may be absent. -/
def Expr.visitOption (v : Visitor m) : Option Expr → m Unit
  | none => pure ()
  | some e => e.visit v

mutual

/-- Visits a statement. -/
def Stmt.visit (v : Visitor m) : Stmt → m Unit
  | .expression value span => v.statement (.expression value span) (value.visit v)
  | .assign targets value? span =>
      v.statement (.assign targets value? span)
        (v.assignment targets value? span (Expr.visitOption v value?))
  | .declare declared value? span =>
      v.statement (.declare declared value? span) (Expr.visitOption v value?)
  | .ifThen condition body span =>
      v.statement (.ifThen condition body span) (do condition.visit v; body.visit v)
  | .switch scrutinee cases span =>
      v.statement (.switch scrutinee cases span) (do scrutinee.visit v; Case.visitAll v cases)
  | .forLoop initial condition post body span =>
      v.statement (.forLoop initial condition post body span)
        (v.forLoop initial condition post body span
          (do initial.visit v; condition.visit v; body.visit v; post.visit v))
  | .function name parameters results body span =>
      v.statement (.function name parameters results body span)
        (v.function name parameters results body span (body.visit v))
  | .breakLoop span => v.statement (.breakLoop span) (v.breakLoop span)
  | .continueLoop span => v.statement (.continueLoop span) (v.continueLoop span)
  | .block body => v.statement (.block body) (body.visit v)

/-- Visits statements one after another. -/
def Stmt.visitAll (v : Visitor m) : List Stmt → m Unit
  | [] => pure ()
  | s :: ss => do s.visit v; Stmt.visitAll v ss

/-- Visits the body of a case. -/
def Case.visit (v : Visitor m) : Case → m Unit
  | ⟨_, body, _⟩ => body.visit v

/-- Visits the bodies of cases one after another. -/
def Case.visitAll (v : Visitor m) : List Case → m Unit
  | [] => pure ()
  | c :: cs => do c.visit v; Case.visitAll v cs

/-- Visits a block. -/
def Block.visit (v : Visitor m) : Block → m Unit
  | ⟨statements, span⟩ => v.block ⟨statements, span⟩ (Stmt.visitAll v statements)

end

end StorageFlow
