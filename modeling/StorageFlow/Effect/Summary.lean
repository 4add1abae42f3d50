import StorageFlow.Dialect
import StorageFlow.Error
import StorageFlow.Syntax.Visitor

/-!
# StorageFlow.Effect.Summary

The effects of whole expressions and blocks.

* `EffectSummary` — what the operations of an expression may do together, and which variables it
  reads; `EffectSummary.ofExpr` computes it.
* `EffectSummary.visitor` — the traversal behind it, which refuses statements and blocks.
* `Expr.mayChangeStorage`, `Block.mayChangeStorage` — whether any operation may change storage.
* `Dialect.isDiscardable` — whether an expression may be dropped or evaluated twice.
-/

namespace StorageFlow

/-- What the operations visited so far may do, and the variables they read. -/
structure EffectSummary where
  /-- All operations are movable. -/
  movable : Bool := true
  /-- All operations are free of side effects. -/
  sideEffectFree : Bool := true
  /-- Some operation clobbers storage. -/
  clobbersStorage : Bool := false
  /-- The variables read, in order of first occurrence. -/
  reads : List Name := []

namespace EffectSummary

/-- Takes in one more operation. -/
def addOperation (summary : EffectSummary) (effects : Effects) : EffectSummary :=
  { summary with
    movable := summary.movable && effects.movable
    sideEffectFree := summary.sideEffectFree && effects.sideEffectFree
    clobbersStorage := summary.clobbersStorage || effects.clobbersStorage }

/-- Takes in one more read of a variable. -/
def addRead (summary : EffectSummary) (name : Name) : EffectSummary :=
  { summary with reads := appendNew summary.reads name }

/-- Sums up expressions. Statements and blocks have no summary: they stop the traversal, and what
was summed up before them is kept. -/
def visitor (dialect : Dialect) : Visitor (ExceptT Error (StateM EffectSummary)) where
  identifier x := modify (addRead · x.name)
  call callee _ _ children := do
    children
    modify (addOperation · (dialect.callEffects callee.name))
  instruction operator _ _ children := do
    children
    modify (addOperation · (dialect.instructionEffects operator))
  statement stmt _ := throw (.statementAsExpression stmt.span)
  block body _ := throw (.statementAsExpression body.span)

/-- The summary of one expression. -/
def ofExpr (dialect : Dialect) (e : Expr) : EffectSummary :=
  ((e.visit (visitor dialect)).run.run {}).2

end EffectSummary

/-- Whether the expression may be dropped or evaluated twice. -/
def Dialect.isDiscardable (dialect : Dialect) (e : Expr) : Bool :=
  let summary := EffectSummary.ofExpr dialect e
  summary.movable && summary.sideEffectFree

/-- Whether an operation may change storage. A store counts even if it is not said to clobber
storage: where it is not tracked, nothing tells which slot it writes. -/
def Effects.mayChangeStorage (effects : Effects) : Bool :=
  effects.clobbersStorage || effects.writesSlot

/-- Records whether some operation may change storage, wherever it stands. -/
def storageChangeVisitor (dialect : Dialect) : Visitor (StateM Bool) where
  call callee _ _ children := do
    modify (· || (dialect.callEffects callee.name).mayChangeStorage)
    children
  instruction operator _ _ children := do
    modify (· || (dialect.instructionEffects operator).mayChangeStorage)
    children

/-- Whether some operation of the expression may change storage. -/
def Expr.mayChangeStorage (dialect : Dialect) (e : Expr) : Bool :=
  ((e.visit (storageChangeVisitor dialect)).run false).2

/-- Whether some operation of the block may change storage, those of function bodies included. -/
def Block.mayChangeStorage (dialect : Dialect) (block : Block) : Bool :=
  ((block.visit (storageChangeVisitor dialect)).run false).2

end StorageFlow
