import StorageFlow.Syntax.Visitor

/-!
# StorageFlow.Syntax.Assigned

The names that a block may assign.

* `Block.assigned` — all of them, in order of first occurrence.
* `Block.assignedAfterContinue` — those that a `continue` of the block may leave unassigned: the
  ones assigned behind it in the order of traversal.

Only assignments count. A declaration makes a name that ends with its block, and a function body
assigns nothing but its own variables, so function definitions are passed over. Both collectors
can go on from block to block: `collectAssigned` and `AfterContinue.collect` take what was found
so far.
-/

namespace StorageFlow

/-- The names of a list of assignment targets. -/
def targetNames (targets : List Identifier) : List Name :=
  targets.map Identifier.name

/-- Collects the targets of all assignments outside function definitions. -/
def assignedVisitor : Visitor (StateM (List Name)) where
  assignment targets _ _ children := do
    modify (appendAllNew · (targetNames targets))
    children
  function _ _ _ _ _ _ := pure ()

/-- Adds the names that `block` assigns to the names found so far. -/
def collectAssigned (found : List Name) (block : Block) : List Name :=
  ((block.visit assignedVisitor).run found).2

/-- The names that the block assigns, in order of first occurrence. -/
def Block.assigned (block : Block) : List Name :=
  collectAssigned [] block

/-- What is known on the way through the body of a loop: the names assigned since the first
`continue`, the number of loops around the current node, and whether a `continue` was passed. -/
structure AfterContinue where
  names : List Name := []
  loopDepth : Nat := 0
  passed : Bool := false

namespace AfterContinue

/-- Collects the targets of the assignments behind the first `continue` that stands in no loop of
the visited blocks, outside function definitions. -/
def visitor : Visitor (StateM AfterContinue) where
  forLoop _ _ _ _ _ children := do
    modify fun s => { s with loopDepth := s.loopDepth + 1 }
    children
    modify fun s => { s with loopDepth := s.loopDepth - 1 }
  continueLoop _ := modify fun s => { s with passed := s.passed || s.loopDepth == 0 }
  assignment targets _ _ children := do
    modify fun s =>
      if s.passed then { s with names := appendAllNew s.names (targetNames targets) } else s
    children
  function _ _ _ _ _ _ := pure ()

/-- Goes on through one more block. -/
def collect (found : AfterContinue) (block : Block) : AfterContinue :=
  ((block.visit visitor).run found).2

end AfterContinue

/-- The names assigned behind the first `continue` of the block, taken as the body of a loop. -/
def Block.assignedAfterContinue (block : Block) : List Name :=
  (AfterContinue.collect {} block).names

end StorageFlow
