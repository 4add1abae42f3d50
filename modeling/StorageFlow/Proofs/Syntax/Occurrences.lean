import StorageFlow.Effect.Summary
import StorageFlow.Syntax.Assigned

/-!
# StorageFlow.Proofs.Syntax.Occurrences

What occurs in a tree, read off its structure.

* `Expr.reads`, `Expr.operations` — the variables that an expression reads and the operations
  that it evaluates, with repetitions; `Expr.root?` is the last of them.
* `Expr.nodes` — the expressions that occur in an expression, itself included.
* `Stmt.operations`, `Block.operations` — all operations of a statement, those of function bodies
  included.
* `Stmt.targets`, `Block.targets` — the assignment targets outside function definitions, and
  `Stmt.lateTargets`, `Block.lateTargets` those behind the first `continue` that leaves the tree.
* `Stmt.declared` — the names that a statement adds to the block it stands in.
* `Stmt.writes`, `Block.writes` — all names that are assigned or declared outside function
  definitions, at any depth.

The collectors of the library are traversals with handlers; `StorageFlow.Proofs.Syntax.Collectors`
shows that they compute these lists.
-/

namespace StorageFlow

/-- One operation: the use of an instruction, or a call by name. -/
inductive Operation
  | instruction (operator : Instruction)
  | call (callee : Name)
  deriving DecidableEq

/-- What a dialect says that an operation may do. -/
def Dialect.effectsOf (dialect : Dialect) : Operation → Effects
  | .instruction operator => dialect.instructionEffects operator
  | .call callee => dialect.callEffects callee

namespace Expr

mutual

/-- The variables that an expression reads, from left to right. -/
def reads : Expr → List Name
  | .literal _ => []
  | .identifier x => [x.name]
  | .call _ arguments _ => readsAll arguments
  | .instruction _ arguments _ => readsAll arguments

/-- The variables that the expressions of a list read. -/
def readsAll : List Expr → List Name
  | [] => []
  | e :: es => e.reads ++ readsAll es

end

mutual

/-- The operations that an expression evaluates, each behind those of its arguments. -/
def operations : Expr → List Operation
  | .literal _ => []
  | .identifier _ => []
  | .call callee arguments _ => operationsAll arguments ++ [.call callee.name]
  | .instruction operator arguments _ => operationsAll arguments ++ [.instruction operator]

/-- The operations that the expressions of a list evaluate. -/
def operationsAll : List Expr → List Operation
  | [] => []
  | e :: es => e.operations ++ operationsAll es

end

mutual

/-- The expressions that occur in an expression, each behind its arguments. -/
def nodes : Expr → List Expr
  | .literal value => [.literal value]
  | .identifier x => [.identifier x]
  | .call callee arguments span => nodesAll arguments ++ [.call callee arguments span]
  | .instruction operator arguments span =>
      nodesAll arguments ++ [.instruction operator arguments span]

/-- The expressions that occur in the expressions of a list. -/
def nodesAll : List Expr → List Expr
  | [] => []
  | e :: es => e.nodes ++ nodesAll es

end

/-- The operation that an expression evaluates last; a leaf has none. -/
def root? : Expr → Option Operation
  | .literal _ => none
  | .identifier _ => none
  | .call callee _ _ => some (.call callee.name)
  | .instruction operator _ _ => some (.instruction operator)

theorem operations_of_root? {e : Expr} {op : Operation} (h : e.root? = some op) :
    e.operations = operationsAll e.arguments ++ [op] := by
  cases e <;> simp_all [root?, operations, arguments]

theorem nodes_eq (e : Expr) : e.nodes = nodesAll e.arguments ++ [e] := by
  cases e <;> rfl

theorem mem_nodesAll {e : Expr} {es : List Expr} : e ∈ nodesAll es ↔ ∃ e' ∈ es, e ∈ e'.nodes := by
  induction es with
  | nil => simp [nodesAll]
  | cons e' es ih => simp [nodesAll, ih]

theorem mem_readsAll {x : Name} {es : List Expr} : x ∈ readsAll es ↔ ∃ e ∈ es, x ∈ e.reads := by
  induction es with
  | nil => simp [readsAll]
  | cons e es ih => simp [readsAll, ih]

/-- An operation reads what its arguments read. -/
theorem reads_of_root? {e : Expr} {op : Operation} (h : e.root? = some op) :
    e.reads = readsAll e.arguments := by
  cases e with
  | literal value => rfl
  | identifier x => cases h
  | call callee arguments span => rfl
  | instruction operator arguments span => rfl

theorem mem_reads_of_mem_arguments {e argument : Expr} {x : Name} (h : argument ∈ e.arguments)
    (hx : x ∈ argument.reads) : x ∈ e.reads := by
  cases e with
  | literal value => cases h
  | identifier y => cases h
  | call callee arguments span => exact mem_readsAll.2 ⟨argument, h, hx⟩
  | instruction operator arguments span => exact mem_readsAll.2 ⟨argument, h, hx⟩

theorem operations_of_leaf {e : Expr} (h : e.root? = none) : e.operations = [] := by
  cases e <;> first | rfl | cases h

@[simp] theorem root?_withArguments (e : Expr) (es : List Expr) :
    (e.withArguments es).root? = e.root? := by
  cases e <;> rfl

theorem arguments_withArguments {e : Expr} {op : Operation} (h : e.root? = some op)
    (es : List Expr) : (e.withArguments es).arguments = es := by
  cases e <;> first | rfl | cases h

theorem length_operations_withArguments {e : Expr} {op : Operation} (h : e.root? = some op)
    (es : List Expr) : (e.withArguments es).operations.length = (operationsAll es).length + 1 := by
  rw [operations_of_root? ((e.root?_withArguments es).trans h), arguments_withArguments h,
    List.length_append, List.length_singleton]

theorem length_operations {e : Expr} {op : Operation} (h : e.root? = some op) :
    e.operations.length = (operationsAll e.arguments).length + 1 := by
  rw [← length_operations_withArguments h, withArguments_arguments]

/-- An argument has no more operations than all arguments together. -/
theorem length_operations_le {e : Expr} {es : List Expr} (h : e ∈ es) :
    e.operations.length ≤ (operationsAll es).length := by
  induction es with
  | nil => cases h
  | cons e' es ih =>
      rw [operationsAll, List.length_append]
      rcases List.mem_cons.1 h with rfl | h
      · exact Nat.le_add_right _ _
      · exact Nat.le_add_left_of_le (ih h)

theorem operationsAll_arguments {e : Expr} {op : Operation}
    (h : op ∈ operationsAll e.arguments) : op ∈ e.operations := by
  cases hroot : e.root? with
  | none => cases e <;> first | cases h | cases hroot
  | some last =>
      rw [operations_of_root? hroot]
      exact List.mem_append_left _ h

/-- The operations of an expression that may be absent. -/
def operationsOption : Option Expr → List Operation
  | none => []
  | some e => e.operations

end Expr

/-- The names that a statement adds to the block it stands in. -/
def Stmt.declared : Stmt → List Name
  | .declare declared _ _ => declared.map Binder.name
  | _ => []

/-- The names that the statements of a block add to it. -/
def Stmt.declaredAll (stmts : List Stmt) : List Name :=
  stmts.flatMap Stmt.declared

@[simp] theorem Stmt.declaredAll_nil : Stmt.declaredAll [] = [] := rfl

@[simp] theorem Stmt.declaredAll_cons (s : Stmt) (ss : List Stmt) :
    Stmt.declaredAll (s :: ss) = s.declared ++ Stmt.declaredAll ss := rfl

mutual

/-- All operations of a statement, in the order of traversal. -/
def Stmt.operations : Stmt → List Operation
  | .expression e _ => e.operations
  | .assign _ value? _ => Expr.operationsOption value?
  | .declare _ value? _ => Expr.operationsOption value?
  | .ifThen condition body _ => condition.operations ++ body.operations
  | .switch scrutinee cases _ => scrutinee.operations ++ Case.operationsAll cases
  | .forLoop initial condition post body _ =>
      initial.operations ++ condition.operations ++ body.operations ++ post.operations
  | .function _ _ _ body _ => body.operations
  | .breakLoop _ => []
  | .continueLoop _ => []
  | .block body => body.operations

/-- All operations of a list of statements. -/
def Stmt.operationsAll : List Stmt → List Operation
  | [] => []
  | s :: ss => s.operations ++ Stmt.operationsAll ss

/-- All operations of the bodies of cases. -/
def Case.operationsAll : List Case → List Operation
  | [] => []
  | ⟨_, body, _⟩ :: cases => body.operations ++ Case.operationsAll cases

/-- All operations of a block. -/
def Block.operations : Block → List Operation
  | ⟨stmts, _⟩ => Stmt.operationsAll stmts

end

mutual

/-- The targets of all assignments of a statement outside function definitions. -/
def Stmt.targets : Stmt → List Name
  | .assign targets _ _ => targetNames targets
  | .ifThen _ body _ => body.targets
  | .switch _ cases _ => Case.targetsAll cases
  | .forLoop initial _ post body _ => initial.targets ++ body.targets ++ post.targets
  | .block body => body.targets
  | .expression _ _ => []
  | .declare _ _ _ => []
  | .function _ _ _ _ _ => []
  | .breakLoop _ => []
  | .continueLoop _ => []

/-- The targets of all assignments of a list of statements. -/
def Stmt.targetsAll : List Stmt → List Name
  | [] => []
  | s :: ss => s.targets ++ Stmt.targetsAll ss

/-- The targets of all assignments of the bodies of cases. -/
def Case.targetsAll : List Case → List Name
  | [] => []
  | ⟨_, body, _⟩ :: cases => body.targets ++ Case.targetsAll cases

/-- The targets of all assignments of a block outside function definitions. -/
def Block.targets : Block → List Name
  | ⟨stmts, _⟩ => Stmt.targetsAll stmts

end

mutual

/-- All names that a statement assigns or declares, at any depth outside function definitions. -/
def Stmt.writes : Stmt → List Name
  | .assign targets _ _ => targetNames targets
  | .declare declared _ _ => declared.map Binder.name
  | .ifThen _ body _ => body.writes
  | .switch _ cases _ => Case.writesAll cases
  | .forLoop initial _ post body _ => initial.writes ++ body.writes ++ post.writes
  | .block body => body.writes
  | .expression _ _ => []
  | .function _ _ _ _ _ => []
  | .breakLoop _ => []
  | .continueLoop _ => []

/-- All names that the statements of a list assign or declare. -/
def Stmt.writesAll : List Stmt → List Name
  | [] => []
  | s :: ss => s.writes ++ Stmt.writesAll ss

/-- All names that the bodies of cases assign or declare. -/
def Case.writesAll : List Case → List Name
  | [] => []
  | ⟨_, body, _⟩ :: cases => body.writes ++ Case.writesAll cases

/-- All names that a block assigns or declares, at any depth outside function definitions. -/
def Block.writes : Block → List Name
  | ⟨stmts, _⟩ => Stmt.writesAll stmts

end

theorem Block.writes_of_isEmpty {b : Block} (h : b.isEmpty = true) : b.writes = [] := by
  obtain ⟨stmts, _⟩ := b
  obtain rfl : stmts = [] := List.isEmpty_iff.1 h
  rfl

theorem append_subset_append {α : Type} {as as' bs bs' : List α} (h : as ⊆ as') (h' : bs ⊆ bs') :
    as ++ bs ⊆ as' ++ bs' :=
  List.append_subset.2
    ⟨List.subset_append_of_subset_left bs' h, List.subset_append_of_subset_right as' h'⟩

theorem Stmt.declared_subset_writes (s : Stmt) : s.declared ⊆ s.writes := by
  cases s with
  | declare _ _ _ => exact List.Subset.refl _
  | _ => exact List.nil_subset _

theorem Stmt.declaredAll_subset_writes (ss : List Stmt) :
    Stmt.declaredAll ss ⊆ Stmt.writesAll ss := by
  induction ss with
  | nil => exact List.nil_subset _
  | cons s ss ih =>
      rw [Stmt.declaredAll_cons, Stmt.writesAll]
      exact append_subset_append s.declared_subset_writes ih

mutual

theorem Stmt.targets_subset_writes : ∀ s : Stmt, s.targets ⊆ s.writes
  | .assign _ _ _ => List.Subset.refl _
  | .ifThen _ body _ => body.targets_subset_writes
  | .switch _ cases _ => Case.targetsAll_subset_writes cases
  | .forLoop initial _ post body _ =>
      append_subset_append
        (append_subset_append initial.targets_subset_writes body.targets_subset_writes)
        post.targets_subset_writes
  | .block body => body.targets_subset_writes
  | .expression _ _ => List.nil_subset _
  | .declare _ _ _ => List.nil_subset _
  | .function _ _ _ _ _ => List.nil_subset _
  | .breakLoop _ => List.nil_subset _
  | .continueLoop _ => List.nil_subset _

theorem Stmt.targetsAll_subset_writes : ∀ ss : List Stmt, Stmt.targetsAll ss ⊆ Stmt.writesAll ss
  | [] => List.nil_subset _
  | s :: ss =>
      append_subset_append s.targets_subset_writes (Stmt.targetsAll_subset_writes ss)

theorem Case.targetsAll_subset_writes : ∀ cases : List Case,
    Case.targetsAll cases ⊆ Case.writesAll cases
  | [] => List.nil_subset _
  | ⟨_, body, _⟩ :: cases =>
      append_subset_append body.targets_subset_writes (Case.targetsAll_subset_writes cases)

/-- Names that a block assigns are among those that it writes. -/
theorem Block.targets_subset_writes : ∀ b : Block, b.targets ⊆ b.writes
  | ⟨stmts, _⟩ => Stmt.targetsAll_subset_writes stmts

end

mutual

/-- Whether some `continue` of the statement stands neither in a loop of it nor in a function. -/
def Stmt.hasContinue : Stmt → Bool
  | .ifThen _ body _ => body.hasContinue
  | .switch _ cases _ => Case.hasContinueAny cases
  | .continueLoop _ => true
  | .block body => body.hasContinue
  | .forLoop _ _ _ _ _ => false
  | .assign _ _ _ => false
  | .expression _ _ => false
  | .declare _ _ _ => false
  | .function _ _ _ _ _ => false
  | .breakLoop _ => false

/-- Whether some statement of the list has a `continue` that leaves it. -/
def Stmt.hasContinueAny : List Stmt → Bool
  | [] => false
  | s :: ss => s.hasContinue || Stmt.hasContinueAny ss

/-- Whether the body of some case has a `continue` that leaves it. -/
def Case.hasContinueAny : List Case → Bool
  | [] => false
  | ⟨_, body, _⟩ :: cases => body.hasContinue || Case.hasContinueAny cases

/-- Whether some statement of the block has a `continue` that leaves it. -/
def Block.hasContinue : Block → Bool
  | ⟨stmts, _⟩ => Stmt.hasContinueAny stmts

end

mutual

/-- The targets of the assignments behind the first `continue` that leaves the statement. -/
def Stmt.lateTargets : Stmt → List Name
  | .ifThen _ body _ => body.lateTargets
  | .switch _ cases _ => Case.lateTargetsAll cases
  | .block body => body.lateTargets
  | .forLoop _ _ _ _ _ => []
  | .assign _ _ _ => []
  | .expression _ _ => []
  | .declare _ _ _ => []
  | .function _ _ _ _ _ => []
  | .breakLoop _ => []
  | .continueLoop _ => []

/-- The targets of the assignments behind the first `continue` that leaves the list. -/
def Stmt.lateTargetsAll : List Stmt → List Name
  | [] => []
  | s :: ss =>
      s.lateTargets ++ if s.hasContinue then Stmt.targetsAll ss else Stmt.lateTargetsAll ss

/-- The targets of the assignments behind the first `continue` that leaves one of the cases. -/
def Case.lateTargetsAll : List Case → List Name
  | [] => []
  | ⟨_, body, _⟩ :: cases =>
      body.lateTargets ++
        if body.hasContinue then Case.targetsAll cases else Case.lateTargetsAll cases

/-- The targets of the assignments behind the first `continue` that leaves the block. -/
def Block.lateTargets : Block → List Name
  | ⟨stmts, _⟩ => Stmt.lateTargetsAll stmts

end

mutual

theorem Stmt.lateTargets_subset : ∀ s : Stmt, s.lateTargets ⊆ s.targets
  | .ifThen _ body _ => body.lateTargets_subset
  | .switch _ cases _ => Case.lateTargetsAll_subset cases
  | .block body => body.lateTargets_subset
  | .forLoop _ _ _ _ _ => List.nil_subset _
  | .assign _ _ _ => List.nil_subset _
  | .expression _ _ => List.nil_subset _
  | .declare _ _ _ => List.nil_subset _
  | .function _ _ _ _ _ => List.nil_subset _
  | .breakLoop _ => List.nil_subset _
  | .continueLoop _ => List.nil_subset _

theorem Stmt.lateTargetsAll_subset : ∀ ss : List Stmt,
    Stmt.lateTargetsAll ss ⊆ Stmt.targetsAll ss
  | [] => List.nil_subset _
  | s :: ss => by
      rw [Stmt.lateTargetsAll, Stmt.targetsAll, List.append_subset]
      refine ⟨List.subset_append_of_subset_left _ s.lateTargets_subset, ?_⟩
      split
      · exact List.subset_append_right _ _
      · exact List.subset_append_of_subset_right _ (Stmt.lateTargetsAll_subset ss)

theorem Case.lateTargetsAll_subset : ∀ cases : List Case,
    Case.lateTargetsAll cases ⊆ Case.targetsAll cases
  | [] => List.nil_subset _
  | ⟨_, body, _⟩ :: cases => by
      rw [Case.lateTargetsAll, Case.targetsAll, List.append_subset]
      refine ⟨List.subset_append_of_subset_left _ body.lateTargets_subset, ?_⟩
      split
      · exact List.subset_append_right _ _
      · exact List.subset_append_of_subset_right _ (Case.lateTargetsAll_subset cases)

/-- Names assigned behind a `continue` are assigned. -/
theorem Block.lateTargets_subset : ∀ b : Block, b.lateTargets ⊆ b.targets
  | ⟨stmts, _⟩ => Stmt.lateTargetsAll_subset stmts

end

end StorageFlow
