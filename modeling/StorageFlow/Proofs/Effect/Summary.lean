import Mathlib.Logic.Basic
import StorageFlow.Proofs.Syntax.Collectors

/-!
# StorageFlow.Proofs.Effect.Summary

The effects of whole trees, read off their nodes.

* `Expr.effects?`, `Expr.readName?` — what a node may do itself, and which variable it reads.
* `Stmt.expressions`, `Stmt.innerBlocks` — what stands in a statement: expressions and blocks.
* `Block.HasNode` — an expression stands somewhere in a block.
* `Block.mem_operations_iff` — the operations of a block are those of its nodes.
* `EffectSummary.read_off_nodes` — summaries and tests for changes of storage say nothing but what
  holds of all nodes, or of some.
-/

namespace StorageFlow

variable {dialect : Dialect} {op : Operation}

/-! ### Nodes of expressions -/

namespace Expr

/-- What a node may do itself. Its arguments are nodes of their own, and a leaf does nothing. -/
def effects? (dialect : Dialect) (e : Expr) : Option Effects :=
  e.root?.map dialect.effectsOf

/-- The variable that a node reads itself. -/
def readName? (e : Expr) : Option Name :=
  e.identifier?.map Identifier.name

mutual

theorem filterMap_root?_nodes : ∀ e : Expr, e.nodes.filterMap root? = e.operations
  | .literal _ => rfl
  | .identifier _ => rfl
  | .call _ arguments _ => by
      simp [nodes, operations, root?, filterMap_root?_nodesAll arguments]
  | .instruction _ arguments _ => by
      simp [nodes, operations, root?, filterMap_root?_nodesAll arguments]

/-- The operations of expressions are those that their nodes evaluate last. -/
theorem filterMap_root?_nodesAll : ∀ es : List Expr,
    (nodesAll es).filterMap root? = operationsAll es
  | [] => rfl
  | e :: es => by
      simp [nodesAll, operationsAll, filterMap_root?_nodes e, filterMap_root?_nodesAll es]

end

mutual

theorem filterMap_readName?_nodes : ∀ e : Expr, e.nodes.filterMap readName? = e.reads
  | .literal _ => rfl
  | .identifier _ => rfl
  | .call _ arguments _ => by
      simp [nodes, reads, readName?, identifier?, filterMap_readName?_nodesAll arguments]
  | .instruction _ arguments _ => by
      simp [nodes, reads, readName?, identifier?, filterMap_readName?_nodesAll arguments]

/-- The variables that expressions read are those of their nodes. -/
theorem filterMap_readName?_nodesAll : ∀ es : List Expr,
    (nodesAll es).filterMap readName? = readsAll es
  | [] => rfl
  | e :: es => by
      simp [nodesAll, readsAll, filterMap_readName?_nodes e, filterMap_readName?_nodesAll es]

end

theorem mem_operations_iff {e : Expr} :
    op ∈ e.operations ↔ ∃ node ∈ e.nodes, node.root? = some op := by
  rw [← filterMap_root?_nodes, List.mem_filterMap]

theorem mem_operationsAll_iff {es : List Expr} :
    op ∈ operationsAll es ↔ ∃ node ∈ nodesAll es, node.root? = some op := by
  rw [← filterMap_root?_nodesAll, List.mem_filterMap]

end Expr

/-! ### Nodes of blocks -/

/-- The expressions that a statement evaluates outside the blocks in it. -/
def Stmt.expressions : Stmt → List Expr
  | .expression value _ => [value]
  | .assign _ value? _ => value?.toList
  | .declare _ value? _ => value?.toList
  | .ifThen condition _ _ => [condition]
  | .switch scrutinee _ _ => [scrutinee]
  | .forLoop _ condition _ _ _ => [condition]
  | .function _ _ _ _ _ => []
  | .breakLoop _ => []
  | .continueLoop _ => []
  | .block _ => []

/-- The blocks in a statement, those inside of them not included. -/
def Stmt.innerBlocks : Stmt → List Block
  | .ifThen _ body _ => [body]
  | .switch _ cases _ => cases.map Case.body
  | .forLoop initial _ post body _ => [initial, post, body]
  | .function _ _ _ body _ => [body]
  | .block body => [body]
  | .expression _ _ => []
  | .assign _ _ _ => []
  | .declare _ _ _ => []
  | .breakLoop _ => []
  | .continueLoop _ => []

/-- A block in a statement is smaller than the statement. -/
theorem Stmt.sizeOf_lt_of_mem_innerBlocks {s : Stmt} {b : Block} (h : b ∈ s.innerBlocks) :
    sizeOf b < sizeOf s := by
  cases s with
  | ifThen condition body _ =>
      obtain rfl := List.mem_singleton.1 h
      simp
      omega
  | switch scrutinee cases _ =>
      obtain ⟨⟨_, body, _⟩, hcase, rfl⟩ := List.mem_map.1 h
      have hlt := List.sizeOf_lt_of_mem hcase
      simp [Case.body] at hlt ⊢
      omega
  | forLoop initial condition post body _ =>
      simp only [Stmt.innerBlocks, List.mem_cons, List.not_mem_nil, or_false] at h
      rcases h with rfl | rfl | rfl <;> simp <;> omega
  | function _ parameters results body _ =>
      obtain rfl := List.mem_singleton.1 h
      simp
      omega
  | block body =>
      obtain rfl := List.mem_singleton.1 h
      simp
  | _ => cases h

theorem Block.sizeOf_lt_of_mem {b : Block} {s : Stmt} (h : s ∈ b.statements) :
    sizeOf s < sizeOf b := by
  obtain ⟨stmts, _⟩ := b
  have hlt : sizeOf s < sizeOf stmts := List.sizeOf_lt_of_mem h
  simp
  omega

/-- An expression stands somewhere in a block, at any depth and in any position. -/
inductive Block.HasNode : Block → Expr → Prop
  | own {block : Block} {stmt : Stmt} {e node : Expr} (hstmt : stmt ∈ block.statements)
      (he : e ∈ stmt.expressions) (hnode : node ∈ e.nodes) : HasNode block node
  | inside {block inner : Block} {stmt : Stmt} {node : Expr} (hstmt : stmt ∈ block.statements)
      (hinner : inner ∈ stmt.innerBlocks) (hnode : HasNode inner node) : HasNode block node

theorem Stmt.mem_operationsAll {ss : List Stmt} :
    op ∈ Stmt.operationsAll ss ↔ ∃ s ∈ ss, op ∈ s.operations := by
  induction ss with
  | nil => simp [Stmt.operationsAll]
  | cons s ss ih => simp [Stmt.operationsAll, ih]

theorem Case.mem_operationsAll {cases : List Case} :
    op ∈ Case.operationsAll cases ↔ ∃ case ∈ cases, op ∈ case.body.operations := by
  induction cases with
  | nil => simp [Case.operationsAll]
  | cons case cases ih =>
      obtain ⟨_, body, _⟩ := case
      simp [Case.operationsAll, Case.body, ih]

theorem Expr.mem_operationsOption {value? : Option Expr} :
    op ∈ operationsOption value? ↔ ∃ e ∈ value?.toList, op ∈ e.operations := by
  cases value? <;> simp [operationsOption]

/-- An operation of a statement stands in one of its expressions or in one of its blocks. -/
theorem Stmt.mem_operations_iff {s : Stmt} :
    op ∈ s.operations ↔
      (∃ e ∈ s.expressions, op ∈ e.operations) ∨ ∃ b ∈ s.innerBlocks, op ∈ b.operations := by
  cases s with
  | expression e _ => simp [Stmt.operations, Stmt.expressions, Stmt.innerBlocks]
  | assign _ value? _ =>
      simp [Stmt.operations, Stmt.expressions, Stmt.innerBlocks, Expr.mem_operationsOption]
  | declare _ value? _ =>
      simp [Stmt.operations, Stmt.expressions, Stmt.innerBlocks, Expr.mem_operationsOption]
  | ifThen condition body _ => simp [Stmt.operations, Stmt.expressions, Stmt.innerBlocks]
  | switch scrutinee cases _ =>
      simp [Stmt.operations, Stmt.expressions, Stmt.innerBlocks, Case.mem_operationsAll]
  | forLoop initial condition post body _ =>
      simp only [Stmt.operations, Stmt.expressions, Stmt.innerBlocks, List.mem_append,
        List.mem_cons, List.not_mem_nil, or_false, exists_eq_or_imp, exists_eq_left]
      grind
  | function _ _ _ body _ => simp [Stmt.operations, Stmt.expressions, Stmt.innerBlocks]
  | breakLoop _ => simp [Stmt.operations, Stmt.expressions, Stmt.innerBlocks]
  | continueLoop _ => simp [Stmt.operations, Stmt.expressions, Stmt.innerBlocks]
  | block body => simp [Stmt.operations, Stmt.expressions, Stmt.innerBlocks]

namespace Block

theorem mem_operations {b : Block} :
    op ∈ b.operations ↔ ∃ s ∈ b.statements, op ∈ s.operations := by
  obtain ⟨stmts, _⟩ := b
  exact Stmt.mem_operationsAll

theorem exists_node (b : Block) (h : op ∈ b.operations) :
    ∃ node, b.HasNode node ∧ node.root? = some op := by
  obtain ⟨s, hs, hop⟩ := mem_operations.1 h
  rcases Stmt.mem_operations_iff.1 hop with ⟨e, he, hop⟩ | ⟨inner, hinner, hop⟩
  · obtain ⟨node, hnode, hroot⟩ := Expr.mem_operations_iff.1 hop
    exact ⟨node, .own hs he hnode, hroot⟩
  · obtain ⟨node, hnode, hroot⟩ := exists_node inner hop
    exact ⟨node, .inside hs hinner hnode, hroot⟩
termination_by sizeOf b
decreasing_by exact Nat.lt_trans (Stmt.sizeOf_lt_of_mem_innerBlocks hinner) (sizeOf_lt_of_mem hs)

theorem HasNode.mem_operations {b : Block} {node : Expr} (h : b.HasNode node)
    (hroot : node.root? = some op) : op ∈ b.operations := by
  induction h with
  | own hs he hnode =>
      have hop := Expr.mem_operations_iff.2 ⟨_, hnode, hroot⟩
      exact Block.mem_operations.2 ⟨_, hs, Stmt.mem_operations_iff.2 (.inl ⟨_, he, hop⟩)⟩
  | inside hs hinner _ ih =>
      exact Block.mem_operations.2 ⟨_, hs, Stmt.mem_operations_iff.2 (.inr ⟨_, hinner, ih hroot⟩)⟩

/-- The operations of a block are those that its nodes evaluate last. -/
theorem mem_operations_iff {b : Block} :
    op ∈ b.operations ↔ ∃ node, b.HasNode node ∧ node.root? = some op :=
  ⟨b.exists_node, fun ⟨_, hnode, hroot⟩ => hnode.mem_operations hroot⟩

end Block

/-! ### Classifications -/

theorem Expr.mem_effects?_iff {e : Expr} {effects : Effects} :
    effects ∈ e.effects? dialect ↔ ∃ op, e.root? = some op ∧ dialect.effectsOf op = effects :=
  Option.map_eq_some_iff

/-- What holds of all operations of expressions holds of all nodes that do something. -/
theorem Expr.all_operationsAll_iff {es : List Expr} {p : Effects → Bool} :
    ((operationsAll es).all fun op => p (dialect.effectsOf op)) = true ↔
      ∀ node ∈ nodesAll es, ∀ effects ∈ node.effects? dialect, p effects = true := by
  simp only [List.all_eq_true, mem_operationsAll_iff, mem_effects?_iff]
  constructor
  · rintro h node hnode _ ⟨op, hroot, rfl⟩
    exact h op ⟨node, hnode, hroot⟩
  · rintro h op ⟨node, hnode, hroot⟩
    exact h node hnode _ ⟨op, hroot, rfl⟩

theorem Expr.any_operationsAll_iff {es : List Expr} {p : Effects → Bool} :
    ((operationsAll es).any fun op => p (dialect.effectsOf op)) = true ↔
      ∃ node ∈ nodesAll es, ∃ effects ∈ node.effects? dialect, p effects = true := by
  simp only [List.any_eq_true, mem_operationsAll_iff, mem_effects?_iff]
  constructor
  · rintro ⟨op, ⟨node, hnode, hroot⟩, hop⟩
    exact ⟨node, hnode, _, ⟨op, hroot, rfl⟩, hop⟩
  · rintro ⟨node, hnode, _, ⟨op, hroot, rfl⟩, hop⟩
    exact ⟨op, ⟨node, hnode, hroot⟩, hop⟩

/-- Some operation of a tree may change storage if some node of it may. -/
theorem Dialect.changes_iff {ops : List Operation} {IsNode : Expr → Prop}
    (h : ∀ op, op ∈ ops ↔ ∃ node, IsNode node ∧ node.root? = some op) :
    dialect.Changes ops ↔ ∃ node, IsNode node ∧ ∃ effects ∈ node.effects? dialect,
      effects.clobbersStorage = true ∨ effects.writesSlot = true := by
  simp only [Dialect.Changes, Dialect.changesStorage, Effects.mayChangeStorage, Bool.or_eq_true, h,
    Expr.mem_effects?_iff]
  constructor
  · rintro ⟨op, ⟨node, hnode, hroot⟩, hop⟩
    exact ⟨node, hnode, _, ⟨op, hroot, rfl⟩, hop⟩
  · rintro ⟨node, hnode, _, ⟨op, hroot, rfl⟩, hop⟩
    exact ⟨op, ⟨node, hnode, hroot⟩, hop⟩

/-- Summaries and tests say what holds of the nodes of a tree, and nothing else. Expressions are
summed up one after another without failure: together they are movable or free of side effects if
all their operations are, they clobber storage if some operation does, and the variables that they
read are listed in the order of their first occurrences. An expression or a block may change storage
if some operation, wherever it stands, clobbers storage or writes a slot. A call that is not known
to be a builtin is neither movable nor free of side effects, and clobbers storage. -/
theorem EffectSummary.read_off_nodes (dialect : Dialect) :
    (∀ es : List Expr, ∃ summary : EffectSummary,
      (Expr.visitAll (visitor dialect) es).run.run {} = (.ok (), summary) ∧
        (summary.movable = true ↔ ∀ node ∈ Expr.nodesAll es,
          ∀ effects ∈ node.effects? dialect, effects.movable = true) ∧
        (summary.sideEffectFree = true ↔ ∀ node ∈ Expr.nodesAll es,
          ∀ effects ∈ node.effects? dialect, effects.sideEffectFree = true) ∧
        (summary.clobbersStorage = true ↔ ∃ node ∈ Expr.nodesAll es,
          ∃ effects ∈ node.effects? dialect, effects.clobbersStorage = true) ∧
        summary.reads = ((Expr.nodesAll es).filterMap Expr.readName?).eraseDups) ∧
    (∀ e : Expr, e.mayChangeStorage dialect = true ↔ ∃ node ∈ e.nodes,
      ∃ effects ∈ node.effects? dialect,
        effects.clobbersStorage = true ∨ effects.writesSlot = true) ∧
    (∀ b : Block, b.mayChangeStorage dialect = true ↔ ∃ node, b.HasNode node ∧
      ∃ effects ∈ node.effects? dialect,
        effects.clobbersStorage = true ∨ effects.writesSlot = true) ∧
    ∀ callee arguments span, dialect.callEffects? callee.name = none →
      ∃ effects ∈ (Expr.call callee arguments span).effects? dialect,
        effects.movable = false ∧ effects.sideEffectFree = false ∧
          effects.clobbersStorage = true := by
  refine ⟨fun es => ?_, fun e => ?_, fun b => ?_, fun callee arguments span hunknown => ?_⟩
  · refine ⟨_, run_visitAll es {}, ?_, ?_, ?_, ?_⟩
    · simp only [addAll, Bool.true_and]
      exact Expr.all_operationsAll_iff
    · simp only [addAll, Bool.true_and]
      exact Expr.all_operationsAll_iff
    · simp only [addAll, Bool.false_or]
      exact Expr.any_operationsAll_iff
    · rw [Expr.filterMap_readName?_nodesAll]
      exact appendAllNew_nil_left _
  · rw [Expr.mayChangeStorage_iff]
    exact Dialect.changes_iff fun op => Expr.mem_operations_iff
  · rw [Block.mayChangeStorage_iff]
    exact Dialect.changes_iff fun op => Block.mem_operations_iff
  · have heffects : dialect.callEffects callee.name = .unknown := by
      rw [Dialect.callEffects, hunknown, Option.getD_none]
    exact ⟨.unknown, congrArg some heffects, rfl, rfl, rfl⟩

end StorageFlow
