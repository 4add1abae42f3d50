import Mathlib.Data.List.Basic
import StorageFlow.Syntax.Visitor

/-!
# StorageFlow.Proofs.Syntax.Positions

Trees as nodes and their children.

* `Node` — a block, a statement or an expression; `Node.children` are the nodes right inside of it,
  in the order of traversal.
* `Node.positions` — all nodes of a tree, each in front of its children and together with the nodes
  around it; `Node.postorder` — all nodes, each behind its children.
* `Node.expressions` — the expressions in a node, each behind its arguments;
  `Node.run_visit_leafVisitor` — a traversal gets to the leaves among them in their order.
* `Node.visit_eq` — a traversal calls the handlers of a node, and these go on with its children;
  `Node.run_forM_visit` — which come one after another.

The syntax is a family of types that refer to each other, and each function on it has a case for
every constructor. Here a tree is a tree, so that what a traversal does is one step from a node to
its children.
-/

namespace StorageFlow

/-- A node of a program. -/
inductive Node
  | block (body : Block)
  | stmt (stmt : Stmt)
  | expr (e : Expr)

namespace Node

/-- The nodes right inside of a node, in the order of traversal: a loop has its initial block, its
condition, its body and its post block. Assigned and declared names and the literals of cases are
no nodes. -/
def children : Node → List Node
  | .block body => body.statements.map .stmt
  | .expr e => e.arguments.map .expr
  | .stmt (.expression value _) => [.expr value]
  | .stmt (.assign _ value? _) => value?.toList.map .expr
  | .stmt (.declare _ value? _) => value?.toList.map .expr
  | .stmt (.ifThen condition body _) => [.expr condition, .block body]
  | .stmt (.switch scrutinee cases _) => .expr scrutinee :: cases.map (.block ·.body)
  | .stmt (.forLoop initial condition post body _) =>
      [.block initial, .expr condition, .block body, .block post]
  | .stmt (.function _ _ _ body _) => [.block body]
  | .stmt (.breakLoop _) => []
  | .stmt (.continueLoop _) => []
  | .stmt (.block body) => [.block body]

theorem sizeOf_lt_of_mem_arguments {e argument : Expr} (h : argument ∈ e.arguments) :
    sizeOf argument < sizeOf e := by
  cases e with
  | call _ arguments _ =>
      have hlt : sizeOf argument < sizeOf arguments := List.sizeOf_lt_of_mem h
      simp
      omega
  | instruction _ arguments _ =>
      have hlt : sizeOf argument < sizeOf arguments := List.sizeOf_lt_of_mem h
      simp
      omega
  | literal _ => cases h
  | identifier _ => cases h

/-- A child is smaller than its parent. -/
theorem sizeOf_lt_of_mem_children {n child : Node} (h : child ∈ n.children) :
    sizeOf child < sizeOf n := by
  match n with
  | .block ⟨stmts, _⟩ =>
      obtain ⟨stmt, hstmt, rfl⟩ := List.mem_map.1 h
      have hlt : sizeOf stmt < sizeOf stmts := List.sizeOf_lt_of_mem hstmt
      simp
      omega
  | .expr e =>
      obtain ⟨argument, hargument, rfl⟩ := List.mem_map.1 h
      have hlt := sizeOf_lt_of_mem_arguments hargument
      simpa using hlt
  | .stmt (.switch _ cases _) =>
      rcases List.mem_cons.1 h with rfl | h
      · simp
        omega
      · obtain ⟨⟨_, body, _⟩, hcase, rfl⟩ := List.mem_map.1 h
        have hlt := List.sizeOf_lt_of_mem hcase
        simp [Case.body] at hlt ⊢
        omega
  | .stmt (.assign _ none _) => cases h
  | .stmt (.declare _ none _) => cases h
  | .stmt (.breakLoop _) => cases h
  | .stmt (.continueLoop _) => cases h
  | .stmt (.assign _ (some _) _) => obtain rfl := List.mem_singleton.1 h; simp; omega
  | .stmt (.declare _ (some _) _) => obtain rfl := List.mem_singleton.1 h; simp; omega
  | .stmt (.expression _ _) => obtain rfl := List.mem_singleton.1 h; simp; omega
  | .stmt (.function _ _ _ _ _) => obtain rfl := List.mem_singleton.1 h; simp; omega
  | .stmt (.block _) => obtain rfl := List.mem_singleton.1 h; simp
  | .stmt (.ifThen _ _ _) =>
      simp only [children, List.mem_cons, List.not_mem_nil, or_false] at h
      rcases h with rfl | rfl <;> simp <;> omega
  | .stmt (.forLoop _ _ _ _ _) =>
      simp only [children, List.mem_cons, List.not_mem_nil, or_false] at h
      rcases h with rfl | rfl | rfl | rfl <;> simp <;> omega

/-- What holds of a node whenever it holds of its children holds of all nodes. -/
theorem induction {motive : Node → Prop}
    (node : ∀ n, (∀ child ∈ n.children, motive child) → motive n) (n : Node) : motive n :=
  node n fun child h =>
    have := sizeOf_lt_of_mem_children h
    induction node child
termination_by sizeOf n

end Node

/-- A node in a tree. -/
structure Position where
  node : Node
  /-- The nodes around it, innermost first. -/
  around : List Node

namespace Node

/-- A node and all nodes in it, with what is around each of them. A node comes in front of its
children. -/
def positions (around : List Node) (n : Node) : List Position :=
  ⟨n, around⟩ :: n.children.attach.flatMap fun ⟨child, _⟩ => child.positions (n :: around)
termination_by sizeOf n
decreasing_by exact sizeOf_lt_of_mem_children ‹_›

theorem positions_eq (around : List Node) (n : Node) :
    n.positions around = ⟨n, around⟩ :: n.children.flatMap (positions (n :: around)) := by
  rw [positions, List.flatMap_subtype (g := positions (n :: around)) fun _ _ => rfl,
    List.unattach_attach]

/-- A node and all nodes in it. A node comes behind its children. -/
def postorder (n : Node) : List Node :=
  (n.children.attach.flatMap fun ⟨child, _⟩ => child.postorder) ++ [n]
termination_by sizeOf n
decreasing_by exact sizeOf_lt_of_mem_children ‹_›

theorem postorder_eq (n : Node) : n.postorder = n.children.flatMap postorder ++ [n] := by
  rw [postorder, List.flatMap_subtype (g := postorder) fun _ _ => rfl, List.unattach_attach]

/-! ### Traversals -/

variable {m : Type → Type} [Monad m]

/-- The traversal of a node. -/
def visit (v : Visitor m) : Node → m Unit
  | .block body => body.visit v
  | .stmt s => s.visit v
  | .expr e => e.visit v

/-- What the handlers of a node do with the traversal of its children. -/
def handle (v : Visitor m) (n : Node) (children : m Unit) : m Unit :=
  match n with
  | .block body => v.block body children
  | .expr e => v.expression e <|
      match e with
      | .literal value => v.literal value
      | .identifier x => v.identifier x
      | .call callee arguments span => v.call callee arguments span children
      | .instruction operator arguments span => v.instruction operator arguments span children
  | .stmt s => v.statement s <|
      match s with
      | .assign targets value? span => v.assignment targets value? span children
      | .forLoop initial condition post body span =>
          v.forLoop initial condition post body span children
      | .function name parameters results body span =>
          v.function name parameters results body span children
      | .breakLoop span => v.breakLoop span
      | .continueLoop span => v.continueLoop span
      | _ => children

theorem visitAll_exprs (v : Visitor m) (es : List Expr) :
    Expr.visitAll v es = (es.map Node.expr).forM (visit v) := by
  induction es with
  | nil => rfl
  | cons e es ih => rw [Expr.visitAll, ih]; rfl

theorem visitAll_stmts (v : Visitor m) (stmts : List Stmt) :
    Stmt.visitAll v stmts = (stmts.map Node.stmt).forM (visit v) := by
  induction stmts with
  | nil => rfl
  | cons stmt stmts ih => rw [Stmt.visitAll, ih]; rfl

theorem visitAll_cases (v : Visitor m) (cases : List Case) :
    Case.visitAll v cases = (cases.map (Node.block ·.body)).forM (visit v) := by
  induction cases with
  | nil => rfl
  | cons case cases ih =>
      obtain ⟨_, body, _⟩ := case
      rw [Case.visitAll, ih]
      rfl

variable [LawfulMonad m]

theorem forM_singleton (v : Visitor m) (n : Node) : [n].forM (visit v) = n.visit v := by
  show (do n.visit v; pure ⟨⟩) = n.visit v
  rw [bind_pure_unit]

theorem visitOption_eq (v : Visitor m) (value? : Option Expr) :
    Expr.visitOption v value? = (value?.toList.map Node.expr).forM (visit v) := by
  cases value? with
  | none => rfl
  | some e => exact (forM_singleton v (.expr e)).symm

/-- A traversal of a node is what its handlers do with the traversals of its children, one after
another. -/
theorem visit_eq (v : Visitor m) (n : Node) :
    n.visit v = n.handle v (n.children.forM (visit v)) := by
  match n with
  | .block ⟨stmts, span⟩ => exact congrArg (v.block ⟨stmts, span⟩) (visitAll_stmts v stmts)
  | .expr (.literal _) => rfl
  | .expr (.identifier _) => rfl
  | .expr (.call callee arguments span) =>
      exact congrArg (fun children => v.expression _ (v.call callee arguments span children))
        (visitAll_exprs v arguments)
  | .expr (.instruction operator arguments span) =>
      exact congrArg
        (fun children => v.expression _ (v.instruction operator arguments span children))
        (visitAll_exprs v arguments)
  | .stmt (.expression e _) => exact congrArg (v.statement _) (forM_singleton v (.expr e)).symm
  | .stmt (.assign targets value? span) =>
      exact congrArg (fun children => v.statement _ (v.assignment targets value? span children))
        (visitOption_eq v value?)
  | .stmt (.declare _ value? _) => exact congrArg (v.statement _) (visitOption_eq v value?)
  | .stmt (.ifThen condition body _) =>
      exact congrArg (fun last => v.statement _ (do condition.visit v; last))
        (forM_singleton v (.block body)).symm
  | .stmt (.switch scrutinee cases _) =>
      exact congrArg (fun last => v.statement _ (do scrutinee.visit v; last))
        (visitAll_cases v cases)
  | .stmt (.forLoop initial condition post body span) =>
      exact congrArg (fun last => v.statement _ (v.forLoop initial condition post body span (do
        initial.visit v; condition.visit v; body.visit v; last)))
        (forM_singleton v (.block post)).symm
  | .stmt (.function name parameters results body span) =>
      exact congrArg
        (fun children => v.statement _ (v.function name parameters results body span children))
        (forM_singleton v (.block body)).symm
  | .stmt (.breakLoop _) => rfl
  | .stmt (.continueLoop _) => rfl
  | .stmt (.block body) => exact congrArg (v.statement _) (forM_singleton v (.block body)).symm

/-- A visitor that passes each child as `after` says of what is inside of it passes the children,
one after another, in the same way. `Ready` is what it has to know before each of them. -/
theorem run_forM_visit {σ α : Type} {v : Visitor (StateM σ)} (inside : Node → List α)
    (after : σ → List α → σ) (Ready : σ → Prop) (hnil : ∀ found, after found [] = found)
    (happend : ∀ found front back,
      after found (front ++ back) = after (after found front) back)
    (hready : ∀ found parts, Ready found → Ready (after found parts)) {children : List Node}
    (hchild : ∀ child ∈ children, ∀ found, Ready found →
      (child.visit v).run found = ((), after found (inside child)))
    (found : σ) (h : Ready found) :
    (children.forM (visit v)).run found = ((), after found (children.flatMap inside)) := by
  induction children generalizing found with
  | nil => exact congrArg (Prod.mk ()) (hnil found).symm
  | cons child children ih =>
      rw [List.forM_eq_forM, List.forM_cons, StateT.run_bind,
        hchild child List.mem_cons_self found h, List.flatMap_cons, happend]
      exact ih (fun other hmem => hchild other (List.mem_cons_of_mem _ hmem)) _
        (hready found _ h)

end Node

/-! ### Expressions -/

/-- Whether the expression has no arguments by its kind. -/
def Expr.isLeaf : Expr → Bool
  | .literal _ => true
  | .identifier _ => true
  | _ => false

/-- Lists the literals and the identifiers that a traversal gets to. -/
def leafVisitor : Visitor (StateM (List Expr)) where
  literal value := modify (· ++ [.literal value])
  identifier x := modify (· ++ [.identifier x])

namespace Node

/-- The node as an expression. -/
def expr? : Node → Option Expr
  | .expr e => some e
  | _ => none

/-- The expressions in a node, each behind its arguments. -/
def expressions (n : Node) : List Expr :=
  n.postorder.filterMap expr?

theorem expressions_eq (n : Node) :
    n.expressions = n.children.flatMap expressions ++ n.expr?.toList := by
  rw [expressions, postorder_eq, List.filterMap_append, List.filterMap_flatMap]
  refine congrArg (_ ++ ·) ?_
  cases h : n.expr? <;> simp [h]

theorem expressions_stmt (s : Stmt) :
    (Node.stmt s).expressions = (Node.stmt s).children.flatMap expressions :=
  (expressions_eq _).trans (List.append_nil _)

theorem expressions_of_children {s : Stmt} {child : Node} (h : (Node.stmt s).children = [child]) :
    (Node.stmt s).expressions = child.expressions := by
  rw [expressions_stmt, h, List.flatMap_singleton]

theorem expressions_block (stmts : List Stmt) (span : Span) :
    (Node.block ⟨stmts, span⟩).expressions = (stmts.map Node.stmt).flatMap expressions :=
  (expressions_eq _).trans (List.append_nil _)

theorem expressions_of_isEmpty {body : Block} (h : body.isEmpty = true) :
    (Node.block body).expressions = [] := by
  obtain ⟨stmts, span⟩ := body
  obtain rfl : stmts = [] := List.isEmpty_iff.1 h
  exact expressions_block [] span

/-- A traversal gets to the leaves in the order in which they stand among all expressions. -/
theorem run_visit_leafVisitor (n : Node) (found : List Expr) :
    (n.visit leafVisitor).run found = ((), found ++ n.expressions.filter Expr.isLeaf) := by
  induction n using Node.induction generalizing found with
  | node n ih =>
      have hchildren : (n.children.forM (visit leafVisitor)).run found =
          ((), found ++ (n.children.flatMap expressions).filter Expr.isLeaf) :=
        run_forM_visit expressions (fun found es => found ++ es.filter Expr.isLeaf)
          (fun _ => True) (by simp) (by simp) (fun _ _ h => h)
          (fun child hmem found _ => ih child hmem found) found trivial
      have hplain := hchildren.trans (congrArg (Prod.mk ()) (List.append_nil _).symm)
      rw [visit_eq, expressions_eq, List.filter_append, ← List.append_assoc]
      match n with
      | .expr (.literal _) | .expr (.identifier _) =>
          exact congrArg (fun found => ((), found ++ [_])) (List.append_nil found).symm
      | .expr (.call _ _ _) | .expr (.instruction _ _ _) | .block _ | .stmt (.expression _ _)
      | .stmt (.assign _ _ _) | .stmt (.declare _ _ _) | .stmt (.ifThen _ _ _)
      | .stmt (.switch _ _ _) | .stmt (.forLoop _ _ _ _ _) | .stmt (.function _ _ _ _ _)
      | .stmt (.breakLoop _) | .stmt (.continueLoop _) | .stmt (.block _) => exact hplain

end Node

end StorageFlow
