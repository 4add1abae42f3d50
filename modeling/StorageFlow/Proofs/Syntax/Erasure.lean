import Mathlib.Logic.Basic
import StorageFlow.Proofs.Syntax.Collectors
import StorageFlow.Syntax.Equality

/-!
# StorageFlow.Proofs.Syntax.Erasure

Trees without source locations.

* `Stmt.withoutSpans`, `Block.withoutSpans` — a tree with every source location erased.
* `Expr.sameSyntax_iff` — expressions are compared as if they had no source locations.
* `Expr.reads_withoutSpans`, `Block.assigned_withoutSpans`, … — what is collected from a tree is
  collected from the tree without source locations too.
-/

namespace StorageFlow

/-! ### Leaves -/

/-- The literal with its source location erased. -/
def Literal.withoutSpan (value : Literal) : Literal :=
  { value with span := .synthetic }

/-- The occurrence of the name with its source location erased. -/
def Identifier.withoutSpan (x : Identifier) : Identifier :=
  .ofName x.name

/-- The declared name with its source location erased. -/
def Binder.withoutSpan (declared : Binder) : Binder :=
  { declared with span := .synthetic }

@[simp] theorem Literal.toNat?_withoutSpan (value : Literal) :
    value.withoutSpan.toNat? = value.toNat? := rfl

@[simp] theorem targetNames_withoutSpan (targets : List Identifier) :
    targetNames (targets.map Identifier.withoutSpan) = targetNames targets := by
  rw [targetNames, targetNames, List.map_map]
  rfl

@[simp] theorem Binder.name_withoutSpan (declared : List Binder) :
    (declared.map Binder.withoutSpan).map Binder.name = declared.map Binder.name := by
  rw [List.map_map]
  rfl

/-! ### Expressions -/

namespace Expr

@[simp] theorem allWithoutSpans_eq_map (es : List Expr) :
    allWithoutSpans es = es.map withoutSpans := by
  induction es with
  | nil => rfl
  | cons e es ih => rw [allWithoutSpans, ih, List.map_cons]

@[simp] theorem span_withoutSpans (e : Expr) : e.withoutSpans.span = .synthetic := by
  cases e <;> rfl

@[simp] theorem toNat?_withoutSpans (e : Expr) : e.withoutSpans.toNat? = e.toNat? := by
  cases e <;> rfl

@[simp] theorem arguments_withoutSpans (e : Expr) :
    e.withoutSpans.arguments = e.arguments.map withoutSpans := by
  cases e with
  | call _ arguments _ => exact allWithoutSpans_eq_map arguments
  | instruction _ arguments _ => exact allWithoutSpans_eq_map arguments
  | literal _ => rfl
  | identifier _ => rfl

theorem withoutSpans_withArguments (e : Expr) (es : List Expr) :
    (e.withArguments es).withoutSpans = e.withoutSpans.withArguments (es.map withoutSpans) := by
  cases e <;> simp [withArguments, withoutSpans]

mutual

@[simp] theorem reads_withoutSpans : ∀ e : Expr, e.withoutSpans.reads = e.reads
  | .literal _ => rfl
  | .identifier _ => rfl
  | .call _ arguments _ => readsAll_withoutSpans arguments
  | .instruction _ arguments _ => readsAll_withoutSpans arguments

theorem readsAll_withoutSpans : ∀ es : List Expr, readsAll (allWithoutSpans es) = readsAll es
  | [] => rfl
  | e :: es => congrArg₂ (· ++ ·) (reads_withoutSpans e) (readsAll_withoutSpans es)

end

mutual

@[simp] theorem operations_withoutSpans : ∀ e : Expr, e.withoutSpans.operations = e.operations
  | .literal _ => rfl
  | .identifier _ => rfl
  | .call _ arguments _ => congrArg (· ++ _) (operationsAll_withoutSpans arguments)
  | .instruction _ arguments _ => congrArg (· ++ _) (operationsAll_withoutSpans arguments)

theorem operationsAll_withoutSpans : ∀ es : List Expr,
    operationsAll (allWithoutSpans es) = operationsAll es
  | [] => rfl
  | e :: es => congrArg₂ (· ++ ·) (operations_withoutSpans e) (operationsAll_withoutSpans es)

end

@[simp] theorem operationsOption_withoutSpans (value? : Option Expr) :
    operationsOption (value?.map withoutSpans) = operationsOption value? := by
  cases value? with
  | none => rfl
  | some e => exact operations_withoutSpans e

mutual

@[simp] theorem withoutSpans_withoutSpans : ∀ e : Expr, e.withoutSpans.withoutSpans = e.withoutSpans
  | .literal _ => rfl
  | .identifier _ => rfl
  | .call callee arguments _ =>
      congrArg (call (.ofName callee.name) · _) (allWithoutSpans_allWithoutSpans arguments)
  | .instruction operator arguments _ =>
      congrArg (instruction operator · _) (allWithoutSpans_allWithoutSpans arguments)

theorem allWithoutSpans_allWithoutSpans : ∀ es : List Expr,
    allWithoutSpans (allWithoutSpans es) = allWithoutSpans es
  | [] => rfl
  | e :: es =>
      congrArg₂ List.cons (withoutSpans_withoutSpans e) (allWithoutSpans_allWithoutSpans es)

end

mutual

/-- Expressions are compared as if they had no source locations. -/
theorem sameSyntax_iff : ∀ a b : Expr, a.sameSyntax b = true ↔ a.withoutSpans = b.withoutSpans
  | .literal a, b => by cases b <;> simp [sameSyntax, withoutSpans]
  | .identifier x, b => by cases b <;> simp [sameSyntax, withoutSpans, Identifier.ofName]
  | .call _ as _, b => by
      cases b with
      | call _ bs _ =>
          simp only [sameSyntax, withoutSpans, Bool.and_eq_true, decide_eq_true_eq,
            sameSyntaxAll_iff as bs, call.injEq, Identifier.ofName, Identifier.mk.injEq, and_true]
      | _ => simp [sameSyntax, withoutSpans]
  | .instruction _ as _, b => by
      cases b with
      | instruction _ bs _ =>
          simp only [sameSyntax, withoutSpans, Bool.and_eq_true, decide_eq_true_eq,
            sameSyntaxAll_iff as bs, instruction.injEq, and_true]
      | _ => simp [sameSyntax, withoutSpans]

theorem sameSyntaxAll_iff : ∀ as bs : List Expr,
    sameSyntaxAll as bs = true ↔ allWithoutSpans as = allWithoutSpans bs
  | [], bs => by cases bs <;> simp [sameSyntaxAll, allWithoutSpans]
  | a :: as, bs => by
      cases bs with
      | nil => simp [sameSyntaxAll, allWithoutSpans]
      | cons b bs =>
          rw [sameSyntaxAll, Bool.and_eq_true, sameSyntax_iff a b, sameSyntaxAll_iff as bs,
            allWithoutSpans, allWithoutSpans, List.cons.injEq]

end

@[simp] theorem sameSyntax_withoutSpans (a b : Expr) :
    a.withoutSpans.sameSyntax b.withoutSpans = a.sameSyntax b := by
  rw [Bool.eq_iff_iff, sameSyntax_iff, sameSyntax_iff, withoutSpans_withoutSpans,
    withoutSpans_withoutSpans]

@[simp] theorem mayChangeStorage_withoutSpans (dialect : Dialect) (e : Expr) :
    e.withoutSpans.mayChangeStorage dialect = e.mayChangeStorage dialect := by
  rw [mayChangeStorage_eq, mayChangeStorage_eq, operations_withoutSpans]

end Expr

@[simp] theorem EffectSummary.ofExpr_withoutSpans (dialect : Dialect) (e : Expr) :
    ofExpr dialect e.withoutSpans = ofExpr dialect e := by
  rw [ofExpr_eq, ofExpr_eq, Expr.operations_withoutSpans, Expr.reads_withoutSpans]

@[simp] theorem Dialect.isDiscardable_withoutSpans (dialect : Dialect) (e : Expr) :
    dialect.isDiscardable e.withoutSpans = dialect.isDiscardable e := by
  rw [isDiscardable, isDiscardable, EffectSummary.ofExpr_withoutSpans]

/-! ### Statements -/

mutual

/-- The statement with every source location erased. -/
def Stmt.withoutSpans : Stmt → Stmt
  | .expression e _ => .expression e.withoutSpans .synthetic
  | .assign targets value? _ =>
      .assign (targets.map Identifier.withoutSpan) (value?.map Expr.withoutSpans) .synthetic
  | .declare declared value? _ =>
      .declare (declared.map Binder.withoutSpan) (value?.map Expr.withoutSpans) .synthetic
  | .ifThen condition body _ => .ifThen condition.withoutSpans body.withoutSpans .synthetic
  | .switch scrutinee cases _ =>
      .switch scrutinee.withoutSpans (Case.allWithoutSpans cases) .synthetic
  | .forLoop initial condition post body _ =>
      .forLoop initial.withoutSpans condition.withoutSpans post.withoutSpans body.withoutSpans
        .synthetic
  | .function name parameters results body _ =>
      .function name (parameters.map Binder.withoutSpan) (results.map Binder.withoutSpan)
        body.withoutSpans .synthetic
  | .breakLoop _ => .breakLoop .synthetic
  | .continueLoop _ => .continueLoop .synthetic
  | .block body => .block body.withoutSpans

/-- The statements with every source location erased. -/
def Stmt.allWithoutSpans : List Stmt → List Stmt
  | [] => []
  | stmt :: stmts => stmt.withoutSpans :: Stmt.allWithoutSpans stmts

/-- The case with every source location erased. -/
def Case.withoutSpans : Case → Case
  | ⟨value?, body, _⟩ => ⟨value?.map Literal.withoutSpan, body.withoutSpans, .synthetic⟩

/-- The cases with every source location erased. -/
def Case.allWithoutSpans : List Case → List Case
  | [] => []
  | case :: cases => case.withoutSpans :: Case.allWithoutSpans cases

/-- The block with every source location erased. -/
def Block.withoutSpans : Block → Block
  | ⟨stmts, _⟩ => ⟨Stmt.allWithoutSpans stmts, .synthetic⟩

end

theorem Case.allWithoutSpans_eq_map (cases : List Case) :
    Case.allWithoutSpans cases = cases.map Case.withoutSpans := by
  induction cases with
  | nil => rfl
  | cons case cases ih => rw [Case.allWithoutSpans, ih, List.map_cons]

@[simp] theorem Case.body_withoutSpans (case : Case) :
    case.withoutSpans.body = case.body.withoutSpans := by
  cases case
  rfl

@[simp] theorem Block.span_withoutSpans (block : Block) :
    block.withoutSpans.span = .synthetic := by
  cases block
  rfl

@[simp] theorem Block.isEmpty_withoutSpans : ∀ block : Block,
    block.withoutSpans.isEmpty = block.isEmpty
  | ⟨[], _⟩ => rfl
  | ⟨_ :: _, _⟩ => rfl

/-! ### What is collected from statements -/

mutual

theorem Stmt.operations_withoutSpans : ∀ s : Stmt, s.withoutSpans.operations = s.operations
  | .expression e _ => e.operations_withoutSpans
  | .assign _ value? _ => Expr.operationsOption_withoutSpans value?
  | .declare _ value? _ => Expr.operationsOption_withoutSpans value?
  | .ifThen condition body _ => by
      rw [Stmt.withoutSpans, Stmt.operations, condition.operations_withoutSpans,
        body.operations_withoutSpans, Stmt.operations]
  | .switch scrutinee cases _ => by
      rw [Stmt.withoutSpans, Stmt.operations, scrutinee.operations_withoutSpans,
        Case.operationsAll_withoutSpans cases, Stmt.operations]
  | .forLoop initial condition post body _ => by
      rw [Stmt.withoutSpans, Stmt.operations, initial.operations_withoutSpans,
        condition.operations_withoutSpans, body.operations_withoutSpans,
        post.operations_withoutSpans, Stmt.operations]
  | .function _ _ _ body _ => body.operations_withoutSpans
  | .breakLoop _ => rfl
  | .continueLoop _ => rfl
  | .block body => body.operations_withoutSpans

theorem Stmt.operationsAll_withoutSpans : ∀ ss : List Stmt,
    Stmt.operationsAll (Stmt.allWithoutSpans ss) = Stmt.operationsAll ss
  | [] => rfl
  | s :: ss => congrArg₂ (· ++ ·) s.operations_withoutSpans (Stmt.operationsAll_withoutSpans ss)

theorem Case.operationsAll_withoutSpans : ∀ cases : List Case,
    Case.operationsAll (Case.allWithoutSpans cases) = Case.operationsAll cases
  | [] => rfl
  | ⟨_, body, _⟩ :: cases =>
      congrArg₂ (· ++ ·) body.operations_withoutSpans (Case.operationsAll_withoutSpans cases)

theorem Block.operations_withoutSpans : ∀ b : Block, b.withoutSpans.operations = b.operations
  | ⟨stmts, _⟩ => Stmt.operationsAll_withoutSpans stmts

end

mutual

theorem Stmt.targets_withoutSpans : ∀ s : Stmt, s.withoutSpans.targets = s.targets
  | .assign targets _ _ => targetNames_withoutSpan targets
  | .ifThen _ body _ => body.targets_withoutSpans
  | .switch _ cases _ => Case.targetsAll_withoutSpans cases
  | .forLoop initial _ post body _ => by
      rw [Stmt.withoutSpans, Stmt.targets, initial.targets_withoutSpans,
        body.targets_withoutSpans, post.targets_withoutSpans, Stmt.targets]
  | .block body => body.targets_withoutSpans
  | .expression _ _ => rfl
  | .declare _ _ _ => rfl
  | .function _ _ _ _ _ => rfl
  | .breakLoop _ => rfl
  | .continueLoop _ => rfl

theorem Stmt.targetsAll_withoutSpans : ∀ ss : List Stmt,
    Stmt.targetsAll (Stmt.allWithoutSpans ss) = Stmt.targetsAll ss
  | [] => rfl
  | s :: ss => congrArg₂ (· ++ ·) s.targets_withoutSpans (Stmt.targetsAll_withoutSpans ss)

theorem Case.targetsAll_withoutSpans : ∀ cases : List Case,
    Case.targetsAll (Case.allWithoutSpans cases) = Case.targetsAll cases
  | [] => rfl
  | ⟨_, body, _⟩ :: cases =>
      congrArg₂ (· ++ ·) body.targets_withoutSpans (Case.targetsAll_withoutSpans cases)

theorem Block.targets_withoutSpans : ∀ b : Block, b.withoutSpans.targets = b.targets
  | ⟨stmts, _⟩ => Stmt.targetsAll_withoutSpans stmts

end

mutual

theorem Stmt.hasContinue_withoutSpans : ∀ s : Stmt, s.withoutSpans.hasContinue = s.hasContinue
  | .ifThen _ body _ => body.hasContinue_withoutSpans
  | .switch _ cases _ => Case.hasContinueAny_withoutSpans cases
  | .block body => body.hasContinue_withoutSpans
  | .continueLoop _ => rfl
  | .forLoop _ _ _ _ _ => rfl
  | .assign _ _ _ => rfl
  | .expression _ _ => rfl
  | .declare _ _ _ => rfl
  | .function _ _ _ _ _ => rfl
  | .breakLoop _ => rfl

theorem Stmt.hasContinueAny_withoutSpans : ∀ ss : List Stmt,
    Stmt.hasContinueAny (Stmt.allWithoutSpans ss) = Stmt.hasContinueAny ss
  | [] => rfl
  | s :: ss => congrArg₂ (· || ·) s.hasContinue_withoutSpans (Stmt.hasContinueAny_withoutSpans ss)

theorem Case.hasContinueAny_withoutSpans : ∀ cases : List Case,
    Case.hasContinueAny (Case.allWithoutSpans cases) = Case.hasContinueAny cases
  | [] => rfl
  | ⟨_, body, _⟩ :: cases =>
      congrArg₂ (· || ·) body.hasContinue_withoutSpans (Case.hasContinueAny_withoutSpans cases)

theorem Block.hasContinue_withoutSpans : ∀ b : Block, b.withoutSpans.hasContinue = b.hasContinue
  | ⟨stmts, _⟩ => Stmt.hasContinueAny_withoutSpans stmts

end

mutual

theorem Stmt.lateTargets_withoutSpans : ∀ s : Stmt, s.withoutSpans.lateTargets = s.lateTargets
  | .ifThen _ body _ => body.lateTargets_withoutSpans
  | .switch _ cases _ => Case.lateTargetsAll_withoutSpans cases
  | .block body => body.lateTargets_withoutSpans
  | .forLoop _ _ _ _ _ => rfl
  | .assign _ _ _ => rfl
  | .expression _ _ => rfl
  | .declare _ _ _ => rfl
  | .function _ _ _ _ _ => rfl
  | .breakLoop _ => rfl
  | .continueLoop _ => rfl

theorem Stmt.lateTargetsAll_withoutSpans : ∀ ss : List Stmt,
    Stmt.lateTargetsAll (Stmt.allWithoutSpans ss) = Stmt.lateTargetsAll ss
  | [] => rfl
  | s :: ss => by
      rw [Stmt.allWithoutSpans, Stmt.lateTargetsAll, s.lateTargets_withoutSpans,
        s.hasContinue_withoutSpans, Stmt.targetsAll_withoutSpans,
        Stmt.lateTargetsAll_withoutSpans ss, Stmt.lateTargetsAll]

theorem Case.lateTargetsAll_withoutSpans : ∀ cases : List Case,
    Case.lateTargetsAll (Case.allWithoutSpans cases) = Case.lateTargetsAll cases
  | [] => rfl
  | ⟨_, body, _⟩ :: cases => by
      rw [Case.allWithoutSpans, Case.withoutSpans, Case.lateTargetsAll,
        body.lateTargets_withoutSpans, body.hasContinue_withoutSpans,
        Case.targetsAll_withoutSpans, Case.lateTargetsAll_withoutSpans cases,
        Case.lateTargetsAll]

theorem Block.lateTargets_withoutSpans : ∀ b : Block, b.withoutSpans.lateTargets = b.lateTargets
  | ⟨stmts, _⟩ => Stmt.lateTargetsAll_withoutSpans stmts

end

namespace Block

@[simp] theorem mayChangeStorage_withoutSpans (dialect : Dialect) (block : Block) :
    block.withoutSpans.mayChangeStorage dialect = block.mayChangeStorage dialect := by
  rw [mayChangeStorage_eq, mayChangeStorage_eq, operations_withoutSpans]

@[simp] theorem assigned_withoutSpans (block : Block) :
    block.withoutSpans.assigned = block.assigned := by
  rw [assigned_eq, assigned_eq, targets_withoutSpans]

@[simp] theorem assignedAfterContinue_withoutSpans (block : Block) :
    block.withoutSpans.assignedAfterContinue = block.assignedAfterContinue := by
  rw [assignedAfterContinue_eq, assignedAfterContinue_eq, lateTargets_withoutSpans]

end Block

end StorageFlow
