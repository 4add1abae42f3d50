import StorageFlow.Proofs.Rewriting.SameSyntax

/-!
# StorageFlow.Proofs.Syntax.Spelling

What the written form of a tree does not tell.

* `Expr.spelledOut`, `Block.spelledOut` — a tree in which every native instruction is written as a
  call of its written form.
* `Expr.written`, `Block.written` — the tree without source locations besides.
* `Stmt.toText_written`, `Block.toText_written` — neither changes the written form.
-/

namespace StorageFlow

namespace Expr

mutual

/-- The expression with calls in place of native instructions. -/
def spelledOut : Expr → Expr
  | .literal value => .literal value
  | .identifier x => .identifier x
  | .call callee arguments span => .call callee (allSpelledOut arguments) span
  | .instruction operator arguments span =>
      .call ⟨operator.mnemonic, span⟩ (allSpelledOut arguments) span

/-- The expressions with calls in place of native instructions. -/
def allSpelledOut : List Expr → List Expr
  | [] => []
  | e :: es => e.spelledOut :: allSpelledOut es

end

end Expr

mutual

/-- The statement with calls in place of native instructions. -/
def Stmt.spelledOut : Stmt → Stmt
  | .expression e span => .expression e.spelledOut span
  | .assign targets value? span => .assign targets (value?.map Expr.spelledOut) span
  | .declare declared value? span => .declare declared (value?.map Expr.spelledOut) span
  | .ifThen condition body span => .ifThen condition.spelledOut body.spelledOut span
  | .switch scrutinee cases span => .switch scrutinee.spelledOut (Case.allSpelledOut cases) span
  | .forLoop initial condition post body span =>
      .forLoop initial.spelledOut condition.spelledOut post.spelledOut body.spelledOut span
  | .function name parameters results body span =>
      .function name parameters results body.spelledOut span
  | .breakLoop span => .breakLoop span
  | .continueLoop span => .continueLoop span
  | .block body => .block body.spelledOut

/-- The statements with calls in place of native instructions. -/
def Stmt.allSpelledOut : List Stmt → List Stmt
  | [] => []
  | stmt :: stmts => stmt.spelledOut :: Stmt.allSpelledOut stmts

/-- The case with calls in place of native instructions. -/
def Case.spelledOut : Case → Case
  | ⟨value?, body, span⟩ => ⟨value?, body.spelledOut, span⟩

/-- The cases with calls in place of native instructions. -/
def Case.allSpelledOut : List Case → List Case
  | [] => []
  | case :: cases => case.spelledOut :: Case.allSpelledOut cases

/-- The block with calls in place of native instructions. -/
def Block.spelledOut : Block → Block
  | ⟨stmts, span⟩ => ⟨Stmt.allSpelledOut stmts, span⟩

end

/-! ### What is written -/

/-- What the written form of an expression tells of it. -/
def Expr.written (e : Expr) : Expr :=
  e.spelledOut.withoutSpans

/-- What the written form of a statement tells of it. -/
def Stmt.written (stmt : Stmt) : Stmt :=
  stmt.spelledOut.withoutSpans

/-- What the written form of a case tells of it. -/
def Case.written (case : Case) : Case :=
  case.spelledOut.withoutSpans

/-- What the written form of a block tells of it. -/
def Block.written (block : Block) : Block :=
  block.spelledOut.withoutSpans

namespace Expr

theorem allWithoutSpans_allSpelledOut (es : List Expr) :
    allWithoutSpans (allSpelledOut es) = es.map written := by
  induction es with
  | nil => rfl
  | cons e es ih => rw [allSpelledOut, allWithoutSpans, ih, List.map_cons, written]

@[simp] theorem written_literal (value : Literal) :
    (literal value).written = .literal value.withoutSpan := rfl

@[simp] theorem written_identifier (x : Identifier) : (identifier x).written = .ofName x.name := rfl

@[simp] theorem written_call (callee : Identifier) (arguments : List Expr) (span : Span) :
    (call callee arguments span).written = .callOf callee.name (arguments.map written) :=
  congrArg (call _ · _) (allWithoutSpans_allSpelledOut arguments)

@[simp] theorem written_instruction (operator : Instruction) (arguments : List Expr) (span : Span) :
    (instruction operator arguments span).written =
      .callOf operator.mnemonic (arguments.map written) :=
  congrArg (call _ · _) (allWithoutSpans_allSpelledOut arguments)

end Expr

theorem Stmt.allWithoutSpans_allSpelledOut (stmts : List Stmt) :
    Stmt.allWithoutSpans (Stmt.allSpelledOut stmts) = stmts.map Stmt.written := by
  induction stmts with
  | nil => rfl
  | cons stmt stmts ih =>
      rw [Stmt.allSpelledOut, Stmt.allWithoutSpans, ih, List.map_cons, Stmt.written]

theorem Case.allWithoutSpans_allSpelledOut (cases : List Case) :
    Case.allWithoutSpans (Case.allSpelledOut cases) = cases.map Case.written := by
  induction cases with
  | nil => rfl
  | cons case cases ih =>
      rw [Case.allSpelledOut, Case.allWithoutSpans, ih, List.map_cons, Case.written]

@[simp] theorem Block.written_mk (stmts : List Stmt) (span : Span) :
    (Block.mk stmts span).written = .ofStatements (stmts.map Stmt.written) :=
  congrArg (Block.mk · _) (Stmt.allWithoutSpans_allSpelledOut stmts)

@[simp] theorem Case.written_mk (value? : Option Literal) (body : Block) (span : Span) :
    (Case.mk value? body span).written =
      ⟨value?.map Literal.withoutSpan, body.written, .synthetic⟩ := rfl

namespace Stmt

@[simp] theorem written_expression (e : Expr) (span : Span) :
    (expression e span).written = .eval e.written := rfl

@[simp] theorem written_assign (targets : List Identifier) (value? : Option Expr) (span : Span) :
    (assign targets value? span).written =
      .assign (targets.map Identifier.withoutSpan) (value?.map Expr.written) .synthetic := by
  cases value? <;> rfl

@[simp] theorem written_declare (declared : List Binder) (value? : Option Expr) (span : Span) :
    (declare declared value? span).written =
      .declare (declared.map Binder.withoutSpan) (value?.map Expr.written) .synthetic := by
  cases value? <;> rfl

@[simp] theorem written_ifThen (condition : Expr) (body : Block) (span : Span) :
    (ifThen condition body span).written = .when condition.written body.written := rfl

@[simp] theorem written_switch (scrutinee : Expr) (cases : List Case) (span : Span) :
    (switch scrutinee cases span).written =
      .switchOn scrutinee.written (cases.map Case.written) :=
  congrArg (switch _ · _) (Case.allWithoutSpans_allSpelledOut cases)

@[simp] theorem written_forLoop (initial : Block) (condition : Expr) (post body : Block)
    (span : Span) : (forLoop initial condition post body span).written =
      .forLoop initial.written condition.written post.written body.written .synthetic := rfl

@[simp] theorem written_function (name : Name) (parameters results : List Binder) (body : Block)
    (span : Span) : (function name parameters results body span).written =
      .function name (parameters.map Binder.withoutSpan) (results.map Binder.withoutSpan)
        body.written .synthetic := rfl

@[simp] theorem written_breakLoop (span : Span) :
    (breakLoop span).written = .breakLoop .synthetic := rfl

@[simp] theorem written_continueLoop (span : Span) :
    (continueLoop span).written = .continueLoop .synthetic := rfl

@[simp] theorem written_block (body : Block) : (block body).written = .block body.written := rfl

end Stmt

/-! ### Written forms -/

namespace Expr

mutual

theorem toText_spelledOut : ∀ e : Expr, e.spelledOut.toText = e.toText
  | .literal _ => rfl
  | .identifier _ => rfl
  | .call callee arguments _ =>
      congrArg (callee.name ++ "(" ++ commaSeparated · ++ ")") (textAll_allSpelledOut arguments)
  | .instruction operator arguments _ =>
      congrArg (operator.mnemonic ++ "(" ++ commaSeparated · ++ ")")
        (textAll_allSpelledOut arguments)

/-- An instruction is written as the call of its written form. -/
theorem textAll_allSpelledOut : ∀ es : List Expr, textAll (allSpelledOut es) = textAll es
  | [] => rfl
  | e :: es => congrArg₂ List.cons (toText_spelledOut e) (textAll_allSpelledOut es)

end

theorem toText_written (e : Expr) : e.written.toText = e.toText := by
  rw [written, toText_withoutSpans, toText_spelledOut]

theorem assignedText_written (value? : Option Expr) :
    assignedText (value?.map written) = assignedText value? := by
  cases value? with
  | none => rfl
  | some e => exact congrArg (" := " ++ ·) e.toText_written

end Expr

theorem Binder.map_toText_withoutSpan (declared : List Binder) :
    (declared.map Binder.withoutSpan).map Binder.toText = declared.map Binder.toText := by
  rw [List.map_map]
  rfl

theorem signatureText_withoutSpan (name : Name) (parameters results : List Binder) :
    signatureText name (parameters.map Binder.withoutSpan) (results.map Binder.withoutSpan) =
      signatureText name parameters results := by
  rw [signatureText, Binder.map_toText_withoutSpan, Binder.map_toText_withoutSpan,
    List.isEmpty_map, signatureText]

mutual

theorem Stmt.toText_written : ∀ stmt : Stmt, stmt.written.toText = stmt.toText
  | .expression e _ => e.toText_written
  | .assign targets none _ =>
      congrArg (commaSeparated · ++ " := <missing>") (targetNames_withoutSpan targets)
  | .assign targets (some e) _ =>
      congrArg₂ (commaSeparated · ++ " := " ++ ·) (targetNames_withoutSpan targets)
        e.toText_written
  | .declare declared value? _ => by
      rw [Stmt.written_declare, Stmt.toText, Binder.map_toText_withoutSpan,
        Expr.assignedText_written, Stmt.toText]
  | .ifThen condition body _ => by
      rw [Stmt.written_ifThen, Stmt.when, Stmt.toText, condition.toText_written,
        body.toText_written, Stmt.toText]
  | .switch scrutinee cases _ => by
      rw [Stmt.written_switch, Stmt.switchOn, Stmt.toText, scrutinee.toText_written,
        Case.spacedText_written cases, Stmt.toText]
  | .forLoop initial condition post body _ => by
      rw [Stmt.written_forLoop, Stmt.toText, initial.toText_written, condition.toText_written,
        post.toText_written, body.toText_written, Stmt.toText]
  | .function name parameters results body _ => by
      rw [Stmt.written_function, Stmt.toText, body.toText_written, signatureText_withoutSpan,
        Stmt.toText]
  | .breakLoop _ => rfl
  | .continueLoop _ => rfl
  | .block body => body.toText_written

theorem Stmt.spacedText_written : ∀ stmts : List Stmt,
    Stmt.spacedText (stmts.map Stmt.written) = Stmt.spacedText stmts
  | [] => rfl
  | stmt :: stmts => by
      rw [List.map_cons, Stmt.spacedText, stmt.toText_written, Stmt.spacedText_written stmts,
        Stmt.spacedText]

theorem Case.spacedText_written : ∀ cases : List Case,
    Case.spacedText (cases.map Case.written) = Case.spacedText cases
  | [] => rfl
  | ⟨none, body, _⟩ :: cases => by
      rw [List.map_cons, Case.written_mk, Option.map_none, Case.spacedText, Case.toText,
        body.toText_written, Case.spacedText_written cases, Case.spacedText, Case.toText]
  | ⟨some value, body, _⟩ :: cases => by
      rw [List.map_cons, Case.written_mk, Option.map_some, Case.spacedText, Case.toText,
        body.toText_written, Case.spacedText_written cases, Case.spacedText, Case.toText]
      rfl

/-- A block is written as what its written form tells of it. -/
theorem Block.toText_written : ∀ block : Block, block.written.toText = block.toText
  | ⟨stmts, _⟩ => by
      rw [Block.written_mk, Block.ofStatements, Block.toText, Stmt.spacedText_written stmts,
        Block.toText]

end

end StorageFlow
