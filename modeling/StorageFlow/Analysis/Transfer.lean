import StorageFlow.Analysis.State
import StorageFlow.Syntax.Assigned
import StorageFlow.Syntax.Text

/-!
# StorageFlow.Analysis.Transfer

The way of an analysis through a program.

* `analyseExpr`, `analyseStmt`, `analyseBlock` — pass a node, let the hook rewrite its
  expressions, and leave the knowledge that holds behind it.
* `Context.trackedStore?` — the stores that are tracked: both operands are variables.

A construct that may run any number of times, or not at all, is left with the knowledge that holds
in every case. The first error stops the analysis. Scopes are closed, and what was known outside a
function is restored, also on the way out after an error.
-/

namespace StorageFlow

/-- The slot and the value of a store whose operands are both variables. -/
def Context.trackedStore? (context : Context) : Expr → Option (Name × Name)
  | .call callee [.identifier slot, .identifier value] _ =>
      if (context.dialect.callEffects? callee.name).any Effects.writesSlot then
        some (slot.name, value.name)
      else none
  | .instruction operator [.identifier slot, .identifier value] _ =>
      if (context.dialect.instructionEffects operator).writesSlot then some (slot.name, value.name)
      else none
  | _ => none

/-- Whether some part of a loop that runs repeatedly may change storage. -/
def Context.loopChangesStorage (context : Context) (condition : Expr) (post body : Block) : Bool :=
  condition.mayChangeStorage context.dialect || post.mayChangeStorage context.dialect ||
    body.mayChangeStorage context.dialect

namespace Analysis

variable {σ : Type}

/-- Drops what does not hold behind a switch: storage facts if some case may change storage, and all
knowledge about the names that some case assigns. -/
def leaveCases (context : Context) (cases : List Case) (s : State σ) : State σ :=
  (s.forgetStorageIf (cases.any fun case => case.body.mayChangeStorage context.dialect)).clear
    (cases.flatMap fun case => case.body.assigned)

/-- Calls the hook on an expression whose arguments were analysed. -/
def callHook (context : Context) (hook : Hook σ) (e : Expr) (s : State σ) : Step (State σ) Expr :=
  (hook (s.view context) e s.hook).mapState fun state => { s with hook := state }

mutual

/-- Analyses an expression: its arguments from left to right, then the hook on the expression. -/
def analyseExpr (context : Context) (hook : Hook σ) (e : Expr) (s : State σ) :
    Step (State σ) Expr :=
  match e with
  | .literal value => callHook context hook (.literal value) s
  | .identifier x => callHook context hook (.identifier x) s
  | .call callee arguments span =>
      (analyseExprs context hook arguments s).andThen (.call callee · span) fun arguments s =>
      callHook context hook (.call callee arguments span) s
  | .instruction operator arguments span =>
      (analyseExprs context hook arguments s).andThen
        (.instruction operator · span) fun arguments s =>
      callHook context hook (.instruction operator arguments span) s

/-- Analyses expressions one after another. -/
def analyseExprs (context : Context) (hook : Hook σ) (es : List Expr) (s : State σ) :
    Step (State σ) (List Expr) :=
  match es with
  | [] => .done [] s
  | e :: es =>
      (analyseExpr context hook e s).andThen (· :: es) fun e s =>
      (analyseExprs context hook es s).map (e :: ·)

end

/-- Analyses an expression in its place, after the storage facts that it may break are dropped. -/
def evaluate (context : Context) (hook : Hook σ) (e : Expr) (s : State σ) : Step (State σ) Expr :=
  analyseExpr context hook e (s.forgetStorageIf (e.mayChangeStorage context.dialect))

mutual

/-- Analyses a statement. -/
def analyseStmt (context : Context) (hook : Hook σ) (stmt : Stmt) (s : State σ) :
    Step (State σ) Stmt :=
  match stmt with
  | .expression e span =>
    -- The operands are read off before the hook can replace them.
    match context.trackedStore? e with
    | some (slot, value) =>
        (analyseExpr context hook e s).andThen (.expression · span) fun e s =>
        .attempt (.expression e span) s (s.store context slot value)
    | none => (evaluate context hook e s).map (.expression · span)
  | .assign targets none span =>
      .stopped (.assign targets none span) s
        (.missingValue (commaSeparated (targetNames targets)) span)
  | .assign targets (some e) span =>
      (evaluate context hook e s).andThen (fun e => .assign targets (some e) span) fun e s =>
      .done (.assign targets (some e) span) (s.assign context (targetNames targets) e)
  | .declare declared none span =>
      let names := declared.map Binder.name
      .done (.declare declared none span) ((s.declare names).assignZero names)
  | .declare declared (some e) span =>
      let names := declared.map Binder.name
      (evaluate context hook e (s.declare names)).andThen
        (fun e => .declare declared (some e) span) fun e s =>
      .done (.declare declared (some e) span) (s.assign context names e)
  | .ifThen condition body span =>
      let s := s.forgetStorageIf (condition.mayChangeStorage context.dialect)
      let before := s.knowledge.storage
      (analyseExpr context hook condition s).andThen (.ifThen · body span) fun condition s =>
      (analyseBlock context hook body s).andThen (.ifThen condition · span) fun body s =>
      .done (.ifThen condition body span) ((s.joinStorage before).clear body.assigned)
  | .switch scrutinee cases span =>
      (evaluate context hook scrutinee s).andThen (.switch · cases span) fun scrutinee s =>
      (analyseCases context hook cases s).andThen (.switch scrutinee · span) fun cases s =>
      .done (.switch scrutinee cases span) (leaveCases context cases s)
  | .forLoop initial condition post body span =>
      if initial.isEmpty then
        let assigned := body.assigned ++ post.assigned
        -- The condition is reached from the front and from the end of the post block.
        let s := (s.clear assigned).forgetStorageIf (context.loopChangesStorage condition post body)
        (analyseExpr context hook condition s).andThen
          (.forLoop initial · post body span) fun condition s =>
        (analyseBlock context hook body s).andThen
          (.forLoop initial condition post · span) fun newBody s =>
        -- The post block is reached from the end of the body and from each `continue` in it.
        let s := (s.clear body.assignedAfterContinue).forgetStorageIf
          (newBody.mayChangeStorage context.dialect)
        (analyseBlock context hook post s).andThen
          (.forLoop initial condition · newBody span) fun newPost s =>
        .done (.forLoop initial condition newPost newBody span)
          ((s.clear assigned).forgetStorageIf
            (context.loopChangesStorage condition newPost newBody))
      else
        .stopped (.forLoop initial condition post body span) s (.loopPrologue initial.span)
  | .function name parameters results body span =>
      let inner := s.enterFunction (parameters.map Binder.name) (results.map Binder.name)
      ((analyseBlock context hook body inner).mapState (·.leaveFunction s.knowledge)).map
        (.function name parameters results · span)
  | .breakLoop span => .done (.breakLoop span) s
  | .continueLoop span => .done (.continueLoop span) s
  | .block body => (analyseBlock context hook body s).map .block

/-- Analyses statements one after another. -/
def analyseStmts (context : Context) (hook : Hook σ) (stmts : List Stmt) (s : State σ) :
    Step (State σ) (List Stmt) :=
  match stmts with
  | [] => .done [] s
  | stmt :: stmts =>
      (analyseStmt context hook stmt s).andThen (· :: stmts) fun stmt s =>
      (analyseStmts context hook stmts s).map (stmt :: ·)

/-- Analyses the body of a case, and keeps what holds whether it runs or not. -/
def analyseCase (context : Context) (hook : Hook σ) (case : Case) (s : State σ) :
    Step (State σ) Case :=
  match case with
  | ⟨value?, body, span⟩ =>
      let before := s.knowledge.storage
      (analyseBlock context hook body s).andThen (⟨value?, ·, span⟩) fun body s =>
      .done ⟨value?, body, span⟩
        (((s.joinStorage before).clear body.assigned).forgetStorageIf
          (body.mayChangeStorage context.dialect))

/-- Analyses cases one after another. -/
def analyseCases (context : Context) (hook : Hook σ) (cases : List Case) (s : State σ) :
    Step (State σ) (List Case) :=
  match cases with
  | [] => .done [] s
  | case :: cases =>
      (analyseCase context hook case s).andThen (· :: cases) fun case s =>
      (analyseCases context hook cases s).map (case :: ·)

/-- Analyses a block in a scope of its own. -/
def analyseBlock (context : Context) (hook : Hook σ) (block : Block) (s : State σ) :
    Step (State σ) Block :=
  match block with
  | ⟨stmts, span⟩ =>
      let inner := analyseStmts context hook stmts (s.openScope false)
      (inner.mapState State.closeScope).map (⟨·, span⟩)

end

end Analysis

end StorageFlow
