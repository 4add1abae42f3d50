import StorageFlow.Proofs.Syntax.Collectors
import StorageFlow.Proofs.Syntax.Positions

/-!
# StorageFlow.Proofs.Syntax.Logging

Traversals that log what they visit.

* `Visit` — one call of a handler; `Node.visits` are the calls for one node.
* `Visitor.logging` — handlers that record their calls and then go on with the children, for some
  methods of the visitor; the others are those of the default visitor.
* `Node.visit_logging` — in any monad, such a traversal records the calls for the nodes of the tree
  in their order, and does nothing else.
* `Block.walk_cut_off` — so a traversal that fails at one of its records has recorded what comes in
  front of it, and nothing behind it.
-/

namespace StorageFlow

/-- The methods of a visitor. -/
inductive Method
  | block | statement | expression | literal | identifier | call | instruction | assignment
  | forLoop | function | breakLoop | continueLoop
  deriving DecidableEq

/-- A call of a handler: the method, and what the handler is given. -/
inductive Visit
  | block (body : Block)
  | statement (stmt : Stmt)
  | expression (e : Expr)
  | literal (value : Literal)
  | identifier (x : Identifier)
  | call (callee : Identifier) (arguments : List Expr) (span : Span)
  | instruction (operator : Instruction) (arguments : List Expr) (span : Span)
  | assignment (targets : List Identifier) (value? : Option Expr) (span : Span)
  | forLoop (initial : Block) (condition : Expr) (post body : Block) (span : Span)
  | function (name : Name) (parameters results : List Binder) (body : Block) (span : Span)
  | breakLoop (span : Span)
  | continueLoop (span : Span)

/-- The method that is called. -/
def Visit.method : Visit → Method
  | .block _ => .block
  | .statement _ => .statement
  | .expression _ => .expression
  | .literal _ => .literal
  | .identifier _ => .identifier
  | .call _ _ _ => .call
  | .instruction _ _ _ => .instruction
  | .assignment _ _ _ => .assignment
  | .forLoop _ _ _ _ _ => .forLoop
  | .function _ _ _ _ _ => .function
  | .breakLoop _ => .breakLoop
  | .continueLoop _ => .continueLoop

/-- The methods that visit a node, from the general one to that for its kind. -/
def Node.visits : Node → List Visit
  | .block body => [.block body]
  | .expr e => .expression e ::
      match e with
      | .literal value => [.literal value]
      | .identifier x => [.identifier x]
      | .call callee arguments span => [.call callee arguments span]
      | .instruction operator arguments span => [.instruction operator arguments span]
  | .stmt s => .statement s ::
      match s with
      | .assign targets value? span => [.assignment targets value? span]
      | .forLoop initial condition post body span => [.forLoop initial condition post body span]
      | .function name parameters results body span =>
          [.function name parameters results body span]
      | .breakLoop span => [.breakLoop span]
      | .continueLoop span => [.continueLoop span]
      | _ => []

/-- All calls of handlers in the traversal of a block, each node in front of what is in it. -/
def Block.visits (block : Block) : List Visit :=
  ((Node.block block).positions []).flatMap fun position => position.node.visits

/-! ### Logging visitors -/

section Logging

variable {m : Type → Type} [Monad m] (overridden : Method → Bool) (record : Visit → m Unit)

/-- Records a call if the method is overridden, and goes on. -/
def recordThen (visit : Visit) (children : m Unit) : m Unit :=
  if overridden visit.method then do record visit; children else children

/-- The visitor that records the calls of the overridden methods in front of the children. The other
methods are left as they are. -/
def Visitor.logging : Visitor m where
  block body := recordThen overridden record (.block body)
  statement stmt := recordThen overridden record (.statement stmt)
  expression e := recordThen overridden record (.expression e)
  literal value := recordThen overridden record (.literal value) (pure ())
  identifier x := recordThen overridden record (.identifier x) (pure ())
  call callee arguments span := recordThen overridden record (.call callee arguments span)
  instruction operator arguments span :=
    recordThen overridden record (.instruction operator arguments span)
  assignment targets value? span := recordThen overridden record (.assignment targets value? span)
  forLoop initial condition post body span :=
    recordThen overridden record (.forLoop initial condition post body span)
  function name parameters results body span :=
    recordThen overridden record (.function name parameters results body span)
  breakLoop span := recordThen overridden record (.breakLoop span) (pure ())
  continueLoop span := recordThen overridden record (.continueLoop span) (pure ())

/-- The calls of the overridden methods among the given ones. -/
def logged (overridden : Method → Bool) (visits : List Visit) : List Visit :=
  visits.filter fun visit => overridden visit.method

variable {overridden record} [LawfulMonad m]

theorem recordThen_logged (visit : Visit) (visits : List Visit) (children : m Unit) :
    recordThen overridden record visit (do (logged overridden visits).forM record; children) =
      (do (logged overridden (visit :: visits)).forM record; children) := by
  cases h : overridden visit.method with
  | true =>
      have hcons : logged overridden (visit :: visits) = visit :: logged overridden visits :=
        List.filter_cons_of_pos h
      rw [recordThen, if_pos h, hcons]
      exact (bind_assoc _ _ _).symm
  | false =>
      have hcons : logged overridden (visit :: visits) = logged overridden visits :=
        List.filter_cons_of_neg (by simp [h])
      rw [recordThen, h, hcons]
      rfl

theorem recordThen_one (visit : Visit) (children : m Unit) :
    recordThen overridden record visit children =
      (do (logged overridden [visit]).forM record; children) := by
  rw [← recordThen_logged]
  exact congrArg _ (pure_bind () fun _ => children).symm

theorem recordThen_two (visit visit' : Visit) (children : m Unit) :
    recordThen overridden record visit (recordThen overridden record visit' children) =
      (do (logged overridden [visit, visit']).forM record; children) := by
  rw [recordThen_one visit', recordThen_logged]

namespace Node

/-- A logging traversal of a node records its visits, and goes on with its children. -/
theorem visit_logging_eq (n : Node) :
    n.visit (.logging overridden record) =
      (do (logged overridden n.visits).forM record
          n.children.forM (visit (.logging overridden record))) := by
  rw [visit_eq]
  match n with
  | .block _ => exact recordThen_one _ _
  | .expr (.literal _) => exact recordThen_two _ _ _
  | .expr (.identifier _) => exact recordThen_two _ _ _
  | .expr (.call _ _ _) => exact recordThen_two _ _ _
  | .expr (.instruction _ _ _) => exact recordThen_two _ _ _
  | .stmt (.expression _ _) => exact recordThen_one _ _
  | .stmt (.assign _ _ _) => exact recordThen_two _ _ _
  | .stmt (.declare _ _ _) => exact recordThen_one _ _
  | .stmt (.ifThen _ _ _) => exact recordThen_one _ _
  | .stmt (.switch _ _ _) => exact recordThen_one _ _
  | .stmt (.forLoop _ _ _ _ _) => exact recordThen_two _ _ _
  | .stmt (.function _ _ _ _ _) => exact recordThen_two _ _ _
  | .stmt (.breakLoop _) => exact recordThen_two _ _ _
  | .stmt (.continueLoop _) => exact recordThen_two _ _ _
  | .stmt (.block _) => exact recordThen_one _ _

/-- A logging traversal records the visits of all nodes in their order. -/
theorem visit_logging (n : Node) (around : List Node) :
    n.visit (.logging overridden record) =
      (logged overridden ((n.positions around).flatMap (·.node.visits))).forM record := by
  induction n using Node.induction generalizing around with
  | node n ih =>
      have hchildren : ∀ children : List Node, (∀ child ∈ children, child ∈ n.children) →
          children.forM (visit (.logging overridden record)) =
            (logged overridden ((children.flatMap (positions (n :: around))).flatMap
              (·.node.visits))).forM record := by
        intro children hsub
        induction children with
        | nil => rfl
        | cons child children ihs =>
            have hchild := ih child (hsub child List.mem_cons_self) (n :: around)
            have hrest := ihs fun c hc => hsub c (List.mem_cons_of_mem _ hc)
            simp only [logged, List.forM_eq_forM, List.flatMap_cons, List.flatMap_append,
              List.filter_append, List.forM_append, List.forM_cons] at hchild hrest ⊢
            rw [hchild, hrest]
      rw [visit_logging_eq, positions_eq, hchildren _ fun _ h => h]
      simp only [logged, List.flatMap_cons, List.filter_append, List.forM_eq_forM,
        List.forM_append]

end Node

theorem Block.visit_logging (block : Block) :
    block.visit (.logging overridden record) = (logged overridden block.visits).forM record :=
  Node.visit_logging (.block block) []

end Logging

/-! ### Logs that are cut off -/

section CutOff

variable {ε : Type} (label : Visit → ε) (failure : Visit → Error)

/-- Appends the label of a visit to the log. -/
def appendLog (visit : Visit) : ExceptT Error (StateM (List ε)) Unit :=
  modify (· ++ [label visit])

/-- Appends the label of a visit to the log, unless the log has the given number of entries: then it
fails instead. -/
def appendLogUntil (entries : Nat) (visit : Visit) : ExceptT Error (StateM (List ε)) Unit := do
  if (← get).length = entries then throw (failure visit) else appendLog label visit

theorem forM_appendLog (visits : List Visit) (log : List ε) :
    (visits.forM (appendLog label)).run.run log = (.ok (), log ++ visits.map label) := by
  induction visits generalizing log with
  | nil => simp only [List.map_nil, List.append_nil]; rfl
  | cons visit visits ih =>
      show (visits.forM (appendLog label)).run.run (log ++ [label visit]) = _
      rw [ih, List.map_cons, List.append_assoc, List.singleton_append]

theorem run_appendLogUntil (entries : Nat) (visit : Visit) (log : List ε) :
    (appendLogUntil label failure entries visit).run.run log =
      if log.length = entries then (.error (failure visit), log)
      else (.ok (), log ++ [label visit]) := by
  show (if log.length = entries then _ else _ :
    ExceptT Error (StateM (List ε)) Unit).run.run log = _
  split <;> rfl

/-- A computation that failed is the end of it. -/
theorem run_bind_of_error {σ : Type} {x y : ExceptT Error (StateM σ) Unit} {s s' : σ}
    {error : Error} (h : x.run.run s = (.error error, s')) :
    (do x; y).run.run s = (.error error, s') := by
  simp only [ExceptT.run_bind, StateT.run_bind, h]
  rfl

/-- The visits are logged one after another, up to the one in whose place the log fails. -/
theorem forM_appendLogUntil (visits : List Visit) (log : List ε) (k : Nat) :
    (visits.forM (appendLogUntil label failure (log.length + k))).run.run log =
      match visits[k]? with
      | some visit => (.error (failure visit), log ++ (visits.take k).map label)
      | none => (.ok (), log ++ visits.map label) := by
  induction visits generalizing log k with
  | nil => simp only [List.getElem?_nil, List.map_nil, List.append_nil]; rfl
  | cons visit visits ih =>
      have hfirst := run_appendLogUntil label failure (log.length + k) visit log
      cases k with
      | zero =>
          rw [if_pos (Nat.add_zero _).symm] at hfirst
          refine (run_bind_of_error hfirst).trans ?_
          simp
      | succ k =>
          rw [if_neg (by omega)] at hfirst
          refine (EffectSummary.run_bind_of_ok hfirst).trans ?_
          have hlength : log.length + (k + 1) = (log ++ [label visit]).length + k := by
            rw [List.length_append, List.length_singleton]
            omega
          rw [hlength, ih, List.getElem?_cons_succ, List.take_succ_cons, List.map_cons,
            List.map_cons, List.append_assoc, List.append_assoc]
          rfl

end CutOff

/-- Aborting a traversal cuts it off cleanly. Take any block and any visitor that logs an event in
some of its methods, goes on with the children there, and leaves the other methods as they are. The
complete traversal succeeds, and logs each node once for each overridden method, in the order of
the source. The traversal that fails instead of logging the event with `k` others in front of it
returns the error and has logged these `k`; if there is no such event, nothing changes. -/
theorem Block.walk_cut_off {ε : Type} (overridden : Method → Bool) (label : Visit → ε)
    (failure : Visit → Error) (block : Block) :
    let visits := logged overridden block.visits
    (block.visit (.logging overridden (appendLog label))).run.run [] = (.ok (), visits.map label) ∧
      ∀ k, (block.visit (.logging overridden (appendLogUntil label failure k))).run.run [] =
        match visits[k]? with
        | some visit => (.error (failure visit), (visits.take k).map label)
        | none => (.ok (), visits.map label) := by
  intro visits
  refine ⟨?_, fun k => ?_⟩
  · rw [block.visit_logging, forM_appendLog, List.nil_append]
  · have hlog := forM_appendLogUntil label failure visits [] k
    rw [List.length_nil, Nat.zero_add] at hlog
    rw [block.visit_logging, hlog]
    rfl

end StorageFlow
