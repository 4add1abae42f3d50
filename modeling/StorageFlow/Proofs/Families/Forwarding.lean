import StorageFlow.Proofs.Families.Basic
import StorageFlow.Proofs.Pass.Fixpoint
import StorageFlow.Proofs.Pass.Visibility

/-!
# StorageFlow.Proofs.Families.Forwarding

Load forwarding replaces every load of the families, and nothing else.

* `Family.nestedOf`, `Family.functionsOf` — the families with any value in place of their loads.
* `Pass.Forwards` — a step that comes to its end, makes the given node and replaces the given number
  of loads. There is one lemma per construct, from `Forwards.cons` to `Forwards.define`.
* `Pass.forwards_storeAssign` — a store, and behind it the load from the same slot.
* `Pass.forwards_nest` — a branch, a switch or a loop around it adds nothing.
* `Pass.forwarding_resolves_families` — whole runs.
-/

namespace StorageFlow

namespace Family

/-- A store, and a value in place of its load, below `depth` levels of branches and loops. -/
def nestedBodyOf (loaded : Expr) : Nat → List Stmt
  | 0 => [.eval (callOn "sstore" ["x", "y"]), .assignTo ["y"] loaded]
  | depth + 1 => [nest depth (nestedBodyOf loaded depth)]

/-- A loop around a store, and a value in place of its load, below `depth` levels of branches and
loops. -/
def nestedOf (loaded : Expr) (depth : Nat) : Block :=
  .ofStatements
    [declareOne "x" (inputWord 0),
      declareOne "y" (inputWord 32),
      declareOne "cond" (inputWord 64),
      .loop (.ofName "cond") .empty (.ofStatements (nestedBodyOf loaded depth))]

/-- A function that stores its second parameter at its first, with a value in place of the load. -/
def storingFunctionOf (loaded : Expr) (i : Nat) : Stmt :=
  .define ("f" ++ toString i) ["a", "b"] ["r"]
    (.ofStatements
      [.eval (callOn "sstore" ["a", "b"]),
        .assignTo ["r"] (.callOf "add" [loaded, .ofName "b"])])

/-- A program of `count` small functions, with a value in place of their loads. -/
def functionsOf (loaded : Expr) (count : Nat) : Block :=
  .ofStatements ((List.range count).map (storingFunctionOf loaded))

theorem nestedBodyOf_sload (depth : Nat) :
    nestedBodyOf (callOn "sload" ["x"]) depth = nestedBody depth := by
  induction depth with
  | zero => rfl
  | succ depth ih => rw [nestedBodyOf, nestedBody, ih]

theorem nestedOf_sload (depth : Nat) : nestedOf (callOn "sload" ["x"]) depth = nested depth := by
  rw [nestedOf, nested, nestedBodyOf_sload]

theorem functionsOf_sload (count : Nat) :
    functionsOf (callOn "sload" ["a"]) count = functions count := rfl

end Family

/-- The counts after further loads were replaced. -/
def PassCounts.addForwarded (counts : PassCounts) (count : Nat) : PassCounts :=
  { counts with forwarded := counts.forwarded + count }

theorem PassCounts.addForwarded_addForwarded (counts : PassCounts) (m n : Nat) :
    (counts.addForwarded m).addForwarded n = counts.addForwarded (m + n) := by
  rw [addForwarded, addForwarded, addForwarded, Nat.add_assoc]

namespace Pass

open Analysis Family

variable {s : State PassCounts} {α : Type}

/-- The step comes to its end with the given node, and the pass replaces the given number of
loads. -/
structure Forwards (s : State PassCounts) (step : Step (State PassCounts) α) (node : α)
    (count : Nat) : Prop where
  done : step.error? = none
  node_eq : step.node = node
  hook_eq : step.state.hook = s.hook.addForwarded count

namespace Forwards

theorem of_done {step : Step (State PassCounts) α} {node : α} {state : State PassCounts} {n : Nat}
    (h : step = .done node state) (hhook : state.hook = s.hook.addForwarded n) :
    Forwards s step node n := by
  subst h
  exact ⟨rfl, rfl, hhook⟩

/-- The replaced loads of two steps add up. -/
theorem append {head : Step (State PassCounts) α} {tail : Step (State PassCounts) (List α)}
    {step : Step (State PassCounts) (List α)} {node : α} {nodes : List α} {m n : Nat}
    (h : Forwards s head node m) (htail : Forwards head.state tail nodes n)
    (hstep : step = .done (head.node :: tail.node) tail.state) :
    Forwards s step (node :: nodes) (m + n) := by
  rw [h.node_eq, htail.node_eq] at hstep
  refine .of_done hstep ?_
  rw [htail.hook_eq, h.hook_eq, PassCounts.addForwarded_addForwarded]

end Forwards

/-- With this hook, only the statements themselves can stop an analysis. -/
theorem error?_of_visited (stmt : Stmt) (h : firstFault? stmt.visited = none)
    (s : State PassCounts) :
    (analyseStmt .native loadForwarding.hook stmt s).error? = none :=
  (error?_analyseStmt (hook_total _) Context.rules_native stmt s).trans h

theorem Forwards.visited {block block' : Block} {n : Nat}
    (h : Forwards s (analyseBlock .native loadForwarding.hook block s) block' n) :
    firstFault? block.visited = none :=
  (error?_analyseBlock (hook_total _) Context.rules_native block s).symm.trans h.done

/-! ### Expressions -/

theorem analyseExpr_leaf {context : Context} {e : Expr} (hroot : e.root? = none)
    (s : State PassCounts) : analyseExpr context loadForwarding.hook e s = .done e s := by
  rw [analyseExpr_of_leaf hroot]
  refine callHook_of_not_replaced ?_
  cases e with
  | literal _ => rfl
  | identifier _ => rfl
  | call _ _ _ => cases hroot
  | instruction _ _ _ => cases hroot

theorem analyseExprs_leaves {context : Context} {es : List Expr}
    (hroots : ∀ e ∈ es, e.root? = none) (s : State PassCounts) :
    analyseExprs context loadForwarding.hook es s = .done es s := by
  induction es with
  | nil => rfl
  | cons e es ih =>
      obtain ⟨he, hes⟩ := List.forall_mem_cons.1 hroots
      rw [analyseExprs_hook_cons, analyseExpr_leaf he, Step.state_done, ih hes]
      rfl

/-- A call of another builtin than a load is not replaced. -/
theorem callHook_builtin (operator : Instruction) (hload : operator ≠ .sload) {es : List Expr}
    (harity : es.length = operator.arity) (s : State PassCounts) :
    callHook .native loadForwarding.hook (.callOf operator.mnemonic es) s =
      .done (.callOf operator.mnemonic es) s := by
  refine callHook_of_not_replaced ?_
  show forwarded? (s.view .native) _ = none
  unfold forwarded?
  have hoperation : (s.view .native).context.dialect.operation? (.callOf operator.mnemonic es) =
      some (operator, es) := Dialect.operation?_evm operator harity
  rw [hoperation]
  split
  next h =>
    cases h
    exact absurd rfl hload
  next => rfl

theorem analyseExpr_builtin (operator : Instruction) (hload : operator ≠ .sload)
    {es : List Expr} (harity : es.length = operator.arity) (hroots : ∀ e ∈ es, e.root? = none)
    (s : State PassCounts) :
    analyseExpr .native loadForwarding.hook (.callOf operator.mnemonic es) s =
      .done (.callOf operator.mnemonic es) s := by
  have hroot : (Expr.callOf operator.mnemonic es).root? = some (.call operator.mnemonic) := rfl
  rw [analyseExpr_hook hroot, show (Expr.callOf operator.mnemonic es).arguments = es from rfl,
    analyseExprs_leaves hroots]
  exact callHook_builtin operator hload harity s

/-- A load of a slot at which a visible variable is known to be stored is replaced by it. -/
theorem analyseExpr_sload {slot value : Name} (hstored : s.knowledge.storedAt? slot = some value)
    (hvisible : Sees s.scopes value) :
    analyseExpr .native loadForwarding.hook (callOn "sload" [slot]) s =
      .done (.ofName value) { s with hook := s.hook.addForwarded 1 } := by
  have hroot : (callOn "sload" [slot]).root? = some (.call "sload") := rfl
  rw [analyseExpr_hook hroot, show (callOn "sload" [slot]).arguments = [.ofName slot] from rfl,
    analyseExprs_leaves (by simp [Expr.ofName, Expr.root?])]
  refine callHook_of_replacement ?_
  show forwarded? (s.view .native) (.callOf Instruction.sload.mnemonic [.ofName slot]) = _
  have hoperation : (s.view .native).context.dialect.operation?
      (.callOf Instruction.sload.mnemonic [.ofName slot]) = some (.sload, [.ofName slot]) :=
    Dialect.operation?_evm .sload rfl
  have hfilter : ((s.view .native).knowledge.storedAt? slot).filter (s.view .native).isVisible =
      some value := Option.filter_eq_some_iff.2 ⟨hstored, hvisible⟩
  unfold forwarded?
  rw [hoperation]
  exact congrArg (Option.map _) hfilter

/-- A sum of a replaced load and a variable. -/
theorem analyseExpr_add {e e' : Expr} {other : Name} {state : PassCounts}
    (he : analyseExpr .native loadForwarding.hook e s = .done e' { s with hook := state }) :
    analyseExpr .native loadForwarding.hook (.callOf "add" [e, .ofName other]) s =
      .done (.callOf "add" [e', .ofName other]) { s with hook := state } := by
  have hroot : (Expr.callOf "add" [e, .ofName other]).root? = some (.call "add") := rfl
  have hother : analyseExpr .native loadForwarding.hook (.ofName other) { s with hook := state } =
      .done (.ofName other) { s with hook := state } := analyseExpr_leaf rfl _
  rw [analyseExpr_hook hroot]
  show callHook .native loadForwarding.hook
    (.withArguments _ (analyseExprs .native loadForwarding.hook [e, .ofName other] s).node)
    (analyseExprs .native loadForwarding.hook [e, .ofName other] s).state = _
  rw [analyseExprs_hook_cons, he, Step.node_done, Step.state_done, analyseExprs_hook_cons, hother]
  exact callHook_builtin .add (by decide) rfl _

/-! ### Statements -/

/-- The statements are analysed one after another. -/
theorem Forwards.cons {stmt stmt' : Stmt} {stmts stmts' : List Stmt} {m n : Nat}
    (h : Forwards s (analyseStmt .native loadForwarding.hook stmt s) stmt' m)
    (hrest : Forwards (analyseStmt .native loadForwarding.hook stmt s).state
      (analyseStmts .native loadForwarding.hook stmts
        (analyseStmt .native loadForwarding.hook stmt s).state) stmts' n) :
    Forwards s (analyseStmts .native loadForwarding.hook (stmt :: stmts) s) (stmt' :: stmts')
      (m + n) := by
  have hdone : (analyseStmts .native loadForwarding.hook (stmt :: stmts) s).error? = none :=
    Step.error?_andThen h.done hrest.done
  obtain ⟨_, _, heq⟩ := analyseStmts_cons hdone
  exact h.append hrest heq

theorem Forwards.nil : Forwards s (analyseStmts .native loadForwarding.hook [] s) [] 0 :=
  ⟨rfl, rfl, rfl⟩

/-- A block adds a scope that hides nothing. -/
theorem Forwards.block {stmts stmts' : List Stmt} {n : Nat}
    (h : Forwards (s.openScope false)
      (analyseStmts .native loadForwarding.hook stmts (s.openScope false)) stmts' n) :
    Forwards s (analyseBlock .native loadForwarding.hook (.ofStatements stmts) s)
      (.ofStatements stmts') n := by
  refine ⟨h.done, congrArg (Block.mk · .synthetic) h.node_eq, ?_⟩
  exact (hook_closeScope _).trans h.hook_eq

theorem Forwards.assign {targets : List Name} {e e' : Expr} {n : Nat}
    (hquiet : ¬ Context.native.dialect.Changes e.operations)
    (h : Forwards s (analyseExpr .native loadForwarding.hook e s) e' n) :
    Forwards s (analyseStmt .native loadForwarding.hook (.assignTo targets e) s)
      (.assignTo targets e') n := by
  have hdone : (analyseStmt .native loadForwarding.hook (.assignTo targets e) s).error? = none :=
    error?_of_visited _ rfl s
  obtain ⟨_, heq⟩ := analyseStmt_assign hdone
  rw [evaluate_of_not_changes hquiet, h.node_eq] at heq
  exact .of_done heq h.hook_eq

/-- The declaration of an input word. -/
theorem forwards_declareOne (name : Name) (offset : Nat) (s : State PassCounts) :
    let step := analyseStmt .native loadForwarding.hook (declareOne name (inputWord offset)) s
    Forwards s step (declareOne name (inputWord offset)) 0 ∧
      step.state.scopes = addNames [name] s.scopes := by
  intro step
  have hdone : step.error? = none := error?_of_visited _ rfl s
  have hquiet : ¬ Context.native.dialect.Changes (inputWord offset).operations :=
    Dialect.not_changes_evm [.calldataload] (by decide)
  have hword : analyseExpr .native loadForwarding.hook (inputWord offset) (s.declare [name]) =
      .done (inputWord offset) (s.declare [name]) :=
    analyseExpr_builtin .calldataload (by decide) rfl (by simp [Expr.number, Expr.root?]) _
  have heq : step =
      let value := evaluate .native loadForwarding.hook (inputWord offset) (s.declare [name])
      .done (declareOne name value.node) (value.state.assign .native [name] value.node) :=
    (analyseStmt_declare hdone).2
  rw [evaluate_of_not_changes hquiet, hword] at heq
  rw [heq]
  exact ⟨⟨rfl, rfl, hook_declare [name] s⟩, State.scopes_declare [name]⟩

/-- A store, and behind it the assignment of a value that loads from the same slot. -/
theorem forwards_storeAssign {slot value target : Name} {e e' : Expr}
    (hvisible : Sees s.scopes value)
    (hquiet : ¬ Context.native.dialect.Changes e.operations)
    (he : ∀ {s : State PassCounts}, s.knowledge.storedAt? slot = some value →
      Sees s.scopes value → Forwards s (analyseExpr .native loadForwarding.hook e s) e' 1) :
    Forwards s
      (analyseStmts .native loadForwarding.hook
        [.eval (callOn "sstore" [slot, value]), .assignTo [target] e] s)
      [.eval (callOn "sstore" [slot, value]), .assignTo [target] e'] 1 := by
  let store := Stmt.eval (callOn "sstore" [slot, value])
  have hdone : (analyseStmt .native loadForwarding.hook store s).error? = none :=
    error?_of_visited _ rfl s
  have hcall : analyseExpr .native loadForwarding.hook (callOn "sstore" [slot, value]) s =
      .done (callOn "sstore" [slot, value]) s :=
    analyseExpr_builtin .sstore (by decide) rfl (by simp [Expr.ofName, Expr.root?]) s
  obtain ⟨k, hk, heq⟩ : ∃ k,
      s.knowledge.store (Context.native.simplifier s.knowledge) slot value = .ok k ∧
      analyseStmt .native loadForwarding.hook store s = .done store { s with knowledge := k } := by
    obtain ⟨_, k, hk, heq⟩ :=
      analyseStmt_trackedStore (Context.trackedStore?_native slot value) hdone
    rw [hcall] at heq
    exact ⟨k, hk, heq⟩
  have hstored : k.storedAt? slot = some value :=
    (Knowledge.storedAt?_store_eq_some hk).2 (.inl ⟨rfl, rfl⟩)
  have hstore : Forwards s (analyseStmt .native loadForwarding.hook store s) store 0 :=
    .of_done heq rfl
  have hassign : Forwards (analyseStmt .native loadForwarding.hook store s).state
      (analyseStmt .native loadForwarding.hook (.assignTo [target] e)
        (analyseStmt .native loadForwarding.hook store s).state) (.assignTo [target] e') 1 := by
    rw [heq]
    exact .assign hquiet (he hstored hvisible)
  exact hstore.cons (hassign.cons .nil)

/-! ### Branches and loops -/

section Nest

variable {inner inner' : Block} {n : Nat} {name : Name}

theorem evaluate_ofName (name : Name) (s : State PassCounts) :
    evaluate .native loadForwarding.hook (.ofName name) s = .done (.ofName name) s := by
  have hquiet : ¬ Context.native.dialect.Changes (Expr.ofName name).operations :=
    Dialect.not_changes_evm [] nofun
  rw [evaluate_of_not_changes hquiet, analyseExpr_leaf rfl]

theorem Forwards.when (h : Forwards s (analyseBlock .native loadForwarding.hook inner s) inner' n) :
    Forwards s (analyseStmt .native loadForwarding.hook (.when (.ofName name) inner) s)
      (.when (.ofName name) inner') n := by
  obtain ⟨_, _, heq⟩ := analyseStmt_ifThen (error?_of_visited (.when (.ofName name) inner) h.visited s)
  rw [evaluate_ofName, Step.node_done, Step.state_done, h.node_eq] at heq
  exact .of_done heq h.hook_eq

/-- A case joins and clears only what is known. -/
theorem Forwards.case {value? : Option Literal}
    (h : Forwards s (analyseBlock .native loadForwarding.hook inner s) inner' n) :
    Forwards s (analyseCase .native loadForwarding.hook ⟨value?, inner, .synthetic⟩ s)
      ⟨value?, inner', .synthetic⟩ n := by
  have hdone : (analyseCase .native loadForwarding.hook ⟨value?, inner, .synthetic⟩ s).error? =
      none := Step.error?_andThen h.done rfl
  obtain ⟨_, heq⟩ := analyseCase_mk hdone
  rw [h.node_eq] at heq
  exact .of_done heq ((hook_forgetStorageIf _).trans h.hook_eq)

theorem Forwards.consCase {case case' : Case} {cases cases' : List Case} {m n : Nat}
    (h : Forwards s (analyseCase .native loadForwarding.hook case s) case' m)
    (hrest : Forwards (analyseCase .native loadForwarding.hook case s).state
      (analyseCases .native loadForwarding.hook cases
        (analyseCase .native loadForwarding.hook case s).state) cases' n) :
    Forwards s (analyseCases .native loadForwarding.hook (case :: cases) s) (case' :: cases')
      (m + n) := by
  have hdone : (analyseCases .native loadForwarding.hook (case :: cases) s).error? = none :=
    Step.error?_andThen h.done hrest.done
  obtain ⟨_, _, heq⟩ := analyseCases_cons hdone
  exact h.append hrest heq

theorem Forwards.nilCase : Forwards s (analyseCases .native loadForwarding.hook [] s) [] 0 :=
  ⟨rfl, rfl, rfl⟩

theorem Forwards.switchOn {cases cases' : List Case}
    (h : Forwards s (analyseCases .native loadForwarding.hook cases s) cases' n) :
    Forwards s (analyseStmt .native loadForwarding.hook (.switchOn (.ofName name) cases) s)
      (.switchOn (.ofName name) cases') n := by
  have hvisited : firstFault? (Case.visitedAll cases) = none :=
    (error?_analyseCases (hook_total _) Context.rules_native cases s).symm.trans h.done
  obtain ⟨_, _, heq⟩ :=
    analyseStmt_switch (error?_of_visited (.switchOn (.ofName name) cases) hvisited s)
  rw [evaluate_ofName, Step.node_done, Step.state_done, h.node_eq] at heq
  exact .of_done heq ((hook_forgetStorageIf _).trans h.hook_eq)

theorem Forwards.loop
    (h : let head := loopHead .native (.ofName name) .empty inner s
      Forwards head (analyseBlock .native loadForwarding.hook inner head) inner' n) :
    Forwards s (analyseStmt .native loadForwarding.hook (.loop (.ofName name) .empty inner) s)
      (.loop (.ofName name) .empty inner') n := by
  have hvisited : firstFault? (Stmt.loop (.ofName name) .empty inner).visited = none := by
    show firstFault? (inner.visited ++ []) = none
    rw [List.append_nil, h.visited]
  have hpost (s : State PassCounts) :
      Forwards s (analyseBlock .native loadForwarding.hook .empty s) .empty 0 := .block .nil
  obtain ⟨_, _, _, _, heq⟩ := analyseStmt_forLoop (error?_of_visited _ hvisited s)
  rw [analyseExpr_leaf rfl, Step.node_done, Step.state_done, h.node_eq, (hpost _).node_eq] at heq
  refine .of_done heq ((hook_forgetStorageIf _).trans ((hpost _).hook_eq.trans ?_))
  exact (hook_postHead _ _ _).trans (h.hook_eq.trans (by rw [hook_loopHead]))

/-- Each level keeps what a pass makes of the body, if that depends on a visible variable only. -/
theorem forwards_nest {body body' : List Stmt} {value : Name}
    (h : ∀ {s : State PassCounts}, Sees s.scopes value →
      Forwards s (analyseStmts .native loadForwarding.hook body s) body' n)
    (level : Nat) (hvisible : Sees s.scopes value) :
    Forwards s (analyseStmt .native loadForwarding.hook (nest level body) s) (nest level body')
      n := by
  have hblock {s : State PassCounts} (hvisible : Sees s.scopes value) :
      Forwards s (analyseBlock .native loadForwarding.hook (.ofStatements body) s)
        (.ofStatements body') n := .block (h (sees_cons.2 (.inr ⟨rfl, hvisible⟩)))
  unfold nest
  -- A branch, a switch or a loop, as the level asks for.
  split
  next => exact (hblock hvisible).when
  next =>
    have hskip (s : State PassCounts) : Forwards s
        (analyseBlock .native loadForwarding.hook (.ofStatements [.continueLoop .synthetic]) s)
        (.ofStatements [.continueLoop .synthetic]) 0 := .block (.cons ⟨rfl, rfl, rfl⟩ .nil)
    exact ((hblock hvisible).case.consCase ((hskip _).case.consCase .nilCase)).switchOn
  next =>
    -- The head of a loop forgets what is stored, but no scope.
    refine Forwards.loop (hblock ?_)
    rw [loopHead, State.scopes_forgetStorageIf]
    exact hvisible

end Nest

/-! ### The families -/

theorem analyseExpr_sload_forwards {slot value : Name}
    (hstored : s.knowledge.storedAt? slot = some value) (hvisible : Sees s.scopes value) :
    Forwards s (analyseExpr .native loadForwarding.hook (callOn "sload" [slot]) s)
      (.ofName value) 1 := by
  rw [analyseExpr_sload hstored hvisible]
  exact ⟨rfl, rfl, rfl⟩

theorem forwards_nestedBody (depth : Nat) (hvisible : Sees s.scopes "y") :
    Forwards s (analyseStmts .native loadForwarding.hook
      (nestedBodyOf (callOn "sload" ["x"]) depth) s) (nestedBodyOf (.ofName "y") depth) 1 := by
  induction depth generalizing s with
  | zero =>
      exact forwards_storeAssign hvisible
        (Dialect.not_changes_evm [.sload] (by decide)) analyseExpr_sload_forwards
  | succ depth ih => exact (forwards_nest ih depth hvisible).cons .nil

/-- The analysis of nested branches and loops around a load. -/
theorem forwards_nested (depth : Nat) (s : State PassCounts) :
    Forwards s (analyseBlock .native loadForwarding.hook (nestedOf (callOn "sload" ["x"]) depth) s)
      (nestedOf (.ofName "y") depth) 1 := by
  let behind (name : Name) (offset : Nat) (s : State PassCounts) : State PassCounts :=
    (analyseStmt .native loadForwarding.hook (declareOne name (inputWord offset)) s).state
  let sx := behind "x" 0 (s.openScope false)
  let sy := behind "y" 32 sx
  let sc := behind "cond" 64 sy
  obtain ⟨hx, hxs⟩ := forwards_declareOne "x" 0 (s.openScope false)
  obtain ⟨hy, hys⟩ := forwards_declareOne "y" 32 sx
  obtain ⟨hcond, hconds⟩ := forwards_declareOne "cond" 64 sy
  have hvisible : Sees sc.scopes "y" := by
    have hscopes : sx.scopes ≠ [] := hxs ▸ List.cons_ne_nil _ _
    refine hconds ▸ Sees.addNames ?_ ["cond"]
    exact hys ▸ (sees_addNames hscopes).2 (.inl (List.mem_singleton_self "y"))
  let loop (loaded : Expr) : Stmt :=
    .loop (.ofName "cond") .empty (.ofStatements (nestedBodyOf loaded depth))
  have hloop : Forwards sc
      (analyseStmt .native loadForwarding.hook (loop (callOn "sload" ["x"])) sc)
      (loop (.ofName "y")) 1 := by
    refine .loop (.block (forwards_nestedBody depth (sees_cons.2 (.inr ⟨rfl, ?_⟩))))
    rw [loopHead, State.scopes_forgetStorageIf]
    exact hvisible
  exact .block (hx.cons (hy.cons (hcond.cons (hloop.cons .nil))))

/-- A function leaves nothing behind but the state of the pass. -/
theorem Forwards.define {function : Name} {parameters results : List Name} {body body' : Block}
    {n : Nat}
    (h : let inner := s.enterFunction parameters results
      Forwards inner (analyseBlock .native loadForwarding.hook body inner) body' n) :
    Forwards s
      (analyseStmt .native loadForwarding.hook (.define function parameters results body) s)
      (.define function parameters results body') n := by
  have hnames (names : List Name) : (names.map Binder.ofName).map Binder.name = names := by
    rw [List.map_map]
    exact List.map_id _
  obtain ⟨_, heq⟩ := analyseStmt_function
    (error?_of_visited (.define function parameters results body) h.visited s)
  rw [hnames, hnames, h.node_eq] at heq
  exact .of_done heq ((hook_closeScope _).trans (h.hook_eq.trans (by rw [hook_enterFunction])))

/-- The analysis of one function. -/
theorem forwards_storingFunction (i : Nat) (s : State PassCounts) :
    Forwards s (analyseStmt .native loadForwarding.hook
      (storingFunctionOf (callOn "sload" ["a"]) i) s) (storingFunctionOf (.ofName "b") i) 1 := by
  refine .define (.block (forwards_storeAssign (sees_cons.2 (.inr ⟨rfl, ?_⟩))
    (Dialect.not_changes_evm [.sload, .add] (by decide)) fun hstored hvisible => ?_))
  · rw [State.scopes_enterFunction]
    exact (sees_addNames (List.cons_ne_nil _ _)).2 (.inl (by decide))
  · rw [analyseExpr_add (analyseExpr_sload hstored hvisible)]
    exact ⟨rfl, rfl, rfl⟩

theorem forwards_functions (functions : List Nat) (s : State PassCounts) :
    Forwards s (analyseStmts .native loadForwarding.hook
      (functions.map (storingFunctionOf (callOn "sload" ["a"]))) s)
      (functions.map (storingFunctionOf (.ofName "b"))) functions.length := by
  induction functions generalizing s with
  | nil => exact .nil
  | cons i functions ih =>
      rw [List.length_cons, Nat.add_comm]
      exact (forwards_storingFunction i s).cons (ih _)

/-- What a whole run of the pass makes of a program. -/
theorem run_of_forwards {program program' : Block} {counts : PassCounts} {n : Nat}
    (h : Forwards (.initial counts)
      (analyseBlock .native loadForwarding.hook program (.initial counts)) program' n) :
    run BuiltinTable.evm.toDialect [loadForwarding] program counts =
      .done program' (counts.addForwarded n) := by
  rw [run, hookOf_singleton, run_eq_analyseBlock Knowledge.coherent_empty]
  obtain ⟨hdone, hnode, hhook⟩ := h
  show Step.mk _ _ _ = Step.mk _ _ _
  rw [hdone, hnode, hhook]
  rfl

/-- Load forwarding resolves every load of the families, and changes nothing else. -/
theorem forwarding_resolves_families (counts : PassCounts) :
    (∀ depth, nested depth = nestedOf (callOn "sload" ["x"]) depth ∧
      run BuiltinTable.evm.toDialect [loadForwarding] (nested depth) counts =
        .done (nestedOf (.ofName "y") depth)
          { counts with forwarded := counts.forwarded + 1 }) ∧
    ∀ count, functions count = functionsOf (callOn "sload" ["a"]) count ∧
      run BuiltinTable.evm.toDialect [loadForwarding] (functions count) counts =
        .done (functionsOf (.ofName "b") count)
          { counts with forwarded := counts.forwarded + count } := by
  refine ⟨fun depth => ⟨(nestedOf_sload depth).symm, ?_⟩,
    fun count => ⟨(functionsOf_sload count).symm, ?_⟩⟩
  · rw [← nestedOf_sload]
    exact run_of_forwards (forwards_nested depth _)
  · have hfunctions :=
      forwards_functions (List.range count) ((State.initial counts).openScope false)
    rw [List.length_range] at hfunctions
    exact run_of_forwards hfunctions.block

end Pass

end StorageFlow
