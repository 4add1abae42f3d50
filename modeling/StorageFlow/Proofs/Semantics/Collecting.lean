import StorageFlow.Proofs.Semantics.Exec

/-!
# StorageFlow.Proofs.Semantics.Collecting

In which states the expressions of a program are evaluated.

* `States` — the variables and machines at one point of a program, over all runs, with what calls
  do there.
* `States.after`, `States.behind`, `States.entered` — the states behind expressions and statements
  and at the start of blocks.
* `States.AtHead` — the states at the head of a loop, in any round.
* `Site`, `Block.sites` — all expressions in a program, in the order in which an analysis passes
  them, each with the states in which it is evaluated.

An operation is reached when its evaluation starts, and once more when its arguments are evaluated
and it is about to act.
-/

namespace StorageFlow

variable {dialect : Dialect} {W : Type}

/-- What calls do, the variables and the machine at one point of a program, in any of its runs. -/
abbrev States (W : Type) := Calls W → Env → Machine W → Prop

namespace States

/-- The states behind the evaluation of an expression to a word that satisfies `p`. -/
def after (M : Model dialect W) (reached : States W) (e : Expr) (p : Word → Prop) : States W :=
  fun calls env m' => ∃ m word, reached calls env m ∧ p word ∧
    e.eval M calls env m = .done [word] m'

/-- The states behind the evaluation of arguments. -/
def afterAll (M : Model dialect W) (reached : States W) (es : List Expr) : States W :=
  fun calls env m' => ∃ m words, reached calls env m ∧
    Expr.evalAll M calls env es m = .done words m'

/-- The states behind a statement that control goes on from. -/
def behind (M : Model dialect W) (reached : States W) (stmt : Stmt) : States W :=
  fun calls env' m' => ∃ env m, reached calls env m ∧
    stmt.exec M calls env m = .done (.next, env') m'

/-- The states behind the body of a loop, at its end or at a `continue` in it. -/
def behindBody (M : Model dialect W) (reached : States W) (body : Block) : States W :=
  fun calls env' m' => ∃ env m flow, reached calls env m ∧ flow ≠ .breaks ∧
    body.exec M calls env m = .done (flow, env') m'

/-- The states at the start of a block that defines functions. -/
def entered (M : Model dialect W) (reached : States W) (stmts : List Stmt) : States W :=
  fun calls env m => ∃ outer, reached outer env m ∧
    calls = M.link (Stmt.meaningsAll M stmts) outer

/-- The states at the head of a loop: those in front of it, and those behind each round that does
not leave it. -/
inductive AtHead (M : Model dialect W) (reached : States W) (condition : Expr)
    (post body : Block) : States W
  | start {calls env m} : reached calls env m → AtHead M reached condition post body calls env m
  | again {calls env env₁ env₂ m m₁ m₂ m₃ word flow flow'} :
      AtHead M reached condition post body calls env m →
      condition.eval M calls env m = .done [word] m₁ → word ≠ 0 →
      body.exec M calls env m₁ = .done (flow, env₁) m₂ → flow ≠ .breaks →
      post.exec M calls env₁ m₂ = .done (flow', env₂) m₃ → flow' ≠ .breaks →
      AtHead M reached condition post body calls env₂ m₃

/-- The states at the start of a program: no variable is bound. -/
def atStart : States W :=
  fun _ env _ => env = .empty

/-- The states at the start of a function body, for all arguments and machines, whatever calls
do. -/
def atEntry (parameters results : List Name) : States W :=
  fun _ env _ => ∃ words, words.length = parameters.length ∧
    env = Env.atEntry parameters results words

end States

/-- An expression in a program, with the states in which it is evaluated. -/
structure Site (W : Type) where
  node : Expr
  reached : States W

namespace Expr

/-- The operation is reached when its evaluation starts and when its arguments are evaluated. -/
def operationSite (M : Model dialect W) (e : Expr) (reached : States W) : Site W where
  node := e
  reached calls env m := reached calls env m ∨ reached.afterAll M e.arguments calls env m

mutual

/-- The expressions in an expression that is evaluated in the given states. -/
def sites (M : Model dialect W) : Expr → States W → List (Site W)
  | .literal value, reached => [⟨.literal value, reached⟩]
  | .identifier x, reached => [⟨.identifier x, reached⟩]
  | .call callee arguments span, reached =>
      sitesAll M arguments reached ++ [operationSite M (.call callee arguments span) reached]
  | .instruction operator arguments span, reached =>
      sitesAll M arguments reached ++
        [operationSite M (.instruction operator arguments span) reached]

/-- The expressions in arguments, which are evaluated in the order of the model. -/
def sitesAll (M : Model dialect W) : List Expr → States W → List (Site W)
  | [], _ => []
  | e :: es, reached =>
    if M.leftToRight then sites M e reached ++ sitesAll M es (reached.after M e fun _ => True)
    else sites M e (reached.afterAll M es) ++ sitesAll M es reached

end

end Expr

mutual

/-- The expressions in a statement that is run in the given states. -/
def Stmt.sites (M : Model dialect W) : Stmt → States W → List (Site W)
  | .expression e _, reached => e.sites M reached
  | .assign _ none _, _ => []
  | .assign _ (some e) _, reached => e.sites M reached
  | .declare _ none _, _ => []
  | .declare _ (some e) _, reached => e.sites M reached
  | .ifThen condition body _, reached =>
      condition.sites M reached ++ body.sites M (reached.after M condition (· ≠ 0))
  | .switch scrutinee cases _, reached =>
      scrutinee.sites M reached ++
        Case.sitesAll M cases fun n => reached.after M scrutinee fun word =>
          M.selected? word (cases.map Case.value?) = some n
  | .forLoop _ condition post body _, reached =>
      let head := reached.AtHead M condition post body
      let inside := head.after M condition (· ≠ 0)
      condition.sites M head ++ (body.sites M inside ++ post.sites M (inside.behindBody M body))
  | .function _ parameters results body _, _ =>
      body.sites M (.atEntry (parameters.map Binder.name) (results.map Binder.name))
  | .breakLoop _, _ => []
  | .continueLoop _, _ => []
  | .block body, reached => body.sites M reached

/-- The expressions in statements that are run one after another. -/
def Stmt.sitesAll (M : Model dialect W) : List Stmt → States W → List (Site W)
  | [], _ => []
  | stmt :: stmts, reached =>
      stmt.sites M reached ++ Stmt.sitesAll M stmts (reached.behind M stmt)

/-- The expressions in the bodies of cases, each of which is run in states of its own. -/
def Case.sitesAll (M : Model dialect W) : List Case → (Nat → States W) → List (Site W)
  | [], _ => []
  | ⟨_, body, _⟩ :: cases, reached =>
      body.sites M (reached 0) ++ Case.sitesAll M cases fun n => reached (n + 1)

/-- The expressions in a block that is run in the given states. -/
def Block.sites (M : Model dialect W) : Block → States W → List (Site W)
  | ⟨stmts, _⟩, reached => Stmt.sitesAll M stmts (reached.entered M stmts)

end

end StorageFlow
