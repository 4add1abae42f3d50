import StorageFlow.Proofs.Semantics.Model

/-!
# StorageFlow.Proofs.Semantics.Exec

Running programs.

* `Expr.eval` — the words of an expression; `Expr.valueIn` — its word if only movable operations
  are evaluated, without running anything.
* `Stmt.exec`, `Block.exec` — running statements; the result tells how control leaves them.
* `iterate` — the rounds of a loop.
* `Block.run`, `Block.functions` — whole programs, and all functions of a program.

Functions are meanings of the block that defines them: `Model.link` decides what calls to them do.
A `break` or a `continue` in the post block of a loop belongs to that loop.
-/

namespace StorageFlow

variable {dialect : Dialect} {W : Type}

/-! ### Expressions -/

mutual

/-- Evaluates an expression to its words. -/
def Expr.eval (M : Model dialect W) (calls : Calls W) (env : Env) :
    Expr → Machine W → Outcome W (List Word)
  | .literal value, m => .done [M.literal value.kind value.text] m
  | .identifier x, m =>
    match env x.name with
    | some word => .done [word] m
    | none => .stuck
  | .call callee arguments _, m =>
      (Expr.evalAll M calls env arguments m).andThen (M.apply calls (.call callee.name))
  | .instruction operator arguments _, m =>
      (Expr.evalAll M calls env arguments m).andThen (M.apply calls (.instruction operator))

/-- Evaluates arguments to one word each, in the order of the model. -/
def Expr.evalAll (M : Model dialect W) (calls : Calls W) (env : Env) :
    List Expr → Machine W → Outcome W (List Word)
  | [], m => .done [] m
  | e :: es, m =>
    if M.leftToRight then
      (Expr.eval M calls env e m).single fun word m =>
        (Expr.evalAll M calls env es m).andThen fun words m => .done (word :: words) m
    else
      (Expr.evalAll M calls env es m).andThen fun words m =>
        (Expr.eval M calls env e m).single fun word m => .done (word :: words) m

end

/-- The only word of a result. -/
def onlyWord? : List Word → Option Word
  | [word] => some word
  | _ => none

mutual

/-- The word of an expression, by the results of its operations as if all were movable. -/
def Expr.valueIn (M : Model dialect W) (env : Env) : Expr → Option Word
  | .literal value => some (M.literal value.kind value.text)
  | .identifier x => env x.name
  | .call callee arguments _ =>
      (Expr.valuesIn M env arguments).bind fun words =>
        onlyWord? (M.result (.call callee.name) words)
  | .instruction operator arguments _ =>
      (Expr.valuesIn M env arguments).bind fun words =>
        onlyWord? (M.result (.instruction operator) words)

/-- The words of arguments. -/
def Expr.valuesIn (M : Model dialect W) (env : Env) : List Expr → Option (List Word)
  | [] => some []
  | e :: es =>
      (Expr.valueIn M env e).bind fun word =>
        (Expr.valuesIn M env es).map (word :: ·)

end

/-! ### Statements -/

/-- How control leaves a statement. -/
inductive Flow
  | next
  | breaks
  | continues
  deriving DecidableEq

/-- Assigns words to bound variables. -/
def Env.assign? (env : Env) (names : List Name) (words : List Word) : Option Env :=
  if words.length = names.length ∧ names.all (fun x => (env x).isSome) then
    some (env.bindAll names words)
  else none

/-- The variables at the start of a function body: results start at zero. -/
def Env.atEntry (parameters results : List Name) (words : List Word) : Env :=
  (Env.empty.bindAll parameters words).bindZeros results

/-- The rounds of a loop: the condition, then the body, then the post block. -/
def iterate (condition : Env → Machine W → Outcome W (List Word))
    (body post : Env → Machine W → Outcome W (Flow × Env)) :
    Nat → Env → Machine W → Outcome W (Flow × Env)
  | 0, _, _ => .exhausted
  | rounds + 1, env, m =>
      (condition env m).single fun word m =>
        if word = 0 then .done (.next, env) m
        else
          (body env m).andThen fun result m =>
            if result.1 = .breaks then .done (.next, result.2) m
            else
              (post result.2 m).andThen fun result m =>
                if result.1 = .breaks then .done (.next, result.2) m
                else iterate condition body post rounds result.2 m

/-- What a function does, given its body. -/
def meaningOf (parameters results : List Name)
    (body : Calls W → Env → Machine W → Outcome W (Flow × Env)) : Meaning W :=
  fun calls words m =>
    if words.length = parameters.length then
      (body calls (Env.atEntry parameters results words) m).andThen fun result m =>
        match results.mapM result.2 with
        | some words => .done words m
        | none => .stuck
    else .stuck

/-- The case that a word selects: the first one of its value, or else the first default case. -/
def Model.selected? (M : Model dialect W) (word : Word) (values : List (Option Literal)) :
    Option Nat :=
  (values.findIdx? fun value? => value?.any fun value => M.literal value.kind value.text = word).or
    (values.findIdx? Option.isNone)

mutual

/-- Runs a statement. -/
def Stmt.exec (M : Model dialect W) (calls : Calls W) :
    Stmt → Env → Machine W → Outcome W (Flow × Env)
  | .expression e _, env, m => (e.eval M calls env m).andThen fun _ m => .done (.next, env) m
  | .assign _ none _, _, _ => .stuck
  | .assign targets (some e) _, env, m =>
      (e.eval M calls env m).andThen fun words m =>
        match env.assign? (targetNames targets) words with
        | some env => .done (.next, env) m
        | none => .stuck
  | .declare declared none _, env, m =>
      .done (.next, env.bindZeros (declared.map Binder.name)) m
  | .declare declared (some e) _, env, m =>
      (e.eval M calls env m).andThen fun words m =>
        if words.length = (declared.map Binder.name).length then
          .done (.next, env.bindAll (declared.map Binder.name) words) m
        else .stuck
  | .ifThen condition body _, env, m =>
      (condition.eval M calls env m).single fun word m =>
        if word = 0 then .done (.next, env) m else body.exec M calls env m
  | .switch scrutinee cases _, env, m =>
      (scrutinee.eval M calls env m).single fun word m =>
        match M.selected? word (cases.map Case.value?) with
        | some n => Case.execNth M calls cases n env m
        | none => .done (.next, env) m
  | .forLoop initial condition post body _, env, m =>
      if initial.isEmpty then
        iterate (fun env m => condition.eval M calls env m) (body.exec M calls)
          (post.exec M calls) M.rounds env m
      else .stuck
  | .function _ _ _ _ _, env, m => .done (.next, env) m
  | .breakLoop _, env, m => .done (.breaks, env) m
  | .continueLoop _, env, m => .done (.continues, env) m
  | .block body, env, m => body.exec M calls env m

/-- Runs statements one after another. -/
def Stmt.execAll (M : Model dialect W) (calls : Calls W) :
    List Stmt → Env → Machine W → Outcome W (Flow × Env)
  | [], env, m => .done (.next, env) m
  | stmt :: stmts, env, m =>
      (stmt.exec M calls env m).andThen fun result m =>
        if result.1 = .next then Stmt.execAll M calls stmts result.2 m else .done result m

/-- Runs the body of one of the cases. -/
def Case.execNth (M : Model dialect W) (calls : Calls W) :
    List Case → Nat → Env → Machine W → Outcome W (Flow × Env)
  | [], _, env, m => .done (.next, env) m
  | ⟨_, body, _⟩ :: _, 0, env, m => body.exec M calls env m
  | _ :: cases, n + 1, env, m => Case.execNth M calls cases n env m

/-- The function that a statement defines, if it does. -/
def Stmt.meanings (M : Model dialect W) : Stmt → List (Name × Meaning W)
  | .function name parameters results body _ =>
      [(name, meaningOf (parameters.map Binder.name) (results.map Binder.name)
        fun calls => body.exec M calls)]
  | _ => []

/-- The functions that the statements of a block define. -/
def Stmt.meaningsAll (M : Model dialect W) : List Stmt → List (Name × Meaning W)
  | [] => []
  | stmt :: stmts => stmt.meanings M ++ Stmt.meaningsAll M stmts

/-- Runs a block. Its functions can be called everywhere in it, and its variables end with it. -/
def Block.exec (M : Model dialect W) (calls : Calls W) :
    Block → Env → Machine W → Outcome W (Flow × Env)
  | ⟨stmts, _⟩, env, m =>
      (Stmt.execAll M (M.link (Stmt.meaningsAll M stmts) calls) stmts env m).andThen
        fun result m => .done (result.1, result.2.leave (Stmt.declaredAll stmts) env) m

end

/-! ### Programs -/

/-- Runs a program: no variable is bound at its start. -/
def Block.run (M : Model dialect W) (calls : Calls W) (program : Block) (m : Machine W) :
    Outcome W Unit :=
  (program.exec M calls .empty m).andThen fun _ m => .done () m

mutual

/-- All functions that are defined in a statement, at any depth. -/
def Stmt.functions (M : Model dialect W) : Stmt → List (Name × Meaning W)
  | .function name parameters results body _ =>
      (name, meaningOf (parameters.map Binder.name) (results.map Binder.name)
        fun calls => body.exec M calls) :: body.functions M
  | .ifThen _ body _ => body.functions M
  | .switch _ cases _ => Case.functionsAll M cases
  | .forLoop initial _ post body _ => initial.functions M ++ body.functions M ++ post.functions M
  | .block body => body.functions M
  | .expression _ _ => []
  | .assign _ _ _ => []
  | .declare _ _ _ => []
  | .breakLoop _ => []
  | .continueLoop _ => []

/-- All functions that are defined in a list of statements. -/
def Stmt.functionsAll (M : Model dialect W) : List Stmt → List (Name × Meaning W)
  | [] => []
  | stmt :: stmts => stmt.functions M ++ Stmt.functionsAll M stmts

/-- All functions that are defined in the bodies of cases. -/
def Case.functionsAll (M : Model dialect W) : List Case → List (Name × Meaning W)
  | [] => []
  | ⟨_, body, _⟩ :: cases => body.functions M ++ Case.functionsAll M cases

/-- All functions that are defined in a block, at any depth, each with its meaning. -/
def Block.functions (M : Model dialect W) : Block → List (Name × Meaning W)
  | ⟨stmts, _⟩ => Stmt.functionsAll M stmts

end

end StorageFlow
