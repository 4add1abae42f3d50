import StorageFlow.Proofs.Semantics.Exec

/-!
# StorageFlow.Proofs.Semantics.Frame

What running a tree leaves alone.

* `Expr.eval_storage`, `Block.exec_storage` — storage, if no operation may change it.
* `Stmt.exec_env`, `Block.exec_env` — the variables that are neither assigned nor declared.
* `Stmt.exec_continues` — only a statement with a `continue` that leaves it is left that way.
* `Expr.valueIn_of_eval` — the word of an expression whose operations are all movable.
-/

namespace StorageFlow

variable {dialect : Dialect} {W : Type} {M : Model dialect W}

/-! ### Expressions -/

namespace Expr

variable {calls : Calls W} {env env' : Env} {m m' : Machine W}

/-- An operation is run on the words of its arguments. -/
theorem eval_of_root? {e : Expr} {op : Operation} (h : e.root? = some op) (m : Machine W) :
    e.eval M calls env m = (evalAll M calls env e.arguments m).andThen (M.apply calls op) := by
  cases e with
  | literal _ => cases h
  | identifier _ => cases h
  | call _ _ _ => cases h; rfl
  | instruction _ _ _ => cases h; rfl

/-- Arguments came to their end if each of them did, in one of the two orders. -/
theorem evalAll_cons_eq_done {e : Expr} {es : List Expr} {words : List Word}
    (h : evalAll M calls env (e :: es) m = .done words m') :
    ∃ word rest, words = word :: rest ∧
      ((∃ m₁, e.eval M calls env m = .done [word] m₁ ∧
          evalAll M calls env es m₁ = .done rest m') ∨
        (∃ m₁, evalAll M calls env es m = .done rest m₁ ∧
          e.eval M calls env m₁ = .done [word] m')) := by
  unfold evalAll at h
  split at h
  · obtain ⟨word, m₁, he, h⟩ := Outcome.single_eq_done.1 h
    obtain ⟨rest, m₂, hes, h⟩ := Outcome.andThen_eq_done.1 h
    cases h
    exact ⟨word, rest, rfl, .inl ⟨m₁, he, hes⟩⟩
  · obtain ⟨rest, m₁, hes, h⟩ := Outcome.andThen_eq_done.1 h
    obtain ⟨word, m₂, he, h⟩ := Outcome.single_eq_done.1 h
    cases h
    exact ⟨word, rest, rfl, .inr ⟨m₁, hes, he⟩⟩

theorem eval_identifier_eq_done {x : Identifier} {words : List Word}
    (h : (Expr.identifier x).eval M calls env m = .done words m') :
    ∃ word, env x.name = some word ∧ words = [word] ∧ m' = m := by
  unfold eval at h
  split at h
  next word hx =>
    cases h
    exact ⟨word, hx, rfl, rfl⟩
  next => cases h

/-- A variable among arguments is read in either order, and leaves the machine as it was. -/
theorem evalAll_identifier_cons_eq_done {x : Identifier} {es : List Expr} {words : List Word}
    (h : evalAll M calls env (.identifier x :: es) m = .done words m') :
    ∃ a rest, env x.name = some a ∧ words = a :: rest ∧
      evalAll M calls env es m = .done rest m' := by
  rcases evalAll_cons_eq_done h with ⟨a, rest, rfl, ⟨m₁, hx, hes⟩ | ⟨m₁, hes, hx⟩⟩
  · obtain ⟨_, hx, hword, rfl⟩ := eval_identifier_eq_done hx
    cases hword
    exact ⟨a, rest, hx, rfl, hes⟩
  · obtain ⟨_, hx, hword, rfl⟩ := eval_identifier_eq_done hx
    cases hword
    exact ⟨a, rest, hx, rfl, hes⟩

/-- Variables as arguments: their words, and the machine as it was. -/
theorem evalAll_identifiers_eq_done {x y : Identifier} {words : List Word}
    (h : evalAll M calls env [.identifier x, .identifier y] m = .done words m') :
    ∃ a b, env x.name = some a ∧ env y.name = some b ∧ words = [a, b] ∧ m' = m := by
  obtain ⟨a, _, hx, rfl, hrest⟩ := evalAll_identifier_cons_eq_done h
  obtain ⟨b, _, hy, rfl, hnil⟩ := evalAll_identifier_cons_eq_done hrest
  cases hnil
  exact ⟨a, b, hx, hy, rfl, rfl⟩

theorem not_changes_append {ops ops' : List Operation} (h : ¬ dialect.Changes (ops ++ ops')) :
    ¬ dialect.Changes ops ∧ ¬ dialect.Changes ops' :=
  ⟨fun hops => h (hops.mono fun _ => List.mem_append_left _),
    fun hops => h (hops.mono fun _ => List.mem_append_right _)⟩

theorem changesStorage_eq_false {op : Operation} (h : ¬ dialect.Changes [op]) :
    dialect.changesStorage op = false :=
  Bool.eq_false_iff.2 fun hop => h ⟨op, List.mem_singleton_self op, hop⟩

mutual

/-- An expression leaves storage alone if none of its operations may change it. -/
theorem eval_storage : ∀ (e : Expr) {m m' : Machine W} {words : List Word},
    ¬ dialect.Changes e.operations → e.eval M calls env m = .done words m' →
      m'.storage = m.storage
  | .literal _, _, _, _, _, h => by
      cases h
      rfl
  | .identifier x, _, _, _, _, h => by
      unfold eval at h
      split at h
      · cases h
        rfl
      · cases h
  | .call callee arguments _, _, _, _, hno, h => by
      obtain ⟨hargs, hop⟩ := not_changes_append hno
      obtain ⟨_, m₁, hwords, h⟩ := Outcome.andThen_eq_done.1 h
      rw [Model.apply_storage (changesStorage_eq_false hop) h,
        evalAll_storage arguments hargs hwords]
  | .instruction operator arguments _, _, _, _, hno, h => by
      obtain ⟨hargs, hop⟩ := not_changes_append hno
      obtain ⟨_, m₁, hwords, h⟩ := Outcome.andThen_eq_done.1 h
      rw [Model.apply_storage (changesStorage_eq_false hop) h,
        evalAll_storage arguments hargs hwords]

theorem evalAll_storage : ∀ (es : List Expr) {m m' : Machine W} {words : List Word},
    ¬ dialect.Changes (operationsAll es) → evalAll M calls env es m = .done words m' →
      m'.storage = m.storage
  | [], _, _, _, _, h => by
      cases h
      rfl
  | e :: es, _, _, _, hno, h => by
      obtain ⟨he, hes⟩ := not_changes_append hno
      rcases evalAll_cons_eq_done h with ⟨_, _, _, ⟨_, hfirst, hrest⟩ | ⟨_, hrest, hlast⟩⟩
      · rw [evalAll_storage es hes hrest, eval_storage e he hfirst]
      · rw [eval_storage e he hlast, evalAll_storage es hes hrest]

end

/-- All operations of a list are movable. -/
def AllMovable (dialect : Dialect) (ops : List Operation) : Prop :=
  (ops.all fun op => (dialect.effectsOf op).movable) = true

theorem allMovable_append {ops ops' : List Operation} (h : AllMovable dialect (ops ++ ops')) :
    AllMovable dialect ops ∧ AllMovable dialect ops' := by
  rw [AllMovable, List.all_append, Bool.and_eq_true] at h
  exact h

theorem movable_of_allMovable {op : Operation} (h : AllMovable dialect [op]) :
    (dialect.effectsOf op).movable = true := by
  rw [AllMovable, List.all_cons, List.all_nil, Bool.and_true] at h
  exact h

theorem onlyWord?_eq_some {words : List Word} {word : Word} :
    onlyWord? words = some word ↔ words = [word] := by
  unfold onlyWord?
  split <;> simp_all

mutual

/-- If all operations are movable, an expression evaluates to its word. -/
theorem valueIn_of_eval : ∀ (e : Expr) {m m' : Machine W} {words : List Word},
    AllMovable dialect e.operations → e.eval M calls env m = .done words m' →
      e.valueIn M env = onlyWord? words
  | .literal _, _, _, _, _, h => by
      cases h
      rfl
  | .identifier x, _, _, _, _, h => by
      unfold eval at h
      split at h
      next word hx =>
        cases h
        exact hx
      next => cases h
  | .call callee arguments _, _, _, _, hmovable, h => by
      obtain ⟨hargs, hop⟩ := allMovable_append hmovable
      obtain ⟨words, m₁, hwords, h⟩ := Outcome.andThen_eq_done.1 h
      rw [valueIn, valuesIn_of_evalAll arguments hargs hwords]
      exact congrArg onlyWord? (Model.apply_movable (movable_of_allMovable hop) h).symm
  | .instruction operator arguments _, _, _, _, hmovable, h => by
      obtain ⟨hargs, hop⟩ := allMovable_append hmovable
      obtain ⟨words, m₁, hwords, h⟩ := Outcome.andThen_eq_done.1 h
      rw [valueIn, valuesIn_of_evalAll arguments hargs hwords]
      exact congrArg onlyWord? (Model.apply_movable (movable_of_allMovable hop) h).symm

theorem valuesIn_of_evalAll : ∀ (es : List Expr) {m m' : Machine W} {words : List Word},
    AllMovable dialect (operationsAll es) → evalAll M calls env es m = .done words m' →
      valuesIn M env es = some words
  | [], _, _, _, _, h => by
      cases h
      rfl
  | e :: es, _, _, _, hmovable, h => by
      obtain ⟨he, hes⟩ := allMovable_append hmovable
      rcases evalAll_cons_eq_done h with ⟨_, _, rfl, ⟨_, hfirst, hrest⟩ | ⟨_, hrest, hlast⟩⟩
      · rw [valuesIn, valueIn_of_eval e he hfirst, valuesIn_of_evalAll es hes hrest]
        rfl
      · rw [valuesIn, valueIn_of_eval e he hlast, valuesIn_of_evalAll es hes hrest]
        rfl

end

mutual

/-- The word of an expression depends on the variables that it reads. -/
theorem valueIn_congr : ∀ (e : Expr), (∀ x ∈ e.reads, env x = env' x) →
    e.valueIn M env = e.valueIn M env'
  | .literal _, _ => rfl
  | .identifier x, h => h x.name (List.mem_singleton_self _)
  | .call _ arguments _, h => by rw [valueIn, valueIn, valuesIn_congr arguments h]
  | .instruction _ arguments _, h => by rw [valueIn, valueIn, valuesIn_congr arguments h]

theorem valuesIn_congr : ∀ (es : List Expr), (∀ x ∈ readsAll es, env x = env' x) →
    valuesIn M env es = valuesIn M env' es
  | [], _ => rfl
  | e :: es, h => by
      rw [valuesIn, valuesIn, valueIn_congr e fun x hx => h x (List.mem_append_left _ hx),
        valuesIn_congr es fun x hx => h x (List.mem_append_right _ hx)]

end

end Expr

/-! ### Loops -/

/-- What holds at the start of a loop and is kept by its three parts holds at its end, and control
goes on behind it. -/
theorem iterate_invariant {condition : Env → Machine W → Outcome W (List Word)}
    {body post : Env → Machine W → Outcome W (Flow × Env)} {P : Env → Machine W → Prop}
    (hcondition : ∀ env m words m', P env m → condition env m = .done words m' → P env m')
    (hbody : ∀ env m result m', P env m → body env m = .done result m' → P result.2 m')
    (hpost : ∀ env m result m', P env m → post env m = .done result m' → P result.2 m')
    {rounds : Nat} {env : Env} {m m' : Machine W} {result : Flow × Env} (h : P env m)
    (hrun : iterate condition body post rounds env m = .done result m') :
    P result.2 m' ∧ result.1 = .next := by
  induction rounds generalizing env m with
  | zero => cases hrun
  | succ rounds ih =>
      rw [iterate] at hrun
      obtain ⟨word, m₁, hword, hrun⟩ := Outcome.single_eq_done.1 hrun
      have h := hcondition _ _ _ _ h hword
      -- the loop ends here, behind the body or behind the post block
      split at hrun
      · cases hrun
        exact ⟨h, rfl⟩
      · obtain ⟨behind, m₂, hbehind, hrun⟩ := Outcome.andThen_eq_done.1 hrun
        have h := hbody _ _ _ _ h hbehind
        split at hrun
        · cases hrun
          exact ⟨h, rfl⟩
        · obtain ⟨again, m₃, hagain, hrun⟩ := Outcome.andThen_eq_done.1 hrun
          have h := hpost _ _ _ _ h hagain
          split at hrun
          · cases hrun
            exact ⟨h, rfl⟩
          · exact ih h hrun

/-- Two loops run alike if their parts do: `P` holds at the condition and at the body, and `Q` at
the post block. -/
theorem iterate_congr {condition condition' : Env → Machine W → Outcome W (List Word)}
    {body body' post post' : Env → Machine W → Outcome W (Flow × Env)}
    {P Q : Env → Machine W → Prop}
    (hcondition : ∀ {env m}, P env m → condition' env m = condition env m ∧
      ∀ {word m'}, condition env m = .done [word] m' → P env m')
    (hbody : ∀ {env m}, P env m → body' env m = body env m ∧
      ∀ {result m'}, body env m = .done result m' → result.1 ≠ .breaks → Q result.2 m')
    (hpost : ∀ {env m}, Q env m → post' env m = post env m ∧
      ∀ {result m'}, post env m = .done result m' → result.1 ≠ .breaks → P result.2 m')
    {rounds : Nat} {env : Env} {m : Machine W} (h : P env m) :
    iterate condition' body' post' rounds env m = iterate condition body post rounds env m := by
  induction rounds generalizing env m with
  | zero => rfl
  | succ rounds ih =>
      obtain ⟨hsame, hkept⟩ := hcondition h
      rw [iterate, iterate]
      refine Outcome.single_congr hsame fun word m₁ hword => ?_
      have h := hkept hword
      split
      · rfl
      · obtain ⟨hsame, hkept⟩ := hbody h
        refine Outcome.andThen_congr hsame fun behind m₂ hbehind => ?_
        split
        · rfl
        next hgoes =>
          obtain ⟨hsame, hagain⟩ := hpost (hkept hbehind hgoes)
          refine Outcome.andThen_congr hsame fun again m₃ hrun => ?_
          split
          · rfl
          next hgoes => exact ih (hagain hrun hgoes)

/-! ### Variables -/

theorem Env.assign?_eq_some {env env' : Env} {names : List Name} {words : List Word}
    (h : env.assign? names words = some env') :
    words.length = names.length ∧ (∀ x ∈ names, (env x).isSome) ∧
      env' = env.bindAll names words := by
  unfold Env.assign? at h
  split at h
  next hbound =>
    cases h
    exact ⟨hbound.1, List.all_eq_true.1 hbound.2, rfl⟩
  next => cases h

mutual

/-- A statement leaves alone the variables that it neither assigns nor declares. -/
theorem Stmt.exec_env : ∀ (stmt : Stmt) {calls : Calls W} {env : Env} {m m' : Machine W}
    {result : Flow × Env} {x : Name}, stmt.exec M calls env m = .done result m' → x ∉ stmt.targets →
      x ∉ stmt.declared → result.2 x = env x
  | .expression e _, _, _, _, _, _, _, h, _, _ => by
      obtain ⟨_, _, _, h⟩ := Outcome.andThen_eq_done.1 h
      cases h
      rfl
  | .assign _ none _, _, _, _, _, _, _, h, _, _ => by cases h
  | .assign targets (some e) _, _, _, _, _, _, _, h, ht, _ => by
      obtain ⟨_, _, _, h⟩ := Outcome.andThen_eq_done.1 h
      split at h
      next _ hassign =>
        obtain ⟨_, _, rfl⟩ := Env.assign?_eq_some hassign
        cases h
        exact Env.bindAll_of_not_mem ht
      next => cases h
  | .declare _ none _, _, _, _, _, _, _, h, _, hd => by
      cases h
      exact Env.bindZeros_of_not_mem hd
  | .declare _ (some e) _, _, _, _, _, _, _, h, _, hd => by
      obtain ⟨_, _, _, h⟩ := Outcome.andThen_eq_done.1 h
      split at h
      · cases h
        exact Env.bindAll_of_not_mem hd
      · cases h
  | .ifThen _ body _, _, _, _, _, _, _, h, ht, _ => by
      obtain ⟨_, _, _, h⟩ := Outcome.single_eq_done.1 h
      split at h
      · cases h
        rfl
      · exact body.exec_env h ht
  | .switch _ cases _, _, _, _, _, _, _, h, ht, _ => by
      obtain ⟨_, _, _, h⟩ := Outcome.single_eq_done.1 h
      split at h
      · exact Case.execNth_env cases h ht
      · cases h
        rfl
  | .forLoop _ _ post body _, _, env, _, _, _, x, h, ht, _ => by
      simp only [Stmt.targets, List.mem_append, not_or] at ht
      unfold Stmt.exec at h
      split at h
      · exact (iterate_invariant (P := fun env' _ => env' x = env x) (fun _ _ _ _ h _ => h)
          (fun _ _ _ _ h hbody => (body.exec_env hbody ht.1.2).trans h)
          (fun _ _ _ _ h hpost => (post.exec_env hpost ht.2).trans h) rfl h).1
      · cases h
  | .function _ _ _ _ _, _, _, _, _, _, _, h, _, _ => by
      cases h
      rfl
  | .breakLoop _, _, _, _, _, _, _, h, _, _ => by
      cases h
      rfl
  | .continueLoop _, _, _, _, _, _, _, h, _, _ => by
      cases h
      rfl
  | .block body, _, _, _, _, _, _, h, ht, _ => body.exec_env h ht

theorem Stmt.execAll_env : ∀ (stmts : List Stmt) {calls : Calls W} {env : Env}
    {m m' : Machine W} {result : Flow × Env} {x : Name},
    Stmt.execAll M calls stmts env m = .done result m' → x ∉ Stmt.targetsAll stmts →
      x ∉ Stmt.declaredAll stmts → result.2 x = env x
  | [], _, _, _, _, _, _, h, _, _ => by
      cases h
      rfl
  | stmt :: stmts, _, _, _, _, _, _, h, ht, hd => by
      simp only [Stmt.targetsAll, Stmt.declaredAll_cons, List.mem_append, not_or] at ht hd
      obtain ⟨first, _, hfirst, h⟩ := Outcome.andThen_eq_done.1 h
      have hx := stmt.exec_env hfirst ht.1 hd.1
      split at h
      · rw [Stmt.execAll_env stmts h ht.2 hd.2, hx]
      · cases h
        exact hx

theorem Case.execNth_env : ∀ (cases : List Case) {calls : Calls W} {n : Nat} {env : Env}
    {m m' : Machine W} {result : Flow × Env} {x : Name},
    Case.execNth M calls cases n env m = .done result m' →
      x ∉ Case.targetsAll cases → result.2 x = env x
  | [], _, _, _, _, _, _, _, h, _ => by
      cases h
      rfl
  | ⟨_, body, _⟩ :: _, _, 0, _, _, _, _, _, h, ht => by
      rw [Case.targetsAll, List.mem_append, not_or] at ht
      exact body.exec_env h ht.1
  | ⟨_, _, _⟩ :: cases, _, _ + 1, _, _, _, _, _, h, ht => by
      rw [Case.targetsAll, List.mem_append, not_or] at ht
      exact Case.execNth_env cases h ht.2

/-- A block leaves alone the variables that it does not assign. -/
theorem Block.exec_env : ∀ (block : Block) {calls : Calls W} {env : Env} {m m' : Machine W}
    {result : Flow × Env} {x : Name}, block.exec M calls env m = .done result m' →
      x ∉ block.targets → result.2 x = env x
  | ⟨stmts, _⟩, _, _, _, _, _, x, h, ht => by
      obtain ⟨inner, _, hinner, h⟩ := Outcome.andThen_eq_done.1 h
      cases h
      -- a name of the block itself gets back what it held outside
      by_cases hd : x ∈ Stmt.declaredAll stmts
      · exact if_pos hd
      · exact (if_neg hd).trans (Stmt.execAll_env stmts hinner ht hd)

end

/-! ### Storage -/

mutual

theorem Stmt.exec_storage : ∀ (stmt : Stmt) {calls : Calls W} {env : Env} {m m' : Machine W}
    {result : Flow × Env}, stmt.exec M calls env m = .done result m' →
      ¬ dialect.Changes stmt.operations → m'.storage = m.storage
  | .expression e _, _, _, _, _, _, h, hno => by
      obtain ⟨_, _, he, h⟩ := Outcome.andThen_eq_done.1 h
      cases h
      exact e.eval_storage hno he
  | .assign _ none _, _, _, _, _, _, h, _ => by cases h
  | .assign _ (some e) _, _, _, _, _, _, h, hno => by
      obtain ⟨_, _, he, h⟩ := Outcome.andThen_eq_done.1 h
      split at h
      · cases h
        exact e.eval_storage hno he
      · cases h
  | .declare _ none _, _, _, _, _, _, h, _ => by
      cases h
      rfl
  | .declare _ (some e) _, _, _, _, _, _, h, hno => by
      obtain ⟨_, _, he, h⟩ := Outcome.andThen_eq_done.1 h
      split at h
      · cases h
        exact e.eval_storage hno he
      · cases h
  | .ifThen condition body _, _, _, _, _, _, h, hno => by
      obtain ⟨hcondition, hbody⟩ := Expr.not_changes_append hno
      obtain ⟨_, _, hc, h⟩ := Outcome.single_eq_done.1 h
      split at h
      · cases h
        exact condition.eval_storage hcondition hc
      · rw [body.exec_storage h hbody, condition.eval_storage hcondition hc]
  | .switch scrutinee cases _, _, _, _, _, _, h, hno => by
      obtain ⟨hscrutinee, hcases⟩ := Expr.not_changes_append hno
      obtain ⟨_, _, he, h⟩ := Outcome.single_eq_done.1 h
      split at h
      · rw [Case.execNth_storage cases h hcases, scrutinee.eval_storage hscrutinee he]
      · cases h
        exact scrutinee.eval_storage hscrutinee he
  | .forLoop _ condition post body _, _, _, m, _, _, h, hno => by
      obtain ⟨hno, hpost⟩ := Expr.not_changes_append hno
      obtain ⟨hno, hbody⟩ := Expr.not_changes_append hno
      obtain ⟨_, hcondition⟩ := Expr.not_changes_append hno
      unfold Stmt.exec at h
      split at h
      · exact (iterate_invariant (P := fun _ m' => m'.storage = m.storage)
          (fun _ _ _ _ h hc => (condition.eval_storage hcondition hc).trans h)
          (fun _ _ _ _ h hb => (body.exec_storage hb hbody).trans h)
          (fun _ _ _ _ h hp => (post.exec_storage hp hpost).trans h) rfl h).1
      · cases h
  | .function _ _ _ _ _, _, _, _, _, _, h, _ => by
      cases h
      rfl
  | .breakLoop _, _, _, _, _, _, h, _ => by
      cases h
      rfl
  | .continueLoop _, _, _, _, _, _, h, _ => by
      cases h
      rfl
  | .block body, _, _, _, _, _, h, hno => body.exec_storage h hno

theorem Stmt.execAll_storage : ∀ (stmts : List Stmt) {calls : Calls W} {env : Env}
    {m m' : Machine W} {result : Flow × Env},
    Stmt.execAll M calls stmts env m = .done result m' →
      ¬ dialect.Changes (Stmt.operationsAll stmts) → m'.storage = m.storage
  | [], _, _, _, _, _, h, _ => by
      cases h
      rfl
  | stmt :: stmts, _, _, _, _, _, h, hno => by
      obtain ⟨hfirst, hrest⟩ := Expr.not_changes_append hno
      obtain ⟨_, _, hrun, h⟩ := Outcome.andThen_eq_done.1 h
      split at h
      · rw [Stmt.execAll_storage stmts h hrest, stmt.exec_storage hrun hfirst]
      · cases h
        exact stmt.exec_storage hrun hfirst

theorem Case.execNth_storage : ∀ (cases : List Case) {calls : Calls W} {n : Nat} {env : Env}
    {m m' : Machine W} {result : Flow × Env}, Case.execNth M calls cases n env m = .done result m' →
      ¬ dialect.Changes (Case.operationsAll cases) → m'.storage = m.storage
  | [], _, _, _, _, _, _, h, _ => by
      cases h
      rfl
  | ⟨_, body, _⟩ :: _, _, 0, _, _, _, _, h, hno =>
      body.exec_storage h (Expr.not_changes_append hno).1
  | ⟨_, _, _⟩ :: cases, _, _ + 1, _, _, _, _, h, hno =>
      Case.execNth_storage cases h (Expr.not_changes_append hno).2

/-- A block leaves storage alone if none of its operations may change it. -/
theorem Block.exec_storage : ∀ (block : Block) {calls : Calls W} {env : Env}
    {m m' : Machine W} {result : Flow × Env}, block.exec M calls env m = .done result m' →
      ¬ dialect.Changes block.operations → m'.storage = m.storage
  | ⟨stmts, _⟩, _, _, _, _, _, h, hno => by
      obtain ⟨_, _, hinner, h⟩ := Outcome.andThen_eq_done.1 h
      cases h
      exact Stmt.execAll_storage stmts hinner hno

end

/-! ### Leaving by `continue` -/

mutual

/-- Only a statement with a `continue` that leaves it is left that way. -/
theorem Stmt.exec_continues : ∀ (stmt : Stmt) {calls : Calls W} {env : Env} {m m' : Machine W}
    {result : Flow × Env}, stmt.exec M calls env m = .done result m' →
      result.1 = .continues → stmt.hasContinue = true
  | .expression _ _, _, _, _, _, _, h, hflow => by
      obtain ⟨_, _, _, h⟩ := Outcome.andThen_eq_done.1 h
      cases h
      cases hflow
  | .assign _ none _, _, _, _, _, _, h, _ => by cases h
  | .assign _ (some _) _, _, _, _, _, _, h, hflow => by
      obtain ⟨_, _, _, h⟩ := Outcome.andThen_eq_done.1 h
      split at h
      · cases h
        cases hflow
      · cases h
  | .declare _ none _, _, _, _, _, _, h, hflow => by
      cases h
      cases hflow
  | .declare _ (some _) _, _, _, _, _, _, h, hflow => by
      obtain ⟨_, _, _, h⟩ := Outcome.andThen_eq_done.1 h
      split at h
      · cases h
        cases hflow
      · cases h
  | .ifThen _ body _, _, _, _, _, _, h, hflow => by
      obtain ⟨_, _, _, h⟩ := Outcome.single_eq_done.1 h
      split at h
      · cases h
        cases hflow
      · exact body.exec_continues h hflow
  | .switch _ cases _, _, _, _, _, _, h, hflow => by
      obtain ⟨_, _, _, h⟩ := Outcome.single_eq_done.1 h
      split at h
      · exact Case.execNth_continues cases h hflow
      · cases h
        cases hflow
  | .forLoop _ _ _ _ _, _, _, _, _, _, h, hflow => by
      unfold Stmt.exec at h
      split at h
      · have hnext := (iterate_invariant (P := fun _ _ => True) (fun _ _ _ _ _ _ => trivial)
          (fun _ _ _ _ _ _ => trivial) (fun _ _ _ _ _ _ => trivial) trivial h).2
        rw [hnext] at hflow
        cases hflow
      · cases h
  | .function _ _ _ _ _, _, _, _, _, _, h, hflow => by
      cases h
      cases hflow
  | .breakLoop _, _, _, _, _, _, h, hflow => by
      cases h
      cases hflow
  | .continueLoop _, _, _, _, _, _, _, _ => rfl
  | .block body, _, _, _, _, _, h, hflow => body.exec_continues h hflow

theorem Stmt.execAll_continues : ∀ (stmts : List Stmt) {calls : Calls W} {env : Env}
    {m m' : Machine W} {result : Flow × Env},
    Stmt.execAll M calls stmts env m = .done result m' → result.1 = .continues →
      Stmt.hasContinueAny stmts = true
  | [], _, _, _, _, _, h, hflow => by
      cases h
      cases hflow
  | stmt :: stmts, _, _, _, _, _, h, hflow => by
      obtain ⟨_, _, hrun, h⟩ := Outcome.andThen_eq_done.1 h
      rw [Stmt.hasContinueAny, Bool.or_eq_true]
      split at h
      · exact .inr (Stmt.execAll_continues stmts h hflow)
      · cases h
        exact .inl (stmt.exec_continues hrun hflow)

theorem Case.execNth_continues : ∀ (cases : List Case) {calls : Calls W} {n : Nat} {env : Env}
    {m m' : Machine W} {result : Flow × Env},
    Case.execNth M calls cases n env m = .done result m' → result.1 = .continues →
      Case.hasContinueAny cases = true
  | [], _, _, _, _, _, _, h, hflow => by
      cases h
      cases hflow
  | ⟨_, body, _⟩ :: _, _, 0, _, _, _, _, h, hflow => by
      rw [Case.hasContinueAny, Bool.or_eq_true]
      exact .inl (body.exec_continues h hflow)
  | ⟨_, _, _⟩ :: cases, _, _ + 1, _, _, _, _, h, hflow => by
      rw [Case.hasContinueAny, Bool.or_eq_true]
      exact .inr (Case.execNth_continues cases h hflow)

theorem Block.exec_continues : ∀ (block : Block) {calls : Calls W} {env : Env}
    {m m' : Machine W} {result : Flow × Env}, block.exec M calls env m = .done result m' →
      result.1 = .continues → block.hasContinue = true
  | ⟨stmts, _⟩, _, _, _, _, _, h, hflow => by
      obtain ⟨_, _, hinner, h⟩ := Outcome.andThen_eq_done.1 h
      cases h
      exact Stmt.execAll_continues stmts hinner hflow

end

end StorageFlow
