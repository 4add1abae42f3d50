import StorageFlow.Proofs.Soundness.Expression

/-!
# StorageFlow.Proofs.Soundness.Statement

Rewritten statements run as before, and what is known behind a statement holds behind it.

* `Preserves` — running the new code in place of the old one, where some knowledge holds, makes no
  difference, and tells what holds where control goes on.
* `preserves_ifThen`, `preserves_forLoop`, … — each construct, given its parts.
* `preserves_analyseStmt`, `preserves_analyseBlock` — whole trees.

Behind a `continue` the knowledge of the end of the loop body is compared with the variables of an
earlier point. It holds there but for the variables that may be assigned or declared in between.
-/

namespace StorageFlow.Analysis

variable {σ W : Type} {context : Context} {hook : Hook σ} {M : Model context.dialect W}
variable {trusted : Prop} {s : State σ} {span : Span}

/-- Code as it runs once it is known what calls do. -/
abbrev Code (W : Type) := Calls W → Env → Machine W → Outcome W (Flow × Env)

/-- Where `k` holds, `new` runs as `old` does; behind it, where control goes on, `k'` holds; and
where it is left by `continue`, the values of `k'` hold but for some variables. -/
structure Preserves (M : Model context.dialect W) (trusted : Prop) (k k' : Knowledge)
    (except : List Name) (old new : Code W) : Prop where
  exec : ∀ {calls env m}, k.Holds M trusted env m → new calls env m = old calls env m
  next : ∀ {calls env m env' m'}, k.Holds M trusted env m →
    old calls env m = .done (.next, env') m' → k'.Holds M trusted env' m'
  continues : ∀ {calls env m env' m'}, k.Holds M trusted env m →
    old calls env m = .done (.continues, env') m' → k'.ValuesHold M except env'

/-- Less is known behind the code, and fewer values are claimed. -/
theorem Preserves.mono {k k' k'' : Knowledge} {except except' : List Name} {old new : Code W}
    (h : Preserves M trusted k k' except old new) (hsub : k''.Sub k')
    (hexcept : ∀ x, x ∉ except' → x ∉ except) : Preserves M trusted k k'' except' old new where
  exec hholds := h.exec hholds
  next hholds hrun := (h.next hholds hrun).mono hsub
  continues hholds hrun x e hx hmem :=
    h.continues hholds hrun x e (hsub.values hx) (hexcept x hmem)

/-- More is known in front of the code. -/
theorem Preserves.of_sub {k k₁ k' : Knowledge} {except : List Name} {old new : Code W}
    (h : Preserves M trusted k₁ k' except old new) (hsub : k₁.Sub k) :
    Preserves M trusted k k' except old new where
  exec hholds := h.exec (hholds.mono hsub)
  next hholds := h.next (hholds.mono hsub)
  continues hholds := h.continues (hholds.mono hsub)

/-- Code that changes nothing, and only goes on. -/
theorem preserves_skip (k : Knowledge) (except : List Name) :
    Preserves M trusted k k except (fun _ env m => .done (.next, env) m)
      (fun _ env m => .done (.next, env) m) where
  exec _ := rfl
  next hholds h := by
    cases h
    exact hholds
  continues _ h := by cases h

/-! ### Simple statements -/

/-- Where `k` holds, the new expression has the words of the old one; behind it `k'` holds. -/
structure PreservesWords (M : Model context.dialect W) (trusted : Prop) (k k' : Knowledge)
    (old new : Expr) : Prop where
  eval : ∀ {calls env m}, k.Holds M trusted env m →
    new.eval M calls env m = old.eval M calls env m
  holds : ∀ {calls env m words m'}, k.Holds M trusted env m →
    old.eval M calls env m = .done words m' → k'.Holds M trusted env m'

theorem preservesWords_evaluate (hsound : hook.Sound context M trusted) {e : Expr}
    (h : (evaluate context hook e s).error? = none) :
    PreservesWords M trusted s.knowledge (evaluate context hook e s).state.knowledge e
      (evaluate context hook e s).node where
  eval hholds := eval_evaluate hsound h hholds
  holds hholds he := holds_evaluate hholds he

/-- A statement that evaluates an expression, and then goes on or gets stuck. -/
theorem Preserves.ofWords {k k₁ k' : Knowledge} {e e' : Expr}
    (hwords : PreservesWords M trusted k k₁ e e')
    {next : Env → List Word → Machine W → Outcome W (Flow × Env)}
    (hnext : ∀ {calls env m words m₁ flow env' m'}, k.Holds M trusted env m →
      e.eval M calls env m = .done words m₁ → next env words m₁ = .done (flow, env') m' →
        flow = .next ∧ k'.Holds M trusted env' m') :
    Preserves M trusted k k' [] (fun calls env m => (e.eval M calls env m).andThen (next env))
      (fun calls env m => (e'.eval M calls env m).andThen (next env)) where
  exec hholds := Outcome.andThen_congr (hwords.eval hholds) fun _ _ _ => rfl
  next hholds h := by
    obtain ⟨_, _, hrun, h⟩ := Outcome.andThen_eq_done.1 h
    exact (hnext hholds hrun h).2
  continues hholds h := by
    obtain ⟨_, _, hrun, h⟩ := Outcome.andThen_eq_done.1 h
    cases (hnext hholds hrun h).1

/-- The arguments of a tracked store are variables. -/
theorem steady_trackedStore {e : Expr} {slot value : Name}
    (htracked : context.trackedStore? e = some (slot, value)) (k : Knowledge) :
    Steady context k (Expr.operationsAll e.arguments) := by
  obtain ⟨_, x, y, _, harguments, _⟩ := trackedStore?_eq_some htracked
  rw [harguments]
  exact .inr fun ⟨_, hop, _⟩ => List.not_mem_nil hop

theorem preserves_trackedStore (hsound : hook.Sound context M trusted)
    (hrules : trusted → ∀ rule ∈ context.rules, rule ∈ RuleTable.standard) {e : Expr}
    {slot value : Name} (htracked : context.trackedStore? e = some (slot, value))
    (h : (analyseStmt context hook (.expression e span) s).error? = none) :
    Preserves M trusted s.knowledge
      (analyseStmt context hook (.expression e span) s).state.knowledge []
      (fun calls => (Stmt.expression e span).exec M calls)
      (fun calls => (analyseStmt context hook (.expression e span) s).node.exec M calls) := by
  obtain ⟨he, k, hstore, heq⟩ := analyseStmt_trackedStore htracked h
  obtain ⟨op, x, y, hroot, harguments, rfl, rfl, hwrites⟩ := trackedStore?_eq_some htracked
  -- what is known in front of the store need not hold behind it, so the store itself is followed
  have hwords : PreservesWords M trusted s.knowledge ∅ e (analyseExpr context hook e s).node :=
    ⟨fun hholds => eval_analyseExpr hsound e he (steady_trackedStore htracked _) hholds,
      fun _ _ => Knowledge.holds_empty⟩
  rw [heq]
  refine .ofWords hwords fun {calls env m words m₁ flow env' m'} hholds hrun h => ?_
  cases h
  rw [Expr.eval_of_root? hroot, harguments] at hrun
  obtain ⟨arguments, m₂, hvalues, happly⟩ := Outcome.andThen_eq_done.1 hrun
  obtain ⟨a, b, ha, hb, rfl, rfl⟩ := Expr.evalAll_identifiers_eq_done hvalues
  have hstorage := Model.apply_store hwrites happly
  exact ⟨rfl, hholds.store rfl hrules ha hb hstorage hstore⟩

theorem preserves_expression (hsound : hook.Sound context M trusted) {e : Expr}
    (htracked : context.trackedStore? e = none)
    (h : (analyseStmt context hook (.expression e span) s).error? = none) :
    Preserves M trusted s.knowledge
      (analyseStmt context hook (.expression e span) s).state.knowledge []
      (fun calls => (Stmt.expression e span).exec M calls)
      (fun calls => (analyseStmt context hook (.expression e span) s).node.exec M calls) := by
  obtain ⟨he, heq⟩ := analyseStmt_expression htracked h
  rw [heq]
  refine .ofWords (preservesWords_evaluate hsound he) fun hholds hrun h => ?_
  cases h
  exact ⟨rfl, holds_evaluate hholds hrun⟩

/-- Behind an evaluation, its words may be assigned. -/
theorem holds_assign (hsound : hook.Sound context M trusted)
    (hcoherent : s.knowledge.Coherent context.dialect) {e : Expr}
    (he : (evaluate context hook e s).error? = none) {calls : Calls W} {env : Env}
    {m m' : Machine W} {words : List Word} (hholds : s.knowledge.Holds M trusted env m)
    (hrun : e.eval M calls env m = .done words m') {names : List Name}
    (hlength : words.length = names.length) :
    ((evaluate context hook e s).state.assign context names
      (evaluate context hook e s).node).knowledge.Holds M trusted (env.bindAll names words)
      m' := by
  refine (holds_evaluate hholds hrun).assign (coherent_evaluate hcoherent) hlength ?_
  rintro hmovable word rfl
  rw [← eval_evaluate hsound he hholds] at hrun
  exact Expr.valueIn_of_eval _ hmovable hrun

theorem preserves_assign (hsound : hook.Sound context M trusted)
    (hcoherent : s.knowledge.Coherent context.dialect) {targets : List Identifier} {e : Expr}
    (h : (analyseStmt context hook (.assign targets (some e) span) s).error? = none) :
    Preserves M trusted s.knowledge
      (analyseStmt context hook (.assign targets (some e) span) s).state.knowledge []
      (fun calls => (Stmt.assign targets (some e) span).exec M calls)
      (fun calls => (analyseStmt context hook (.assign targets (some e) span) s).node.exec M
        calls) := by
  obtain ⟨he, heq⟩ := analyseStmt_assign h
  rw [heq]
  refine .ofWords (preservesWords_evaluate hsound he) fun hholds hrun h => ?_
  split at h
  next env' hassign =>
    cases h
    obtain ⟨hlength, _, rfl⟩ := Env.assign?_eq_some hassign
    exact ⟨rfl, holds_assign hsound hcoherent he hholds hrun hlength⟩
  next => cases h

theorem preserves_declareZeros (hcoherent : s.knowledge.Coherent context.dialect)
    (declared : List Binder) :
    Preserves M trusted s.knowledge
      (analyseStmt context hook (.declare declared none span) s).state.knowledge []
      (fun calls => (Stmt.declare declared none span).exec M calls)
      (fun calls => (analyseStmt context hook (.declare declared none span) s).node.exec M
        calls) := by
  refine ⟨fun _ => rfl, fun hholds hrun => ?_, fun _ hrun => ?_⟩
  · cases hrun
    have hknowledge : (analyseStmt context hook (.declare declared none span) s).state.knowledge =
        s.knowledge.assignZero (declared.map Binder.name) :=
      congrArg (Knowledge.assignZero · _) (knowledge_declare _ s)
    rw [hknowledge]
    exact hholds.assignZero hcoherent _
  · cases hrun

theorem preserves_declare (hsound : hook.Sound context M trusted)
    (hcoherent : s.knowledge.Coherent context.dialect) {declared : List Binder} {e : Expr}
    (h : (analyseStmt context hook (.declare declared (some e) span) s).error? = none) :
    Preserves M trusted s.knowledge
      (analyseStmt context hook (.declare declared (some e) span) s).state.knowledge []
      (fun calls => (Stmt.declare declared (some e) span).exec M calls)
      (fun calls => (analyseStmt context hook (.declare declared (some e) span) s).node.exec M
        calls) := by
  obtain ⟨he, heq⟩ := analyseStmt_declare h
  rw [← knowledge_declare (declared.map Binder.name) s] at hcoherent ⊢
  rw [heq]
  refine .ofWords (preservesWords_evaluate hsound he) fun hholds hrun h => ?_
  split at h
  next hlength =>
    cases h
    exact ⟨rfl, holds_assign hsound hcoherent he hholds hrun hlength⟩
  next => cases h

/-! ### Branches -/

section Constructs

variable {k k₁ k₂ k' : Knowledge} {except : List Name}

theorem Preserves.ifThen {condition condition' : Expr} {body body' : Block}
    (hcondition : PreservesWords M trusted k k₁ condition condition')
    (hbody : Preserves M trusted k₁ k₂ except (fun calls => body.exec M calls)
      (fun calls => body'.exec M calls))
    (hskipped : k'.Sub k₁) (hrun : k'.Sub k₂) :
    Preserves M trusted k k' except
      (fun calls => (Stmt.ifThen condition body span).exec M calls)
      (fun calls => (Stmt.ifThen condition' body' span).exec M calls) := by
  refine ⟨fun hholds => ?_, fun hholds h => ?_, fun hholds h => ?_⟩
  · refine Outcome.single_congr (hcondition.eval hholds) fun word m₁ hword => ?_
    split
    · rfl
    · exact hbody.exec (hcondition.holds hholds hword)
  · obtain ⟨word, m₁, hword, h⟩ := Outcome.single_eq_done.1 h
    have hholds := hcondition.holds hholds hword
    split at h
    · cases h
      exact hholds.mono hskipped
    · exact (hbody.next hholds h).mono hrun
  · obtain ⟨word, m₁, hword, h⟩ := Outcome.single_eq_done.1 h
    have hholds := hcondition.holds hholds hword
    split at h
    · cases h
    · exact (hbody.continues hholds h).mono hrun

theorem Preserves.switch {scrutinee scrutinee' : Expr} {cases cases' : List Case}
    (hscrutinee : PreservesWords M trusted k k₁ scrutinee scrutinee')
    (hcases : ∀ n, Preserves M trusted k₁ k₂ except (fun calls => Case.execNth M calls cases n)
      (fun calls => Case.execNth M calls cases' n))
    (hvalues : cases'.map Case.value? = cases.map Case.value?)
    (hskipped : k'.Sub k₁) (hrun : k'.Sub k₂) :
    Preserves M trusted k k' except
      (fun calls => (Stmt.switch scrutinee cases span).exec M calls)
      (fun calls => (Stmt.switch scrutinee' cases' span).exec M calls) := by
  refine ⟨fun hholds => ?_, fun hholds h => ?_, fun hholds h => ?_⟩
  · refine Outcome.single_congr (hscrutinee.eval hholds) fun word m₁ hword => ?_
    rw [hvalues]
    split
    · exact (hcases _).exec (hscrutinee.holds hholds hword)
    · rfl
  · obtain ⟨word, m₁, hword, h⟩ := Outcome.single_eq_done.1 h
    have hholds := hscrutinee.holds hholds hword
    split at h
    · exact ((hcases _).next hholds h).mono hrun
    · cases h
      exact hholds.mono hskipped
  · obtain ⟨word, m₁, hword, h⟩ := Outcome.single_eq_done.1 h
    have hholds := hscrutinee.holds hholds hword
    split at h
    · exact ((hcases _).continues hholds h).mono hrun
    · cases h

/-! ### Loops -/

/-- What changes between the start of a loop and any later point in it: no variable but `names`, and
storage only if nothing is known about it. -/
structure InLoop (k : Knowledge) (names : List Name) (env₀ : Env) (m₀ : Machine W) (env : Env)
    (m : Machine W) : Prop where
  env : ∀ x, x ∉ names → env x = env₀ x
  storage : (∀ slot, k.storedAt? slot = none) ∨ m.storage = m₀.storage

/-- `k` mentions no variable that the loop assigns, and says something about storage only if the
loop leaves storage alone. -/
structure LoopFrame (context : Context) (k : Knowledge) (names : List Name) (condition : Expr)
    (post body : Block) : Prop where
  avoids : k.Avoids names
  body_targets : ∀ {x}, x ∈ body.targets → x ∈ names
  post_targets : ∀ {x}, x ∈ post.targets → x ∈ names
  steady : Steady context k (condition.operations ++ body.operations ++ post.operations)

/-- The parts of a loop: `k` holds at the condition and at the body, `k₁` at the end of the body,
and `kPost` at the post block, which is also reached by `continue`. -/
structure LoopParts (context : Context) (k k₁ kPost : Knowledge) (names : List Name)
    (condition : Expr) (post body body' : Block) : Prop
    extends LoopFrame context k names condition post body where
  sub : kPost.Sub k₁
  late : ∀ {x e}, kPost.value? x = some e → x ∉ body.lateTargets
  stored : ∀ {slot value}, kPost.storedAt? slot = some value →
    k.storedAt? slot = some value ∧ ¬ context.dialect.Changes body'.operations

namespace LoopFrame

variable {condition : Expr} {post body : Block} {names : List Name}
variable {calls : Calls W} {env₀ env : Env} {m₀ m m' : Machine W}
variable (frame : LoopFrame context k names condition post body)
include frame

theorem holds (hholds : k.Holds M trusted env₀ m₀) (h : InLoop k names env₀ m₀ env m) :
    k.Holds M trusted env m :=
  hholds.frame frame.avoids h.env h.storage

theorem inLoop_condition {words : List Word} (h : InLoop k names env₀ m₀ env m)
    (hrun : condition.eval M calls env m = .done words m') : InLoop k names env₀ m₀ env m' where
  env := h.env
  storage := by
    rcases frame.steady with hnone | hno
    · exact .inl hnone
    · have hno := (Expr.not_changes_append (Expr.not_changes_append hno).1).1
      exact h.storage.imp_right (condition.eval_storage hno hrun).trans

theorem inLoop_body {result : Flow × Env} (h : InLoop k names env₀ m₀ env m)
    (hrun : body.exec M calls env m = .done result m') : InLoop k names env₀ m₀ result.2 m' where
  env x hx := (body.exec_env hrun fun hmem => hx (frame.body_targets hmem)).trans (h.env x hx)
  storage := by
    rcases frame.steady with hnone | hno
    · exact .inl hnone
    · have hno := (Expr.not_changes_append (Expr.not_changes_append hno).1).2
      exact h.storage.imp_right (body.exec_storage hrun hno).trans

theorem inLoop_post {result : Flow × Env} (h : InLoop k names env₀ m₀ env m)
    (hrun : post.exec M calls env m = .done result m') : InLoop k names env₀ m₀ result.2 m' where
  env x hx := (post.exec_env hrun fun hmem => hx (frame.post_targets hmem)).trans (h.env x hx)
  storage := by
    rcases frame.steady with hnone | hno
    · exact .inl hnone
    · have hno := (Expr.not_changes_append hno).2
      exact h.storage.imp_right (post.exec_storage hrun hno).trans

end LoopFrame

/-- What is known at the post block holds behind the body and behind each `continue` in it. -/
theorem LoopParts.holds_post {condition : Expr} {post body body' : Block} {names : List Name}
    {kPost : Knowledge} {calls : Calls W} {env : Env} {m m' : Machine W}
    (parts : LoopParts context k k₁ kPost names condition post body body')
    (hbody : Preserves M trusted k k₁ body.lateTargets (fun calls => body.exec M calls)
      (fun calls => body'.exec M calls))
    (hholds : k.Holds M trusted env m) {result : Flow × Env}
    (hrun : body.exec M calls env m = .done result m') (hflow : result.1 ≠ .breaks) :
    kPost.Holds M trusted result.2 m' := by
  obtain ⟨flow, env'⟩ := result
  cases flow with
  | next => exact (hbody.next hholds hrun).mono parts.sub
  | breaks => exact absurd rfl hflow
  | continues =>
      -- for storage the end of the body is no help: the fact was known at the head of the loop, and
      -- the body leaves storage and both of its variables alone
      refine ⟨fun x e hx _ => hbody.continues hholds hrun x e (parts.sub.values hx) (parts.late hx),
        fun htrusted slot value hs => ?_⟩
      obtain ⟨hs, hno⟩ := parts.stored hs
      obtain ⟨word, hslot, hvalue⟩ := hholds.stored htrusted _ _ hs
      obtain ⟨hslotNames, hvalueNames⟩ := parts.avoids.stored hs
      have henv : ∀ x, x ∉ names → env' x = env x :=
        fun x hx => body.exec_env hrun fun hmem => hx (parts.body_targets hmem)
      rw [← hbody.exec hholds] at hrun
      refine ⟨word, (henv slot hslotNames).trans hslot, (henv value hvalueNames).trans ?_⟩
      rw [hvalue, body'.exec_storage hrun hno]

/-- A loop: what is known at its head mentions no variable that the loop assigns, so it holds all
along, and what is known behind the loop was known at its head. -/
theorem Preserves.forLoop {initial post post' body body' : Block} {condition condition' : Expr}
    {names : List Name} {kPost kEnd : Knowledge} {late : List Name}
    (parts : LoopParts context k₁ k₂ kPost names condition post body body')
    (hcondition : PreservesWords M trusted k₁ k₁ condition condition')
    (hbody : Preserves M trusted k₁ k₂ body.lateTargets (fun calls => body.exec M calls)
      (fun calls => body'.exec M calls))
    (hpost : Preserves M trusted kPost kEnd late (fun calls => post.exec M calls)
      (fun calls => post'.exec M calls))
    (hhead : k₁.Sub k) (hexit : k'.Sub k₁) :
    Preserves M trusted k k' []
      (fun calls => (Stmt.forLoop initial condition post body span).exec M calls)
      (fun calls => (Stmt.forLoop initial condition' post' body' span).exec M calls) := by
  have hstart : ∀ {env : Env} {m : Machine W}, InLoop k₁ names env m env m :=
    ⟨fun _ _ => rfl, .inr rfl⟩
  refine ⟨fun {calls env₀ m₀} hholds => ?_, fun {calls env₀ m₀ env' m'} hholds h => ?_,
    fun hholds h => ?_⟩
  · have hholds := hholds.mono hhead
    simp only [Stmt.exec]
    split
    · -- in each round only what the loop may change has changed since its start
      refine iterate_congr (P := InLoop k₁ names env₀ m₀)
        (Q := fun env m => InLoop k₁ names env₀ m₀ env m ∧ kPost.Holds M trusted env m)
        (fun h => ⟨hcondition.eval (parts.holds hholds h), parts.inLoop_condition h⟩)
        (fun h => ⟨hbody.exec (parts.holds hholds h), fun hrun hflow =>
          ⟨parts.inLoop_body h hrun, parts.holds_post hbody (parts.holds hholds h) hrun hflow⟩⟩)
        (fun h => ⟨hpost.exec h.2, fun hrun _ => parts.inLoop_post h.1 hrun⟩) hstart
    · rfl
  · simp only [Stmt.exec] at h
    split at h
    · have hin := (iterate_invariant (P := InLoop k₁ names env₀ m₀)
        (fun _ _ _ _ h hrun => parts.inLoop_condition h hrun)
        (fun _ _ _ _ h hrun => parts.inLoop_body h hrun)
        (fun _ _ _ _ h hrun => parts.inLoop_post h hrun) hstart h).1
      exact (parts.holds (hholds.mono hhead) hin).mono hexit
    · cases h
  · have hflow := (Stmt.forLoop initial condition post body span).exec_continues h rfl
    cases hflow

/-! ### Sequences and blocks -/

/-- One statement before others. Where the first one is left by `continue`, what is known at the end
was known there, unless the others assign or declare the variable. -/
theorem Preserves.cons {stmt stmt' : Stmt} {stmts stmts' : List Stmt}
    (hfirst : Preserves M trusted k k₁ (stmt.lateTargets ++ stmt.declared)
      (fun calls => stmt.exec M calls) (fun calls => stmt'.exec M calls))
    (hrest : Preserves M trusted k₁ k₂ (Stmt.lateTargetsAll stmts ++ Stmt.declaredAll stmts)
      (fun calls => Stmt.execAll M calls stmts) (fun calls => Stmt.execAll M calls stmts'))
    (hgrowth : ∀ {x e}, k₂.value? x = some e → x ∉ Stmt.targetsAll stmts →
      x ∉ Stmt.declaredAll stmts → k₁.value? x = some e) :
    Preserves M trusted k k₂
      (Stmt.lateTargetsAll (stmt :: stmts) ++ Stmt.declaredAll (stmt :: stmts))
      (fun calls => Stmt.execAll M calls (stmt :: stmts))
      (fun calls => Stmt.execAll M calls (stmt' :: stmts')) := by
  refine ⟨fun hholds => ?_, fun hholds h => ?_, fun hholds h => ?_⟩
  · refine Outcome.andThen_congr (hfirst.exec hholds) fun ⟨flow, env⟩ m₁ hrun => ?_
    cases flow with
    | next => exact hrest.exec (hfirst.next hholds hrun)
    | breaks => rfl
    | continues => rfl
  · obtain ⟨⟨flow, env⟩, m₁, hrun, h⟩ := Outcome.andThen_eq_done.1 h
    cases flow with
    | next => exact hrest.next (hfirst.next hholds hrun) h
    | breaks => cases h
    | continues => cases h
  · obtain ⟨⟨flow, env⟩, m₁, hrun, h⟩ := Outcome.andThen_eq_done.1 h
    intro x e hx hmem
    simp only [Stmt.lateTargetsAll, Stmt.declaredAll_cons, List.mem_append, not_or] at hmem
    obtain ⟨⟨hlate, hlater⟩, hdeclared, hmoreDeclared⟩ := hmem
    cases flow with
    | next =>
        refine hrest.continues (hfirst.next hholds hrun) h x e hx ?_
        rw [List.mem_append, not_or]
        refine ⟨fun hmem => hlater ?_, hmoreDeclared⟩
        split
        · exact Stmt.lateTargetsAll_subset stmts hmem
        · exact hmem
    | breaks => cases h
    | continues =>
        -- the first statement was left, so all targets of the others count as late
        cases h
        rw [if_pos (stmt.exec_continues hrun rfl)] at hlater
        refine hfirst.continues hholds hrun x e (hgrowth hx hlater hmoreDeclared) ?_
        rw [List.mem_append, not_or]
        exact ⟨hlate, hdeclared⟩

/-- A block: its functions have the same meanings, and what is known of its variables is
cleared. -/
theorem Preserves.block {stmts stmts' : List Stmt} {names : List Name}
    (hstmts : Preserves M trusted k k₁ (Stmt.lateTargetsAll stmts ++ Stmt.declaredAll stmts)
      (fun calls => Stmt.execAll M calls stmts) (fun calls => Stmt.execAll M calls stmts'))
    (hmeanings : Stmt.meaningsAll M stmts' = Stmt.meaningsAll M stmts)
    (hdeclared : Stmt.declaredAll stmts' = Stmt.declaredAll stmts)
    (hcoherent : k₁.Coherent context.dialect)
    (hnames : ∀ x, x ∈ names ↔ x ∈ Stmt.declaredAll stmts) :
    Preserves M trusted k (k₁.clear names) (Stmt.lateTargetsAll stmts)
      (fun calls => (Block.mk stmts span).exec M calls)
      (fun calls => (Block.mk stmts' span).exec M calls) := by
  have hleave : ∀ (inner outer : Env) x, x ∉ names →
      inner.leave (Stmt.declaredAll stmts) outer x = inner x :=
    fun _ _ x hx => if_neg fun hmem => hx ((hnames x).2 hmem)
  refine ⟨fun hholds => ?_, fun hholds h => ?_, fun hholds h => ?_⟩
  · simp only [Block.exec, hmeanings, hdeclared]
    exact Outcome.andThen_congr (hstmts.exec hholds) fun _ _ _ => rfl
  · obtain ⟨⟨flow, inner⟩, m₁, hrun, h⟩ := Outcome.andThen_eq_done.1 h
    cases h
    exact ((hstmts.next hholds hrun).mono (Knowledge.sub_clear names)).frame
      (hcoherent.avoids_clear names) (hleave inner _) (.inr rfl)
  · obtain ⟨⟨flow, inner⟩, m₁, hrun, h⟩ := Outcome.andThen_eq_done.1 h
    cases h
    intro x e hx hlate
    obtain ⟨hxnames, hreads⟩ := (hcoherent.avoids_clear names).values hx
    have hexcept : x ∉ Stmt.lateTargetsAll stmts ++ Stmt.declaredAll stmts := by
      rw [List.mem_append, not_or]
      exact ⟨hlate, fun hmem => hxnames ((hnames x).2 hmem)⟩
    obtain ⟨word, hword, hvalue⟩ :=
      hstmts.continues hholds hrun x e (Knowledge.value?_of_clear hx).1 hexcept
    refine ⟨word, (hleave inner _ x hxnames).trans hword, ?_⟩
    rw [← hvalue]
    exact e.valueIn_congr fun y hy => hleave inner _ y (hreads y hy)

end Constructs

end StorageFlow.Analysis
