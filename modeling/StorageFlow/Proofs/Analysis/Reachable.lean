import StorageFlow.Proofs.Analysis.Session

/-!
# StorageFlow.Proofs.Analysis.Reachable

The states in which an analysis gets to a statement.

* `Analysis.AtStmt` — a statement of a block, with the state behind the statements in front of it.
* `Analysis.Enters` — a block of a statement, with the state in which its analysis starts.
* `Analysis.Reaches` — a statement anywhere in a block, with the state in front of it.
* `Analysis.Reachable` — the states between runs and in front of all statements that runs get to.
* `Reachable.known` — what every analysis keeps holds in all of them.
-/

namespace StorageFlow.Analysis

variable {σ : Type} {context : Context} {hook : Hook σ}

/-- The analysis of a block gets to one of its statements. -/
inductive AtStmt (context : Context) (hook : Hook σ) : Block → State σ → Stmt → State σ → Prop
  | mk {before behind : List Stmt} {stmt : Stmt} {span : Span} {s : State σ}
      (h : (analyseStmts context hook before (s.openScope false)).error? = none) :
      AtStmt context hook ⟨before ++ stmt :: behind, span⟩ s stmt
        (analyseStmts context hook before (s.openScope false)).state

/-- The analysis of a statement gets to one of its blocks. -/
inductive Enters (context : Context) (hook : Hook σ) : Stmt → State σ → Block → State σ → Prop
  | block {body : Block} {s : State σ} : Enters context hook (.block body) s body s
  | function {name : Name} {parameters results : List Binder} {body : Block} {span : Span}
      {s : State σ} :
      Enters context hook (.function name parameters results body span) s body
        (s.enterFunction (parameters.map Binder.name) (results.map Binder.name))
  | ifThen {condition : Expr} {body : Block} {span : Span} {s : State σ}
      (h : (evaluate context hook condition s).error? = none) :
      Enters context hook (.ifThen condition body span) s body
        (evaluate context hook condition s).state
  | case {scrutinee : Expr} {before behind : List Case} {case : Case} {span : Span} {s : State σ}
      (h : (evaluate context hook scrutinee s).error? = none)
      (hbefore : (analyseCases context hook before
        (evaluate context hook scrutinee s).state).error? = none) :
      Enters context hook (.switch scrutinee (before ++ case :: behind) span) s case.body
        (analyseCases context hook before (evaluate context hook scrutinee s).state).state
  | loopBody {initial post body : Block} {condition : Expr} {span : Span} {s : State σ}
      (hinitial : initial.isEmpty = true)
      (h : (analyseExpr context hook condition
        (loopHead context condition post body s)).error? = none) :
      Enters context hook (.forLoop initial condition post body span) s body
        (analyseExpr context hook condition (loopHead context condition post body s)).state
  | loopPost {initial post body : Block} {condition : Expr} {span : Span} {s : State σ}
      {b : Step (State σ) Block} (hinitial : initial.isEmpty = true)
      (h : (analyseExpr context hook condition
        (loopHead context condition post body s)).error? = none)
      (hb : analyseBlock context hook body (analyseExpr context hook condition
        (loopHead context condition post body s)).state = b) (hdone : b.error? = none) :
      Enters context hook (.forLoop initial condition post body span) s post
        (postHead context body b.node b.state)

/-- The analysis of a block gets to a statement in it, at any depth. -/
inductive Reaches (context : Context) (hook : Hook σ) : Block → State σ → Stmt → State σ → Prop
  | here {block : Block} {s s' : State σ} {stmt : Stmt} (h : AtStmt context hook block s stmt s') :
      Reaches context hook block s stmt s'
  | inside {block inner : Block} {s s' t t' : State σ} {outer stmt : Stmt}
      (h : AtStmt context hook block s outer s') (henters : Enters context hook outer s' inner t)
      (hinner : Reaches context hook inner t stmt t') : Reaches context hook block s stmt t'

namespace Invariant

variable {Known : Knowledge → Prop} {Kept : σ → Prop} (inv : Invariant context hook Known Kept)
  {block : Block} {stmt : Stmt} {s s' : State σ}

theorem of_atStmt (h : AtStmt context hook block s stmt s') (hs : inv.At s) : inv.At s' := by
  obtain @⟨before, _, _, _, _, _⟩ := h
  exact inv.analyseStmts before hs

theorem at_loopHead (condition : Expr) (post body : Block) (h : inv.At s) :
    inv.At (loopHead context condition post body s) :=
  inv.at_forgetStorageIf _ (inv.at_clear _ h)

theorem at_postHead (body newBody : Block) (h : inv.At s) :
    inv.At (postHead context body newBody s) :=
  inv.at_forgetStorageIf _ (inv.at_clear _ h)

theorem of_enters (h : Enters context hook stmt s block s') (hs : inv.At s) : inv.At s' := by
  cases h with
  | block => exact hs
  | function => exact inv.at_enterFunction _ _ hs
  | ifThen _ => exact inv.evaluate _ hs
  | case _ _ => exact inv.analyseCases _ (inv.evaluate _ hs)
  | loopBody _ _ => exact inv.analyseExpr _ (inv.at_loopHead _ _ _ hs)
  | loopPost _ _ hb _ =>
      subst hb
      refine inv.at_postHead _ _ (inv.analyseBlock _ ?_)
      exact inv.analyseExpr _ (inv.at_loopHead _ _ _ hs)

/-- What holds all along an analysis holds in front of each statement that it gets to. -/
theorem of_reaches (h : Reaches context hook block s stmt s') (hs : inv.At s) : inv.At s' := by
  induction h with
  | here h => exact inv.of_atStmt h hs
  | inside h henters _ ih => exact ih (inv.of_enters henters (inv.of_atStmt h hs))

end Invariant

/-- The states of an analysis between its runs, and in front of each statement that a run gets to.
The state of the hook is left out. -/
inductive Reachable (dialect : Dialect) : State Unit → Prop
  | between {s : State Unit} (h : BetweenRuns dialect s) : Reachable dialect s
  | within {σ : Type} {s : State Unit} {s' : State σ} {stmt : Stmt} (h : BetweenRuns dialect s)
      (rules : RuleTable) (config : Config) (hook : Hook σ) (state : σ) (program : Block)
      (hreaches : Reaches { dialect, rules, config } hook program (s.withHook state) stmt s') :
      Reachable dialect (s'.withHook ())

/-- The first run gets there with standard rules and no hook. -/
theorem reachable_idle {dialect : Dialect} {program : Block} {stmt : Stmt} {s : State Unit}
    (h : Reaches { dialect } .idle program (.initial ()) stmt s) : Reachable dialect s :=
  .within .start .standard {} .idle () program h

theorem Reachable.known {dialect : Dialect} {Known : Knowledge → Prop} {s : State Unit}
    (hpreserved : Preserved dialect Known) (h : Reachable dialect s) : Known s.knowledge := by
  cases h with
  | between h => exact h.known hpreserved
  | within h rules config hook state program hreaches =>
      have inv := hpreserved { dialect, rules, config } hook rfl
      exact (inv.of_reaches hreaches ⟨h.known hpreserved, trivial⟩).1

end StorageFlow.Analysis
