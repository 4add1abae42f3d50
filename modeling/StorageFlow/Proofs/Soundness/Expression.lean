import StorageFlow.Proofs.Analysis.Growth
import StorageFlow.Proofs.Soundness.Holds

/-!
# StorageFlow.Proofs.Soundness.Expression

Rewritten expressions have the same words.

* `Hook.Sound` — what a hook makes of an expression has the same value wherever the knowledge that
  it was shown holds.
* `Analysis.eval_analyseExpr` — then so does what an analysis makes of it. Facts about storage must
  hold at each argument, so either there is none, or no argument may change storage.
* `Analysis.eval_evaluate`, `Analysis.holds_evaluate` — expressions in their places.
-/

namespace StorageFlow

variable {σ W : Type} {context : Context} {hook : Hook σ} {M : Model context.dialect W}
variable {trusted : Prop}

/-- What the hook makes of an expression has the same value, in a world of `M`, wherever the
knowledge holds that the hook was shown. -/
structure Hook.Sound (hook : Hook σ) (context : Context) (M : Model context.dialect W)
    (trusted : Prop) : Prop where
  keepsStores : hook.KeepsStores
  eval : ∀ {k scopes e state}, (hook ⟨context, k, scopes⟩ e state).error? = none →
    ∀ {calls env m}, k.Holds M trusted env m →
      (hook ⟨context, k, scopes⟩ e state).node.eval M calls env m = e.eval M calls env m

namespace Analysis

variable {s : State σ}

/-- Facts about storage stay true while operations are evaluated: there is none, or no operation may
change storage. -/
def Steady (context : Context) (k : Knowledge) (ops : List Operation) : Prop :=
  (∀ slot, k.storedAt? slot = none) ∨ ¬ context.dialect.Changes ops

theorem Steady.mono {k : Knowledge} {ops ops' : List Operation} (h : Steady context k ops')
    (hsub : ∀ op ∈ ops, op ∈ ops') : Steady context k ops :=
  h.imp_right fun hno hops => hno (hops.mono hsub)

theorem Steady.eval {k : Knowledge} {e : Expr} {calls : Calls W} {env : Env} {m m' : Machine W}
    {words : List Word} (h : Steady context k e.operations) (hholds : k.Holds M trusted env m)
    (he : e.eval M calls env m = .done words m') : k.Holds M trusted env m' :=
  hholds.of_storage_eq (h.imp_right fun hno => e.eval_storage hno he)

theorem Steady.evalAll {k : Knowledge} {es : List Expr} {calls : Calls W} {env : Env}
    {m m' : Machine W} {words : List Word} (h : Steady context k (Expr.operationsAll es))
    (hholds : k.Holds M trusted env m) (hes : Expr.evalAll M calls env es m = .done words m') :
    k.Holds M trusted env m' :=
  hholds.of_storage_eq (h.imp_right fun hno => Expr.evalAll_storage es hno hes)

/-- The hook is called with the knowledge of the state. -/
theorem eval_callHook (hsound : hook.Sound context M trusted) {e : Expr}
    (h : (callHook context hook e s).error? = none) {calls : Calls W} {env : Env} {m : Machine W}
    (hholds : s.knowledge.Holds M trusted env m) :
    (callHook context hook e s).node.eval M calls env m = e.eval M calls env m :=
  hsound.eval h hholds

/-- An operation has the same words if its arguments have. -/
theorem eval_analyseOperation (hsound : hook.Sound context M trusted) {e : Expr} {op : Operation}
    (hroot : e.root? = some op) (h : (analyseExpr context hook e s).error? = none)
    {calls : Calls W} {env : Env} {m : Machine W} (hholds : s.knowledge.Holds M trusted env m)
    (harguments : Expr.evalAll M calls env (analyseExprs context hook e.arguments s).node m =
      Expr.evalAll M calls env e.arguments m) :
    (analyseExpr context hook e s).node.eval M calls env m = e.eval M calls env m := by
  obtain ⟨_, heq⟩ := analyseExpr_operation hroot h
  rw [heq] at h ⊢
  rw [← knowledge_analyseExprs e.arguments s] at hholds
  rw [eval_callHook hsound h hholds,
    Expr.eval_of_root? ((Expr.root?_withArguments e _).trans hroot),
    Expr.arguments_withArguments hroot, harguments, Expr.eval_of_root? hroot]

mutual

/-- What an analysis makes of an expression has the same words. -/
theorem eval_analyseExpr (hsound : hook.Sound context M trusted) : ∀ (e : Expr) {s : State σ},
    (analyseExpr context hook e s).error? = none →
      Steady context s.knowledge (Expr.operationsAll e.arguments) →
      ∀ {calls : Calls W} {env : Env} {m : Machine W}, s.knowledge.Holds M trusted env m →
        (analyseExpr context hook e s).node.eval M calls env m = e.eval M calls env m
  | .literal _, _, h, _, _, _, _, hholds => eval_callHook hsound h hholds
  | .identifier _, _, h, _, _, _, _, hholds => eval_callHook hsound h hholds
  | .call _ arguments _, _, h, hsteady, _, _, _, hholds =>
      eval_analyseOperation hsound rfl h hholds
        (evalAll_analyseExprs hsound arguments (analyseExpr_operation rfl h).1 hsteady hholds)
  | .instruction _ arguments _, _, h, hsteady, _, _, _, hholds =>
      eval_analyseOperation hsound rfl h hholds
        (evalAll_analyseExprs hsound arguments (analyseExpr_operation rfl h).1 hsteady hholds)

theorem evalAll_analyseExprs (hsound : hook.Sound context M trusted) :
    ∀ (es : List Expr) {s : State σ}, (analyseExprs context hook es s).error? = none →
      Steady context s.knowledge (Expr.operationsAll es) →
      ∀ {calls : Calls W} {env : Env} {m : Machine W}, s.knowledge.Holds M trusted env m →
        Expr.evalAll M calls env (analyseExprs context hook es s).node m =
          Expr.evalAll M calls env es m
  | [], _, _, _, _, _, _, _ => rfl
  | e :: es, s, h, hsteady, calls, env, m, hholds => by
      obtain ⟨hfirst, hrest, heq⟩ := analyseExprs_cons h
      have he : Steady context s.knowledge e.operations :=
        hsteady.mono fun _ hop => List.mem_append_left _ hop
      have hes : Steady context s.knowledge (Expr.operationsAll es) :=
        hsteady.mono fun _ hop => List.mem_append_right _ hop
      have harguments : Steady context s.knowledge (Expr.operationsAll e.arguments) :=
        he.mono fun _ hop => Expr.operationsAll_arguments hop
      have hnode : ∀ {m}, s.knowledge.Holds M trusted env m →
          (analyseExpr context hook e s).node.eval M calls env m = e.eval M calls env m :=
        fun hholds => eval_analyseExpr hsound e hfirst harguments hholds
      have hnodes : ∀ {m}, s.knowledge.Holds M trusted env m →
          Expr.evalAll M calls env
              (analyseExprs context hook es (analyseExpr context hook e s).state).node m =
            Expr.evalAll M calls env es m :=
        fun hholds => evalAll_analyseExprs hsound es hrest (by rwa [knowledge_analyseExpr])
          (by rwa [knowledge_analyseExpr])
      rw [heq]
      simp only [Step.node_done, Expr.evalAll]
      split
      · refine Outcome.single_congr (hnode hholds) fun word m₁ hword => ?_
        rw [hnodes (he.eval hholds hword)]
      · refine Outcome.andThen_congr (hnodes hholds) fun words m₁ hwords => ?_
        rw [hnode (hes.evalAll hholds hwords)]

end

/-! ### Expressions in their places -/

theorem steady_forgetStorageIf (e : Expr) (s : State σ) :
    Steady context (s.forgetStorageIf (e.mayChangeStorage context.dialect)).knowledge
      e.operations := by
  by_cases hchanges : e.mayChangeStorage context.dialect = true
  · refine .inl fun slot => ?_
    rw [hchanges]
    exact Knowledge.storedAt?_forgetStorage slot
  · exact .inr fun hops => hchanges (Expr.mayChangeStorage_iff.2 hops)

theorem sub_forgetStorageIf (changed : Bool) (s : State σ) :
    (s.forgetStorageIf changed).knowledge.Sub s.knowledge := by
  cases changed
  · exact ⟨id, id⟩
  · exact Knowledge.sub_forgetStorage

theorem sub_evaluate (e : Expr) (s : State σ) :
    (evaluate context hook e s).state.knowledge.Sub s.knowledge := by
  rw [knowledge_evaluate]
  exact sub_forgetStorageIf _ s

/-- What an analysis makes of an expression in its place has the same words. -/
theorem eval_evaluate (hsound : hook.Sound context M trusted) {e : Expr}
    (h : (evaluate context hook e s).error? = none) {calls : Calls W} {env : Env} {m : Machine W}
    (hholds : s.knowledge.Holds M trusted env m) :
    (evaluate context hook e s).node.eval M calls env m = e.eval M calls env m :=
  eval_analyseExpr hsound e h
    ((steady_forgetStorageIf e s).mono fun _ hop => Expr.operationsAll_arguments hop)
    (hholds.mono (sub_forgetStorageIf _ s))

/-- Behind an expression, what is known still holds. -/
theorem holds_evaluate {e : Expr} {calls : Calls W} {env : Env} {m m' : Machine W}
    {words : List Word} (hholds : s.knowledge.Holds M trusted env m)
    (he : e.eval M calls env m = .done words m') :
    (evaluate context hook e s).state.knowledge.Holds M trusted env m' := by
  rw [knowledge_evaluate]
  exact (steady_forgetStorageIf e s).eval (hholds.mono (sub_forgetStorageIf _ s)) he

end Analysis

end StorageFlow
