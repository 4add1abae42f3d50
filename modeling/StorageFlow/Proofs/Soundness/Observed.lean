import StorageFlow.Proofs.Analysis.Recorded
import StorageFlow.Proofs.Semantics.Collecting
import StorageFlow.Proofs.Semantics.Reference
import StorageFlow.Proofs.Soundness.Program

/-!
# StorageFlow.Proofs.Soundness.Observed

What a hook is shown is true.

* `Hook.Observes` — hooks that change no expression.
* `Analysis.Shown` — a call is made on the expression of a site, and what the hook is shown holds in
  each state in which that site is reached.
* `Analysis.records_analyseBlock` — an analysis with an observing hook calls it so at the sites of a
  program, one after another, whether it comes to its end or is stopped.
* `Analysis.stored_facts_hold`, `Analysis.known_values_hold` — the facts shown to a hook about
  storage and about variables.
-/

namespace StorageFlow

variable {σ W : Type}

/-- The hook changes no expression; it may stop the analysis. -/
def Hook.Observes (hook : Hook σ) : Prop :=
  ∀ view e state, (hook view e state).node = e

theorem Hook.Observes.recorded {hook : Hook σ} (h : hook.Observes) : hook.recorded.Observes :=
  fun view e state => h view e state.1

theorem Hook.Observes.sound {hook : Hook σ} (h : hook.Observes) (context : Context)
    (M : Model context.dialect W) (trusted : Prop) : hook.Sound context M trusted where
  keepsStores view e state _ := h view e state
  eval _ calls env m _ := by rw [h]

namespace Analysis

variable {context : Context} {hook : Hook σ} {M : Model context.dialect W} {trusted : Prop}

/-- The knowledge holds in all of the given states. -/
def HoldsAt (k : Knowledge) (M : Model context.dialect W) (trusted : Prop)
    (reached : States W) : Prop :=
  ∀ calls env m, reached calls env m → k.Holds M trusted env m

/-- A call of a hook at a site: it is made on the expression of the site, and what the hook is shown
holds in each state in which the site is reached. -/
def Shown (M : Model context.dialect W) (trusted : Prop) (call : View × Expr) (site : Site W) :
    Prop :=
  call.2 = site.node ∧ HoldsAt call.1.knowledge M trusted site.reached

/-! ### Expressions -/

theorem node_operation (hobserves : hook.Observes) {e : Expr} {op : Operation}
    (hroot : e.root? = some op) {s : State σ} (h : (analyseExpr context hook e s).error? = none)
    (harguments : (analyseExprs context hook e.arguments s).node = e.arguments) :
    (analyseExpr context hook e s).node = e := by
  obtain ⟨_, heq⟩ := analyseExpr_operation hroot h
  rw [heq, harguments, Expr.withArguments_arguments]
  exact hobserves _ _ _

mutual

/-- An analysis with an observing hook leaves expressions as they are. -/
theorem node_analyseExpr (hobserves : hook.Observes) : ∀ (e : Expr) {s : State σ},
    (analyseExpr context hook e s).error? = none → (analyseExpr context hook e s).node = e
  | .literal _, _, _ => hobserves _ _ _
  | .identifier _, _, _ => hobserves _ _ _
  | .call _ arguments _, _, h =>
      node_operation hobserves rfl h
        (node_analyseExprs hobserves arguments (analyseExpr_operation rfl h).1)
  | .instruction _ arguments _, _, h =>
      node_operation hobserves rfl h
        (node_analyseExprs hobserves arguments (analyseExpr_operation rfl h).1)

theorem node_analyseExprs (hobserves : hook.Observes) : ∀ (es : List Expr) {s : State σ},
    (analyseExprs context hook es s).error? = none → (analyseExprs context hook es s).node = es
  | [], _, _ => rfl
  | e :: es, s, h => by
      obtain ⟨hfirst, hrest, heq⟩ := analyseExprs_cons h
      rw [heq, Step.node_done, node_analyseExpr hobserves e hfirst,
        node_analyseExprs hobserves es hrest]

end

variable {reached : States W}

theorem HoldsAt.mono {k k' : Knowledge} (h : HoldsAt k M trusted reached) (hsub : k'.Sub k) :
    HoldsAt k' M trusted reached :=
  fun _ _ _ hreached => (h _ _ _ hreached).mono hsub

theorem HoldsAt.after {k : Knowledge} {e : Expr} (h : HoldsAt k M trusted reached)
    (hsteady : Steady context k e.operations) (p : Word → Prop) :
    HoldsAt k M trusted (reached.after M e p) := by
  rintro calls env m' ⟨m, word, hreached, _, he⟩
  exact hsteady.eval (h _ _ _ hreached) he

theorem HoldsAt.afterAll {k : Knowledge} {es : List Expr} (h : HoldsAt k M trusted reached)
    (hsteady : Steady context k (Expr.operationsAll es)) :
    HoldsAt k M trusted (reached.afterAll M es) := by
  rintro calls env m' ⟨m, words, hreached, hes⟩
  exact hsteady.evalAll (h _ _ _ hreached) hes

/-- An operation is shown behind its arguments. -/
theorem records_operation (hobserves : hook.Observes) {e : Expr} {op : Operation}
    (hroot : e.root? = some op) {s : State (σ × Hook.Log)} {sites : List (Site W)}
    (hsteady : Steady context s.knowledge (Expr.operationsAll e.arguments))
    (h : HoldsAt s.knowledge M trusted reached)
    (harguments : Records (Shown M trusted) s.hook.2 sites
      (analyseExprs context hook.recorded e.arguments s)) :
    Records (Shown M trusted) s.hook.2 (sites ++ [e.operationSite M reached])
      (analyseExpr context hook.recorded e s) := by
  rw [analyseExpr_of_root? hroot]
  refine harguments.andThen fun hdone => ?_
  rw [node_analyseExprs hobserves.recorded _ hdone]
  have hsite : HoldsAt s.knowledge M trusted (e.operationSite M reached).reached := by
    rintro calls env m (hreached | hreached)
    · exact h _ _ _ hreached
    · exact h.afterAll hsteady _ _ _ hreached
  rw [← knowledge_analyseExprs e.arguments s] at hsite
  exact records_callHook ⟨Expr.withArguments_arguments e, hsite⟩

mutual

theorem records_analyseExpr (hobserves : hook.Observes) : ∀ (e : Expr)
    {s : State (σ × Hook.Log)} {reached : States W},
    Steady context s.knowledge (Expr.operationsAll e.arguments) →
      HoldsAt s.knowledge M trusted reached →
      Records (Shown M trusted) s.hook.2 (e.sites M reached) (analyseExpr context hook.recorded e s)
  | .literal _, _, _, _, h => records_callHook ⟨rfl, h⟩
  | .identifier _, _, _, _, h => records_callHook ⟨rfl, h⟩
  | .call _ arguments _, _, _, hsteady, h =>
      records_operation hobserves rfl hsteady h
        (records_analyseExprs hobserves arguments hsteady h)
  | .instruction _ arguments _, _, _, hsteady, h =>
      records_operation hobserves rfl hsteady h
        (records_analyseExprs hobserves arguments hsteady h)

theorem records_analyseExprs (hobserves : hook.Observes) : ∀ (es : List Expr)
    {s : State (σ × Hook.Log)} {reached : States W},
    Steady context s.knowledge (Expr.operationsAll es) → HoldsAt s.knowledge M trusted reached →
      Records (Shown M trusted) s.hook.2 (Expr.sitesAll M es reached)
        (analyseExprs context hook.recorded es s)
  | [], s, _, _, _ => .done rfl
  | e :: es, s, reached, hsteady, h => by
      have he : Steady context s.knowledge e.operations :=
        hsteady.mono fun _ hop => List.mem_append_left _ hop
      have hes : Steady context s.knowledge (Expr.operationsAll es) :=
        hsteady.mono fun _ hop => List.mem_append_right _ hop
      have harguments : Steady context s.knowledge (Expr.operationsAll e.arguments) :=
        he.mono fun _ hop => Expr.operationsAll_arguments hop
      have hrest : ∀ {reached : States W}, HoldsAt s.knowledge M trusted reached →
          Records (Shown M trusted) (analyseExpr context hook.recorded e s).state.hook.2
            (Expr.sitesAll M es reached)
            (analyseExprs context hook.recorded es
              (analyseExpr context hook.recorded e s).state) :=
        fun h => records_analyseExprs hobserves es (by rwa [knowledge_analyseExpr])
          (by rwa [knowledge_analyseExpr])
      unfold Expr.sitesAll
      split
      · exact (records_analyseExpr hobserves e harguments h).andThen fun _ =>
          hrest (h.after he _)
      · exact (records_analyseExpr hobserves e harguments (h.afterAll hes)).andThen fun _ =>
          hrest h

end

/-! ### Expressions in their places -/

section Places

variable {s : State (σ × Hook.Log)} {e : Expr}

theorem records_evaluate (hobserves : hook.Observes) (h : HoldsAt s.knowledge M trusted reached) :
    Records (Shown M trusted) s.hook.2 (e.sites M reached)
      (evaluate context hook.recorded e s) := by
  rw [← hook_forgetStorageIf (e.mayChangeStorage context.dialect)]
  exact records_analyseExpr hobserves e
    ((steady_forgetStorageIf e s).mono fun _ hop => Expr.operationsAll_arguments hop)
    (h.mono (sub_forgetStorageIf _ s))

theorem holdsAt_evaluate (h : HoldsAt s.knowledge M trusted reached) (p : Word → Prop) :
    HoldsAt (evaluate context hook.recorded e s).state.knowledge M trusted
      (reached.after M e p) := by
  rintro calls env m' ⟨m, word, hreached, _, he⟩
  exact holds_evaluate (h _ _ _ hreached) he

end Places

/-! ### Loops -/

section Loops

variable {s : State σ}

/-- What is known at the head of a loop holds there in each round. -/
theorem holdsAt_loopHead (condition : Expr) (post body : Block)
    (hcoherent : s.knowledge.Coherent context.dialect) (h : HoldsAt s.knowledge M trusted reached) :
    HoldsAt (loopHead context condition post body s).knowledge M trusted
      (reached.AtHead M condition post body) := by
  have frame := loopFrame hcoherent condition post body
  have hsub : (loopHead context condition post body s).knowledge.Sub s.knowledge :=
    (sub_forgetStorageIf _ _).trans (Knowledge.sub_clear _)
  have hround : ∀ {calls env m}, reached.AtHead M condition post body calls env m →
      ∃ env₀ m₀, reached calls env₀ m₀ ∧
        InLoop (loopHead context condition post body s).knowledge (body.assigned ++ post.assigned)
          env₀ m₀ env m := by
    intro calls env m hhead
    -- all rounds are compared with the state in front of the first one
    induction hhead with
    | @start calls env m hreached => exact ⟨env, m, hreached, fun _ _ => rfl, .inr rfl⟩
    | again _ hcondition _ hbody _ hpost _ ih =>
        obtain ⟨env₀, m₀, hreached, hin⟩ := ih
        have hin := frame.inLoop_condition hin hcondition
        have hin := frame.inLoop_body hin hbody
        exact ⟨env₀, m₀, hreached, frame.inLoop_post hin hpost⟩
  intro calls env m hhead
  obtain ⟨env₀, m₀, hreached, hin⟩ := hround hhead
  exact frame.holds ((h _ _ _ hreached).mono hsub) hin

/-- What is known at the post block of a loop holds there, however the body is left for it. -/
theorem LoopParts.holdsAt_behindBody {k k₁ kPost : Knowledge} {names : List Name}
    {condition : Expr} {post body body' : Block}
    (parts : LoopParts context k k₁ kPost names condition post body body')
    (hbody : Preserves M trusted k k₁ body.lateTargets (fun calls => body.exec M calls)
      (fun calls => body'.exec M calls))
    (h : HoldsAt k M trusted reached) : HoldsAt kPost M trusted (reached.behindBody M body) := by
  rintro calls env' m' ⟨env, m, flow, hreached, hflow, hrun⟩
  exact parts.holds_post hbody (h _ _ _ hreached) hrun hflow

end Loops

/-! ### Whole trees -/

mutual

theorem records_analyseStmt (hobserves : hook.Observes)
    (hrules : trusted → ∀ rule ∈ context.rules, rule ∈ RuleTable.standard) :
    ∀ (stmt : Stmt) {s : State (σ × Hook.Log)} {reached : States W},
      s.knowledge.Coherent context.dialect → HoldsAt s.knowledge M trusted reached →
      Records (Shown M trusted) s.hook.2 (stmt.sites M reached)
        (analyseStmt context hook.recorded stmt s)
  | .expression e _, s, _, _, h => by
      unfold analyseStmt
      split
      next htracked =>
        exact (records_analyseExpr hobserves e (steady_trackedStore htracked _) h).andThen_silent
          fun _ s => records_attempt_store _ s _ _
      next => exact (records_evaluate hobserves h).map _
  | .assign _ none _, s, _, _, _ => .stopped
  | .assign _ (some _) _, _, _, _, h =>
      (records_evaluate hobserves h).andThen_silent fun _ _ => .done rfl
  | .declare _ none _, s, _, _, _ => .done (hook_declare _ s)
  | .declare declared (some e) _, s, _, _, h => by
      rw [← knowledge_declare (declared.map Binder.name) s] at h
      rw [← hook_declare (declared.map Binder.name) s]
      exact (records_evaluate hobserves h).andThen_silent fun _ _ => .done rfl
  | .ifThen _ body _, _, _, hcoherent, h =>
      (records_evaluate hobserves h).andThen fun _ =>
        (records_analyseBlock hobserves hrules body (coherent_evaluate hcoherent)
          (holdsAt_evaluate h _)).andThen_silent
          fun _ _ => .done rfl
  | .switch _ cases _, _, _, hcoherent, h =>
      (records_evaluate hobserves h).andThen fun _ =>
        (records_analyseCases hobserves hrules cases (coherent_evaluate hcoherent)
          fun _ => holdsAt_evaluate h _).andThen_silent fun _ _ =>
            .done (hook_forgetStorageIf _)
  | .forLoop initial condition post body _, s, reached, hcoherent, h => by
      unfold analyseStmt
      split
      · have hsound := hobserves.recorded.sound context M trusted
        have hhead := holdsAt_loopHead condition post body hcoherent h
        have hknowledge : (analyseExpr context hook.recorded condition
            (loopHead context condition post body s)).state.knowledge = _ :=
          knowledge_analyseExpr condition _
        have hcoherentBody : Knowledge.Coherent context.dialect (analyseExpr context hook.recorded
            condition (loopHead context condition post body s)).state.knowledge :=
          coherent_loopBody condition post body hcoherent
        have hsteady : Steady context (loopHead context condition post body s).knowledge
            condition.operations :=
          (loopFrame hcoherent condition post body).steady.mono fun _ hop =>
            List.mem_append_left _ (List.mem_append_left _ hop)
        have hinside := hhead.after hsteady (· ≠ 0)
        -- condition, body and post block, in the order in which the hook is called
        rw [← hook_loopHead condition post body s]
        refine (records_analyseExpr hobserves condition
          (hsteady.mono fun _ hop => Expr.operationsAll_arguments hop) hhead).andThen fun _ => ?_
        refine (records_analyseBlock hobserves hrules body hcoherentBody
          (hknowledge ▸ hinside)).andThen fun hb => ?_
        have parts := loopParts hsound.keepsStores hcoherent hknowledge hb
        have hbody := (preserves_analyseBlock hsound hrules body hb hcoherentBody).1
        rw [hknowledge] at hbody
        rw [← hook_postHead body]
        exact (records_analyseBlock hobserves hrules post
          (coherent_postHead _ _ (coherent_analyseBlock body hcoherentBody))
          (parts.holdsAt_behindBody hbody hinside)).andThen_silent fun _ _ =>
            .done (hook_forgetStorageIf _)
      · exact .stopped
  | .function _ parameters results body _, s, _, hcoherent, _ => by
      rw [← hook_enterFunction (parameters.map Binder.name) (results.map Binder.name) s]
      have hentry : HoldsAt (s.enterFunction (parameters.map Binder.name)
          (results.map Binder.name)).knowledge M trusted
          (.atEntry (parameters.map Binder.name) (results.map Binder.name)) := by
        rintro calls env m ⟨words, _, rfl⟩
        exact holds_enterFunction _ _ words m
      have hbody := records_analyseBlock hobserves hrules body
        (coherent_enterFunction _ _ hcoherent) hentry
      exact hbody.mapState (f := (·.leaveFunction s.knowledge)) hook_closeScope
  | .breakLoop _, s, _, _, _ => .done rfl
  | .continueLoop _, s, _, _, _ => .done rfl
  | .block body, _, _, hcoherent, h =>
      (records_analyseBlock hobserves hrules body hcoherent h).map _

theorem records_analyseStmts (hobserves : hook.Observes)
    (hrules : trusted → ∀ rule ∈ context.rules, rule ∈ RuleTable.standard) :
    ∀ (stmts : List Stmt) {s : State (σ × Hook.Log)} {reached : States W},
      s.knowledge.Coherent context.dialect → HoldsAt s.knowledge M trusted reached →
      Records (Shown M trusted) s.hook.2 (Stmt.sitesAll M stmts reached)
        (analyseStmts context hook.recorded stmts s)
  | [], s, _, _, _ => .done rfl
  | stmt :: stmts, s, reached, hcoherent, h =>
      (records_analyseStmt hobserves hrules stmt hcoherent h).andThen fun hdone => by
        have hpreserves := (preserves_analyseStmt (hobserves.recorded.sound context M trusted)
          hrules stmt hdone hcoherent).1
        refine (records_analyseStmts hobserves hrules stmts (coherent_analyseStmt stmt hcoherent)
          ?_).map _
        rintro calls env' m' ⟨env, m, hreached, hrun⟩
        exact hpreserves.next (h _ _ _ hreached) hrun

theorem records_analyseCases (hobserves : hook.Observes)
    (hrules : trusted → ∀ rule ∈ context.rules, rule ∈ RuleTable.standard) :
    ∀ (cases : List Case) {s : State (σ × Hook.Log)} {reached : Nat → States W},
      s.knowledge.Coherent context.dialect → (∀ n, HoldsAt s.knowledge M trusted (reached n)) →
      Records (Shown M trusted) s.hook.2 (Case.sitesAll M cases reached)
        (analyseCases context hook.recorded cases s)
  | [], s, _, _, _ => .done rfl
  | ⟨value?, body, span⟩ :: cases, s, reached, hcoherent, h => by
      have hfirst : Records (Shown M trusted) s.hook.2 (body.sites M (reached 0))
          (analyseCase context hook.recorded ⟨value?, body, span⟩ s) :=
        (records_analyseBlock hobserves hrules body hcoherent (h 0)).andThen_silent
          fun _ _ => .done (hook_forgetStorageIf _)
      refine hfirst.andThen fun hdone => ?_
      obtain ⟨hb, hcase⟩ := analyseCase_mk hdone
      refine (records_analyseCases hobserves hrules cases
        (coherent_analyseCase _ hcoherent) fun n => (h (n + 1)).mono ?_).map _
      rw [hcase]
      exact (sub_forgetStorageIf _ _).trans (sub_branch hb)

theorem records_analyseBlock (hobserves : hook.Observes)
    (hrules : trusted → ∀ rule ∈ context.rules, rule ∈ RuleTable.standard) :
    ∀ (block : Block) {s : State (σ × Hook.Log)} {reached : States W},
      s.knowledge.Coherent context.dialect → HoldsAt s.knowledge M trusted reached →
      Records (Shown M trusted) s.hook.2 (block.sites M reached)
        (analyseBlock context hook.recorded block s)
  | ⟨stmts, _⟩, s, reached, hcoherent, h => by
      have hentered : HoldsAt s.knowledge M trusted (reached.entered M stmts) := by
        rintro calls env m ⟨outer, hreached, _⟩
        exact h _ _ _ hreached
      have hinner : Records (Shown M trusted) s.hook.2
          (Stmt.sitesAll M stmts (reached.entered M stmts))
          (analyseStmts context hook.recorded stmts (s.openScope false)) :=
        records_analyseStmts hobserves hrules stmts hcoherent hentered
      exact (hinner.mapState hook_closeScope).map _

end

/-! ### Whole runs -/

/-- The knowledge that a hook is shown is coherent. -/
theorem coherent_of_recorded {program : Block} {state : σ} {call : View × Expr}
    (h : call ∈ (run context hook.recorded program (.initial (state, []))).state.hook.2) :
    call.1.knowledge.Coherent context.dialect := by
  have inv := (coherent_invariant context hook).recorded
  have hstart : inv.At (.initial (state, [])) := ⟨Knowledge.coherent_empty, trivial, nofun⟩
  exact (inv.run program hstart).2.2 call h

/-- The call of a hook is made at a site of the program, and what the hook is shown holds in each
state in which the site is reached. -/
theorem shown_of_recorded (trusted : Prop) (hobserves : hook.Observes)
    (hrules : trusted → ∀ rule ∈ context.rules, rule ∈ RuleTable.standard) {program : Block}
    {state : σ} {i : Nat} {call : View × Expr}
    (h : (run context hook.recorded program (.initial (state, []))).state.hook.2[i]? = some call) :
    ∃ site, (program.sites M .atStart)[i]? = some site ∧ Shown M trusted call site := by
  have hstart : HoldsAt (State.initial (state, ([] : Hook.Log))).knowledge M trusted .atStart :=
    fun _ _ _ _ => Knowledge.holds_empty
  have hprogram := records_analyseBlock hobserves hrules program Knowledge.coherent_empty hstart
  exact (records_run hprogram).of_getElem? h

/-- Facts about storage are true. Whenever a hook that only observes is called, each value that it
is shown to be stored at a slot is stored there, in every state in which a run evaluates that
expression: after all branches, rounds of loops and ways to leave them. -/
theorem stored_facts_hold {dialect : Dialect} (M : Model dialect W) (config : Config)
    (hobserves : hook.Observes) (program : Block) (state : σ) {i : Nat} {view : View} {e : Expr}
    (hcall : (run { dialect, config } hook.recorded program
      (.initial (state, []))).state.hook.2[i]? = some (view, e)) :
    ∃ site, (program.sites M .atStart)[i]? = some site ∧ site.node = e ∧
      ∀ calls env m, site.reached calls env m →
        ∀ slot value, view.knowledge.storedAt? slot = some value →
          ∃ word, env slot = some word ∧ env value = some (m.storage word) := by
  obtain ⟨site, hsite, hnode, hholds⟩ :=
    shown_of_recorded True hobserves (fun _ _ h => h) hcall
  exact ⟨site, hsite, hnode.symm, fun calls env m hreached slot value hs =>
    (hholds calls env m hreached).stored trivial slot value hs⟩

/-- A store in front of a loop that loads from its slot in each round. -/
def loadedInLoop : Block :=
  .ofStatements [
    .declareAs ["slot"] (some (.native .calldataload [.number 0])),
    .declareAs ["value"] (some (.native .calldataload [.number 32])),
    .eval (.native .sstore [.ofName "slot", .ofName "value"]),
    .loop (.ofName "value") .empty (.ofStatements [
      .when (.native .sload [.ofName "slot"]) (.ofStatements [.breakLoop .synthetic])])]

/-- The load in the loop is the tenth expression. -/
theorem stored_facts_hold_loadedInLoop :
    let step := run { dialect := BuiltinTable.evm.toDialect } Hook.idle.recorded loadedInLoop
      (.initial ((), []))
    (Hook.idle (σ := Unit)).Observes ∧
      ∃ view e, step.state.hook.2[9]? = some (view, e) ∧
        view.knowledge.storedAt? "slot" = some "value" ∧
          ∀ (input : Word → Word) (depth rounds : Nat),
            ∃ site, (loadedInLoop.sites (W := Unit) (Model.native input depth rounds)
                .atStart)[9]? = some site ∧ site.node = e ∧
              ∀ calls env m, site.reached calls env m →
                ∃ word, env "slot" = some word ∧ env "value" = some (m.storage word) := by
  intro step
  have hfact : (step.state.hook.2[9]?.bind fun call => call.1.knowledge.storedAt? "slot") =
      some "value" := by decide +kernel
  obtain ⟨⟨view, e⟩, hcall, hstored⟩ := Option.bind_eq_some_iff.1 hfact
  refine ⟨fun _ _ _ => rfl, view, e, hcall, hstored, fun input depth rounds => ?_⟩
  obtain ⟨site, hsite, hnode, hholds⟩ := stored_facts_hold (Model.native input depth rounds) {}
    (fun _ _ _ => rfl) loadedInLoop () hcall
  exact ⟨site, hsite, hnode, fun calls env m hreached => hholds calls env m hreached _ _ hstored⟩

/-- Known values are true. Whenever a hook that only observes is called, each variable holds the
word of the value that it is shown to have, in every state in which a run evaluates that expression.
The word of the value is the one that its evaluation ends with, wherever it comes to its end. -/
theorem known_values_hold {context : Context} (M : Model context.dialect W)
    (hobserves : hook.Observes) (program : Block) (state : σ) {i : Nat} {view : View} {e : Expr}
    (hcall : (run context hook.recorded program
      (.initial (state, []))).state.hook.2[i]? = some (view, e)) :
    ∃ site, (program.sites M .atStart)[i]? = some site ∧ site.node = e ∧
      ∀ calls env m, site.reached calls env m →
        ∀ x value, view.knowledge.value? x = some value →
          ∃ word, env x = some word ∧ value.valueIn M env = some word ∧
            ∀ calls m words m', value.eval M calls env m = .done words m' → words = [word] := by
  obtain ⟨site, hsite, hnode, hholds⟩ :=
    shown_of_recorded False hobserves (fun h => h.elim) hcall
  have hcoherent := coherent_of_recorded (List.mem_of_getElem? hcall)
  refine ⟨site, hsite, hnode.symm, fun calls env m hreached x value hx => ?_⟩
  obtain ⟨word, hword, hvalue⟩ :=
    (hholds calls env m hreached).values x value hx List.not_mem_nil
  refine ⟨word, hword, hvalue, fun calls m words m' hwords => ?_⟩
  rw [Expr.valueIn_of_eval value (hcoherent.movable hx) hwords] at hvalue
  exact Expr.onlyWord?_eq_some.1 hvalue

theorem known_values_hold_loadedInLoop :
    let step := run { dialect := BuiltinTable.evm.toDialect } Hook.idle.recorded loadedInLoop
      (.initial ((), []))
    let value := Expr.native .calldataload [.number 32]
    (Hook.idle (σ := Unit)).Observes ∧
      ∃ view e, step.state.hook.2[9]? = some (view, e) ∧
        view.knowledge.value? "value" = some value ∧
          ∀ (input : Word → Word) (depth rounds : Nat),
            ∃ site, (loadedInLoop.sites (W := Unit) (Model.native input depth rounds)
                .atStart)[9]? = some site ∧ site.node = e ∧
              ∀ calls env m, site.reached calls env m →
                ∃ word, env "value" = some word ∧
                  value.valueIn (W := Unit) (Model.native input depth rounds) env = some word := by
  intro step value
  have hfact : (step.state.hook.2[9]?.bind fun call => call.1.knowledge.value? "value") =
      some value := by decide +kernel
  obtain ⟨⟨view, e⟩, hcall, hknown⟩ := Option.bind_eq_some_iff.1 hfact
  refine ⟨fun _ _ _ => rfl, view, e, hcall, hknown, fun input depth rounds => ?_⟩
  obtain ⟨site, hsite, hnode, hholds⟩ := known_values_hold (Model.native input depth rounds)
    (fun _ _ _ => rfl) loadedInLoop () hcall
  refine ⟨site, hsite, hnode, fun calls env m hreached => ?_⟩
  obtain ⟨word, hword, hvalue, _⟩ := hholds calls env m hreached _ _ hknown
  exact ⟨word, hword, hvalue⟩

end Analysis

end StorageFlow
