import StorageFlow.Proofs.Analysis.Isolation
import StorageFlow.Proofs.Knowledge.Mentions
import StorageFlow.Proofs.Pass.Settled

/-!
# StorageFlow.Proofs.Pass.Visibility

What is known mentions visible variables only.

* `Analysis.Tidy` — the names in the knowledge are visible, and so they were at each call of the
  hook. Every change of the state keeps this (`Tidy.assign`, `Tidy.closeScope`, …).
* `Analysis.tidy_analyseBlock` — so does the analysis of a scoped program, whether it comes to its
  end or is stopped.
* `Analysis.mentions_visible` — nothing else is mentioned in a run, and nothing is left behind it.
-/

namespace StorageFlow

/-! ### Hooks -/

/-- All names that are mentioned in what is shown are visible. -/
def View.MentionsVisible (view : View) : Prop :=
  ∀ x, view.knowledge.Mentions x → view.isVisible x = true

variable {σ : Type}

namespace Hook.WritesVisible

theorem idle : (Hook.idle : Hook σ).WritesVisible :=
  fun _ _ _ h => h

theorem andThen {first second : Hook σ} (h : first.WritesVisible) (h' : second.WritesVisible) :
    (first.andThen second).WritesVisible := by
  intro view e state hreads
  unfold Hook.andThen Step.andThen
  split
  · exact h' view _ _ (h view e state hreads)
  · exact h view e state hreads

theorem recorded {hook : Hook σ} (h : hook.WritesVisible) : hook.recorded.WritesVisible :=
  fun view e state => h view e state.1

end Hook.WritesVisible

namespace Pass

theorem writesVisible_hookOf : ∀ passes : List Pass, (hookOf passes).WritesVisible
  | [] => .idle
  | pass :: passes => pass.writesVisible_hook.andThen (writesVisible_hookOf passes)

end Pass

/-! ### Scopes -/

/-- Declared names hide none. -/
theorem Sees.addNames {scopes : List Scope} {x : Name} (h : Sees scopes x) (names : List Name) :
    Sees (Analysis.addNames names scopes) x := by
  cases scopes with
  | nil => exact h
  | cons scope outer => exact (sees_addNames (List.cons_ne_nil _ _)).2 (.inr h)

theorem Analysis.addNames_ne_nil {scopes : List Scope} (h : scopes ≠ []) (names : List Name) :
    addNames names scopes ≠ [] := by
  cases scopes with
  | nil => exact absurd rfl h
  | cons scope outer => exact List.cons_ne_nil _ _

namespace Analysis

variable {context : Context} {hook : Hook σ} {names visible : List Name}
  {s s' : State (σ × Hook.Log)}

/-! ### The invariant -/

/-- The names in the knowledge are visible, and so they were at each call of the hook. -/
structure Tidy (context : Context) (s : State (σ × Hook.Log)) : Prop where
  coherent : s.knowledge.Coherent context.dialect
  mentions : ∀ {x}, s.knowledge.Mentions x → Sees s.scopes x
  calls : ∀ call ∈ s.hook.2, call.1.MentionsVisible

namespace Tidy

theorem mono (h : Tidy context s) (hcoherent : s'.knowledge.Coherent context.dialect)
    (hmentions : ∀ {x}, s'.knowledge.Mentions x → s.knowledge.Mentions x)
    (hscopes : s'.scopes = s.scopes) (hhook : s'.hook = s.hook) : Tidy context s' where
  coherent := hcoherent
  mentions hx := hscopes ▸ h.mentions (hmentions hx)
  calls := hhook ▸ h.calls

theorem clear (h : Tidy context s) (names : List Name) : Tidy context (s.clear names) :=
  h.mono (h.coherent.clear names) (fun hx => (h.coherent.of_mentions_clear hx).1) rfl rfl

theorem joinStorage (h : Tidy context s) (before : TwoWayMap Name) :
    Tidy context (s.joinStorage before) :=
  h.mono (h.coherent.joinStorage before) Knowledge.of_mentions_joinStorage rfl rfl

theorem forgetStorageIf (h : Tidy context s) (changed : Bool) :
    Tidy context (s.forgetStorageIf changed) := by
  cases changed with
  | true => exact h.mono h.coherent.forgetStorage Knowledge.of_mentions_forgetStorage rfl rfl
  | false => exact h

theorem openScope (h : Tidy context s) : Tidy context (s.openScope false) where
  coherent := h.coherent
  mentions hx := sees_cons.2 (.inr ⟨rfl, h.mentions hx⟩)
  calls := h.calls

/-- The names of a closed scope are not mentioned any more. -/
theorem closeScope (h : Tidy context s) {scope : Scope} {outer : List Scope}
    (hscopes : s.scopes = scope :: outer) : Tidy context s.closeScope := by
  have hclosed : s.closeScope =
      ({ s with scopes := outer } : State (σ × Hook.Log)).clear scope.names.toList := by
    rw [State.closeScope, hscopes]
  rw [hclosed]
  refine ⟨h.coherent.clear _, fun {x} hx => ?_, h.calls⟩
  obtain ⟨hx, hmem⟩ := h.coherent.of_mentions_clear hx
  have hsees := h.mentions hx
  rw [hscopes, sees_cons] at hsees
  rcases hsees with hinner | ⟨_, houter⟩
  · exact absurd (Std.ExtTreeSet.mem_toList.2 hinner) hmem
  · exact houter

theorem declare (h : Tidy context s) (names : List Name) : Tidy context (s.declare names) where
  coherent := coherent_declare names h.coherent
  mentions hx := by
    rw [knowledge_declare] at hx
    rw [State.scopes_declare]
    exact (h.mentions hx).addNames names
  calls := by
    rw [hook_declare]
    exact h.calls

/-- An assignment of visible variables to visible variables. -/
theorem assign (h : Tidy context s) {e : Expr} (hnames : ∀ x ∈ names, Sees s.scopes x)
    (hreads : ∀ y ∈ e.reads, Sees s.scopes y) : Tidy context (s.assign context names e) where
  coherent := h.coherent.assign names e
  mentions hx := by
    rcases h.coherent.of_mentions_assign hx with hx | hx | hx
    · exact h.mentions hx
    · exact hnames _ hx
    · exact hreads _ hx
  calls := h.calls

theorem assignZero (h : Tidy context s) (hnames : ∀ x ∈ names, Sees s.scopes x) :
    Tidy context (s.assignZero names) where
  coherent := h.coherent.assignZero names
  mentions hx := by
    rcases h.coherent.of_mentions_assignZero hx with hx | hx
    · exact h.mentions hx
    · exact hnames _ hx
  calls := h.calls

/-- A store that fails leaves the state as it was. -/
theorem store {α : Type} (h : Tidy context s) (node : α) {slot value : Name}
    (hslot : Sees s.scopes slot) (hvalue : Sees s.scopes value) :
    Tidy context (Step.attempt node s (s.store context slot value)).state := by
  unfold State.store
  cases hstore : s.knowledge.store (context.simplifier s.knowledge) slot value with
  | error error => exact h
  | ok k =>
      refine ⟨h.coherent.store hstore, fun {x} hx => ?_, h.calls⟩
      rcases Knowledge.of_mentions_store hstore hx with hx | rfl | rfl
      · exact h.mentions hx
      · exact hslot
      · exact hvalue

theorem declareResults (results : List Name) (h : Tidy context s) (hopened : s.scopes ≠ []) :
    Tidy context (s.declareResults results) := by
  induction results generalizing s with
  | nil => exact h
  | cons name results ih =>
      have hdeclared : (s.declare [name]).scopes ≠ [] := by
        rw [State.scopes_declare]
        exact addNames_ne_nil hopened _
      refine ih ((h.declare [name]).assignZero fun x hx => ?_) hdeclared
      rw [State.scopes_declare]
      exact (sees_addNames hopened).2 (.inl hx)

/-- At the start of a function nothing is mentioned but its results. -/
theorem enterFunction (h : Tidy context s) (parameters results : List Name) :
    Tidy context (s.enterFunction parameters results) := by
  have hempty : Tidy context (({ s with knowledge := ∅ } : State (σ × Hook.Log)).openScope true) :=
    ⟨Knowledge.coherent_empty, fun hx => absurd hx Knowledge.not_mentions_empty, h.calls⟩
  refine (hempty.declare parameters).declareResults results ?_
  rw [State.scopes_declare]
  exact addNames_ne_nil (List.cons_ne_nil _ _) _

/-- Behind a function, what is known is what was known in front of it. -/
theorem leaveFunction (h : Tidy context s) {inner : State (σ × Hook.Log)}
    (hinner : Tidy context inner) {scope : Scope} (hscopes : inner.scopes = scope :: s.scopes) :
    Tidy context (inner.leaveFunction s.knowledge) := by
  rw [leaveFunction_eq, hscopes, List.tail_cons]
  exact ⟨h.coherent, h.mentions, hinner.calls⟩

end Tidy

/-! ### Expressions -/

theorem tidy_callHook (e : Expr) (h : Tidy context s) :
    Tidy context (callHook context hook.recorded e s).state := by
  refine ⟨h.coherent, h.mentions, fun call hcall => ?_⟩
  rcases List.mem_append.1 hcall with hcall | hcall
  · exact h.calls call hcall
  · obtain rfl := List.mem_singleton.1 hcall
    exact fun x => h.mentions

mutual

theorem tidy_analyseExpr : ∀ (e : Expr) {s : State (σ × Hook.Log)}, Tidy context s →
    Tidy context (analyseExpr context hook.recorded e s).state
  | .literal _, _, h => tidy_callHook _ h
  | .identifier _, _, h => tidy_callHook _ h
  | .call _ arguments _, _, h =>
      Step.state_andThen (P := Tidy context) (tidy_analyseExprs arguments h)
        fun _ _ => tidy_callHook _
  | .instruction _ arguments _, _, h =>
      Step.state_andThen (P := Tidy context) (tidy_analyseExprs arguments h)
        fun _ _ => tidy_callHook _

theorem tidy_analyseExprs : ∀ (es : List Expr) {s : State (σ × Hook.Log)}, Tidy context s →
    Tidy context (analyseExprs context hook.recorded es s).state
  | [], _, h => h
  | e :: es, _, h =>
      Step.state_andThen (P := Tidy context) (tidy_analyseExpr e h)
        fun _ _ => tidy_analyseExprs es

end

theorem tidy_evaluate (e : Expr) (h : Tidy context s) :
    Tidy context (evaluate context hook.recorded e s).state :=
  tidy_analyseExpr e (h.forgetStorageIf _)

/-! ### Statements -/

/-- Some scope is open, and the names are visible. -/
structure Offers (scopes : List Scope) (visible : List Name) : Prop where
  opened : scopes ≠ []
  sees : ∀ x ∈ visible, Sees scopes x

namespace Offers

variable {scopes : List Scope}

theorem declare (h : Offers scopes visible) (names : List Name) :
    Offers (addNames names scopes) (names ++ visible) where
  opened := addNames_ne_nil h.opened names
  sees x hx := (sees_addNames h.opened).2 ((List.mem_append.1 hx).imp_right (h.sees x))

theorem reads (h : Offers scopes visible) {e : Expr} (hscoped : e.isScoped visible = true) :
    ∀ y ∈ e.reads, Sees scopes y :=
  fun y hy => h.sees y (Expr.isScoped_iff.1 hscoped y hy)

theorem sees_analyseExpr {s : State σ} (h : Offers s.scopes visible) (e : Expr) :
    ∀ x ∈ visible, Sees (analyseExpr context hook e s).state.scopes x := by
  rw [scopes_analyseExpr]
  exact h.sees

theorem sees_evaluate {s : State σ} (h : Offers s.scopes visible) (e : Expr) :
    ∀ x ∈ visible, Sees (evaluate context hook e s).state.scopes x := by
  rw [scopes_evaluate]
  exact h.sees

end Offers

/-- The operands of a tracked store are visible if all that the expression reads is. -/
theorem sees_trackedStore {e : Expr} {slot value : Name} {scopes : List Scope}
    (htracked : context.trackedStore? e = some (slot, value))
    (hreads : ∀ y ∈ e.reads, Sees scopes y) : Sees scopes slot ∧ Sees scopes value := by
  obtain ⟨op, x, y, hroot, harguments, rfl, rfl, _⟩ := trackedStore?_eq_some htracked
  have hmem : ∀ z ∈ [x.name, y.name], Sees scopes z := by
    rw [Expr.reads_of_root? hroot, harguments] at hreads
    exact hreads
  exact ⟨hmem _ List.mem_cons_self, hmem _ (List.mem_cons_of_mem _ List.mem_cons_self)⟩

/-- An assignment of what the hook makes of an expression that reads visible variables. -/
theorem tidy_evaluate_assign (hwrites : hook.WritesVisible) {e : Expr} (h : Tidy context s)
    (hreads : ∀ y ∈ e.reads, Sees s.scopes y) (hnames : ∀ x ∈ names, Sees s.scopes x) :
    let value := evaluate context hook.recorded e s
    Tidy context (value.state.assign context names value.node) := by
  refine (tidy_evaluate e h).assign ?_ ?_
  · rw [scopes_evaluate]
    exact hnames
  · rw [scopes_evaluate]
    exact sees_evaluate hwrites.recorded hreads

mutual

theorem tidy_analyseStmt (hwrites : hook.WritesVisible) : ∀ (stmt : Stmt) {visible : List Name}
    {s : State (σ × Hook.Log)}, stmt.isScoped visible = true → Offers s.scopes visible →
      Tidy context s → Tidy context (analyseStmt context hook.recorded stmt s).state
  | .expression e _, _, s, hscoped, hoffers, h => by
      have hreads := hoffers.reads hscoped
      unfold analyseStmt
      split
      next slot value htracked =>
        have hoperands := sees_trackedStore htracked hreads
        refine Step.state_andThen_of (P := Tidy context) (tidy_analyseExpr e h) fun _ h => ?_
        rw [← scopes_analyseExpr e s] at hoperands
        exact h.store _ hoperands.1 hoperands.2
      next => exact tidy_evaluate e h
  | .assign _ none _, _, _, _, _, h => h
  | .assign targets (some e) _, _, _, hscoped, hoffers, h => by
      rw [Stmt.isScoped, Bool.and_eq_true] at hscoped
      obtain ⟨htargets, hscoped⟩ := hscoped
      refine Step.state_andThen_of (P := Tidy context) (tidy_evaluate e h) fun _ _ => ?_
      refine tidy_evaluate_assign hwrites h (hoffers.reads hscoped) fun x hx => ?_
      exact hoffers.sees x (List.contains_iff_mem.1 (List.all_eq_true.1 htargets x hx))
  | .declare declared none _, _, _, _, hoffers, h => by
      refine (h.declare (declared.map Binder.name)).assignZero fun x hx => ?_
      rw [State.scopes_declare]
      exact (hoffers.declare _).sees x (List.mem_append_left _ hx)
  | .declare declared (some e) _, _, _, hscoped, hoffers, h => by
      have hdeclared := hoffers.declare (declared.map Binder.name)
      rw [← State.scopes_declare] at hdeclared
      refine Step.state_andThen_of (P := Tidy context) (tidy_evaluate e (h.declare _)) fun _ _ => ?_
      refine tidy_evaluate_assign hwrites (h.declare _) (hdeclared.reads hscoped) fun x hx => ?_
      exact hdeclared.sees x (List.mem_append_left _ hx)
  | .ifThen condition body _, _, s, hscoped, hoffers, h => by
      rw [Stmt.isScoped, Bool.and_eq_true] at hscoped
      refine Step.state_andThen_of (P := Tidy context) (tidy_evaluate condition h) fun _ h => ?_
      refine Step.state_andThen_of (P := Tidy context)
        (tidy_analyseBlock hwrites body hscoped.2 (hoffers.sees_evaluate _) h) fun _ h => ?_
      exact (h.joinStorage _).clear _
  | .switch scrutinee cases _, _, s, hscoped, hoffers, h => by
      rw [Stmt.isScoped, Bool.and_eq_true] at hscoped
      refine Step.state_andThen_of (P := Tidy context) (tidy_evaluate scrutinee h) fun _ h => ?_
      refine Step.state_andThen_of (P := Tidy context)
        (tidy_analyseCases hwrites cases hscoped.2 (hoffers.sees_evaluate _) h) fun _ h => ?_
      exact (h.forgetStorageIf _).clear _
  | .forLoop initial condition post body _, visible, s, hscoped, hoffers, h => by
      unfold analyseStmt
      split
      next hinitial =>
        obtain ⟨_, hpost, hbody⟩ := Stmt.isScoped_forLoop hinitial hscoped
        have hhead : Tidy context (loopHead context condition post body s) :=
          (h.clear _).forgetStorageIf _
        have hscopes : (loopHead context condition post body s).scopes = s.scopes :=
          State.scopes_forgetStorageIf _
        rw [← hscopes] at hoffers
        refine Step.state_andThen_of (P := Tidy context) (tidy_analyseExpr condition hhead)
          fun _ h => ?_
        refine Step.state_andThen_of (P := Tidy context)
          (tidy_analyseBlock hwrites body hbody (hoffers.sees_analyseExpr _) h) fun _ h => ?_
        refine Step.state_andThen_of (P := Tidy context)
          (tidy_analyseBlock hwrites post hpost ?_ ((h.clear _).forgetStorageIf _))
          fun _ h => (h.clear _).forgetStorageIf _
        rw [State.scopes_forgetStorageIf, State.scopes_clear, analyseBlock_scopes]
        exact hoffers.sees_analyseExpr _
      next => exact h
  | .function _ parameters results body _, _, s, hscoped, _, h => by
      obtain ⟨_, hscopes⟩ := scopes_functionBody (parameters.map Binder.name)
        (results.map Binder.name) body s
      refine h.leaveFunction (tidy_analyseBlock hwrites body hscoped ?_ (h.enterFunction _ _))
        hscopes
      intro x hx
      rw [State.scopes_enterFunction]
      exact (sees_addNames (List.cons_ne_nil _ _)).2 (.inl hx)
  | .breakLoop _, _, _, _, _, h => h
  | .continueLoop _, _, _, _, _, h => h
  | .block body, _, _, hscoped, hoffers, h => tidy_analyseBlock hwrites body hscoped hoffers.sees h

theorem tidy_analyseStmts (hwrites : hook.WritesVisible) : ∀ (stmts : List Stmt)
    {visible : List Name} {s : State (σ × Hook.Log)}, Stmt.areScoped stmts visible = true →
      Offers s.scopes visible → Tidy context s →
        Tidy context (analyseStmts context hook.recorded stmts s).state
  | [], _, _, _, _, h => h
  | stmt :: stmts, _, s, hscoped, hoffers, h => by
      rw [Stmt.areScoped, Bool.and_eq_true] at hscoped
      refine Step.state_andThen_of (P := Tidy context)
        (tidy_analyseStmt hwrites stmt hscoped.1 hoffers h) fun hdone h => ?_
      -- behind a statement that came to its end, its declarations are visible
      obtain ⟨names, hscopes, hnames⟩ := analyseStmt_scopes stmt s
      have hoffers := hoffers.declare names
      rw [← hscopes, hnames hdone] at hoffers
      exact tidy_analyseStmts hwrites stmts hscoped.2 hoffers h

theorem tidy_analyseCases (hwrites : hook.WritesVisible) : ∀ (cases : List Case)
    {visible : List Name} {s : State (σ × Hook.Log)}, Case.areScoped cases visible = true →
      (∀ x ∈ visible, Sees s.scopes x) → Tidy context s →
        Tidy context (analyseCases context hook.recorded cases s).state
  | [], _, _, _, _, h => h
  | ⟨value?, body, span⟩ :: cases, _, s, hscoped, hsees, h => by
      rw [Case.areScoped, Bool.and_eq_true] at hscoped
      have hcase : Tidy context
          (analyseCase context hook.recorded ⟨value?, body, span⟩ s).state :=
        Step.state_andThen_of (P := Tidy context)
          (tidy_analyseBlock hwrites body hscoped.1 hsees h)
          fun _ h => ((h.joinStorage _).clear _).forgetStorageIf _
      have hscopes : (analyseCase context hook.recorded ⟨value?, body, span⟩ s).state.scopes =
          s.scopes :=
        scopes_andThen (analyseBlock_scopes body s)
          fun _ _ h => (State.scopes_forgetStorageIf _).trans h
      exact Step.state_andThen_of (P := Tidy context) hcase
        fun _ h => tidy_analyseCases hwrites cases hscoped.2 (hscopes ▸ hsees) h

/-- The analysis of a scoped block keeps the invariant, whether it comes to its end or is
stopped. -/
theorem tidy_analyseBlock (hwrites : hook.WritesVisible) : ∀ (block : Block)
    {visible : List Name} {s : State (σ × Hook.Log)}, block.isScoped visible = true →
      (∀ x ∈ visible, Sees s.scopes x) → Tidy context s →
        Tidy context (analyseBlock context hook.recorded block s).state
  | ⟨stmts, _⟩, visible, s, hscoped, hsees, h => by
      obtain ⟨_, _, hscopes⟩ := scopes_inBlock stmts s
      have hoffers : Offers (s.openScope false).scopes visible :=
        ⟨List.cons_ne_nil _ _, fun x hx => sees_cons.2 (.inr ⟨rfl, hsees x hx⟩)⟩
      exact (tidy_analyseStmts hwrites stmts hscoped hoffers h.openScope).closeScope hscopes

end

/-! ### Runs -/

/-- In a run over a scoped program, whatever the dialect, the rules and the passes, known values,
the provenance and the facts about storage mention visible variables only at each call of the hook.
Behind the run, also behind an error, nothing is left of them. -/
theorem mentions_visible (context : Context) (passes : List Pass) (counts : PassCounts)
    (program : Block) (hscoped : program.isScoped [] = true) :
    (∀ call ∈ runCalls context (Pass.hookOf passes) program (.initial counts),
        call.1.MentionsVisible) ∧
      (run context (Pass.hookOf passes) program (.initial counts)).state.knowledge = ∅ := by
  let hook := Pass.hookOf passes
  let start : State (PassCounts × Hook.Log) := .initial (counts, [])
  have hstart : Tidy context start :=
    ⟨Knowledge.coherent_empty, fun hx => absurd hx Knowledge.not_mentions_empty, nofun⟩
  have hend : Tidy context (run context hook.recorded program start).state := by
    rw [run_state]
    exact tidy_analyseBlock (Pass.writesVisible_hookOf passes) program hscoped nofun hstart
  refine ⟨hend.calls, ?_⟩
  rw [run_recorded program (.initial counts) []]
  refine hend.coherent.eq_empty fun x hx => ?_
  -- no scope is open any more, so that no name is visible
  have hsees := hend.mentions hx
  rw [run_state, analyseBlock_scopes] at hsees
  cases hsees

/-- An inner block declares a variable again, and a function stops the run. -/
def redeclaresAndStops : Block :=
  .ofStatements [
    .declareAs ["x"] (some (.native .calldataload [.number 0])),
    .declareAs ["y"] (some (.ofName "x")),
    .block (.ofStatements [
      .declareAs ["x"] (some (.ofName "y")),
      .eval (.native .sstore [.ofName "x", .ofName "y"])]),
    .define "f" ["a"] ["r"] (.ofStatements [
      .declareAs ["b"] (some (.ofName "a")),
      .assign [.ofName "r"] none .synthetic])]

theorem mentions_visible_redeclared :
    let context : Context := { dialect := BuiltinTable.evm.toDialect }
    let calls := runCalls context (Pass.hookOf [.loadForwarding]) redeclaresAndStops (.initial {})
    redeclaresAndStops.isScoped [] = true ∧
      (calls.any fun call => call.1.knowledge.value? "x" == some (.ofName "y")) = true ∧
      (run context (Pass.hookOf [.loadForwarding]) redeclaresAndStops (.initial {})).error? =
        some (.missingValue "r" .synthetic) ∧
      (∀ call ∈ calls, call.1.MentionsVisible) ∧
      (run context (Pass.hookOf [.loadForwarding]) redeclaresAndStops
        (.initial {})).state.knowledge = ∅ := by
  intro context calls
  have hscoped : redeclaresAndStops.isScoped [] = true := by decide +kernel
  obtain ⟨hcalls, hknowledge⟩ :=
    mentions_visible context [.loadForwarding] {} redeclaresAndStops hscoped
  exact ⟨hscoped, by decide +kernel, by decide +kernel, hcalls, hknowledge⟩

end Analysis

end StorageFlow
