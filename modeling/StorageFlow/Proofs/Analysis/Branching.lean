import StorageFlow.Proofs.Analysis.Growth
import StorageFlow.Proofs.Analysis.Reachable

/-!
# StorageFlow.Proofs.Analysis.Branching

Exactly which values are known behind a block.

* `Untouched` — neither a variable nor the variables that its value reads are among some names.
* `Coherent.value?_clear_iff` — clearing names keeps exactly the untouched values.
* `value?_analyseBlock_iff` — a value of variables that a block does not assign is known behind it
  exactly if it was known before and is untouched by all that the block writes, at any depth.
* `branching_keeps_untouched` — a branch, a switch or a loop keeps exactly the untouched values.

A branch forgets what it assigns, at the latest at its end, so the condition of
`value?_analyseBlock_iff` is met for each value that is known behind it.
-/

namespace StorageFlow

variable {x : Name} {e : Expr}

/-- Neither the variable nor one that its value reads is among `names`. -/
def Untouched (names : List Name) (x : Name) (e : Expr) : Prop :=
  x ∉ names ∧ ∀ y ∈ e.reads, y ∉ names

namespace Untouched

variable {names names' : List Name}

theorem nil : Untouched [] x e :=
  ⟨List.not_mem_nil, fun _ _ => List.not_mem_nil⟩

theorem of_subset (h : Untouched names' x e) (hsub : names ⊆ names') : Untouched names x e :=
  ⟨fun hx => h.1 (hsub hx), fun y hy hmem => h.2 y hy (hsub hmem)⟩

theorem congr (h : ∀ y, y ∈ names ↔ y ∈ names') : Untouched names x e ↔ Untouched names' x e :=
  ⟨(·.of_subset fun y hy => (h y).2 hy), (·.of_subset fun y hy => (h y).1 hy)⟩

theorem append_iff :
    Untouched (names ++ names') x e ↔ Untouched names x e ∧ Untouched names' x e := by
  simp only [Untouched, List.mem_append, not_or, forall_and]
  exact and_and_and_comm

theorem assigned_iff {block : Block} :
    Untouched block.assigned x e ↔ Untouched block.targets x e :=
  congr fun _ => Block.mem_assigned

theorem flatMap_assigned_iff {cases : List Case} :
    Untouched (cases.flatMap fun case => case.body.assigned) x e ↔
      Untouched (Case.targetsAll cases) x e := by
  induction cases with
  | nil => rfl
  | cons case cases ih =>
      obtain ⟨_, body, _⟩ := case
      rw [List.flatMap_cons, append_iff, assigned_iff, ih, ← append_iff]
      rfl

/-- What is said of the values untouched by some names can be said of those untouched by more names,
if the latter makes sure of the former. -/
theorem and_iff_of_subset {p q : Prop} (hsub : names ⊆ names')
    (h : Untouched names x e → (p ↔ q ∧ Untouched names' x e)) :
    p ∧ Untouched names x e ↔ q ∧ Untouched names' x e := by
  rw [and_congr_left h]
  exact and_iff_left_of_imp fun hq => hq.2.of_subset hsub

end Untouched

/-- Whether the statement is a branch, a switch or a loop. -/
def Stmt.isBranching : Stmt → Bool
  | .ifThen _ _ _ => true
  | .switch _ _ _ => true
  | .forLoop _ _ _ _ _ => true
  | _ => false

/-! ### Changes of the knowledge -/

namespace Knowledge

variable {dialect : Dialect} {k : Knowledge} {names : List Name}

/-- Clearing names keeps exactly the untouched values. -/
theorem Coherent.value?_clear_iff (h : k.Coherent dialect) :
    (k.clear names).value? x = some e ↔ k.value? x = some e ∧ Untouched names x e := by
  constructor
  · exact fun hx => ⟨(value?_of_clear hx).1, h.not_mem_of_value?_clear hx⟩
  · rintro ⟨hx, hmem, hreads⟩
    refine h.value?_clear_eq_some.2 ⟨hx, ?_⟩
    rintro (haffected | ⟨name, hname, hlinked⟩)
    · exact hmem haffected
    · exact hreads name ((h.linked_iff hx name).1 hlinked) hname

theorem Coherent.value?_assign_iff (h : k.Coherent dialect) {value : Expr} (hx : x ∉ names) :
    (k.assign dialect names value).value? x = some e ↔
      k.value? x = some e ∧ Untouched names x e := by
  have hlearns : ¬ Learns dialect names value x := fun hlearns =>
    hx (hlearns.1 ▸ List.mem_singleton_self x)
  rw [value?_assign_eq_some, ← h.value?_clear_iff]
  simp only [hlearns, false_and, not_false_eq_true, true_and, false_or]

theorem Coherent.value?_assignZero_iff (h : k.Coherent dialect) (hx : x ∉ names) :
    (k.assignZero names).value? x = some e ↔ k.value? x = some e ∧ Untouched names x e := by
  rw [value?_assignZero, if_neg hx, h.value?_clear_iff]

end Knowledge

namespace Analysis

variable {σ : Type} {context : Context} {hook : Hook σ} {s : State σ} {span : Span}

theorem value?_evaluate (value : Expr) (x : Name) :
    (evaluate context hook value s).state.knowledge.value? x = s.knowledge.value? x := by
  rw [knowledge_evaluate, value?_forgetStorageIf]

theorem coherent_declare (names : List Name) (h : s.knowledge.Coherent context.dialect) :
    (s.declare names).knowledge.Coherent context.dialect := by
  rw [knowledge_declare]
  exact h

/-- An assignment keeps the untouched ones of the values of other variables. -/
theorem value?_evaluate_assign_iff {names : List Name} (value assigned : Expr)
    (hcoherent : s.knowledge.Coherent context.dialect) (hx : x ∉ names) :
    ((evaluate context hook value s).state.assign context names assigned).knowledge.value? x =
        some e ↔
      s.knowledge.value? x = some e ∧ Untouched names x e := by
  have hvalue : (evaluate context hook value s).state.knowledge.Coherent context.dialect :=
    coherent_evaluate hcoherent
  exact (hvalue.value?_assign_iff hx).trans (by rw [value?_evaluate])

/-- The block keeps exactly the untouched ones among the values of the variables that it does not
assign. -/
def KeepsUntouched (context : Context) (hook : Hook σ) (block : Block) : Prop :=
  ∀ {s : State σ} {x : Name} {e : Expr}, s.knowledge.Coherent context.dialect →
    (analyseBlock context hook block s).error? = none → Untouched block.targets x e →
      ((analyseBlock context hook block s).state.knowledge.value? x = some e ↔
        s.knowledge.value? x = some e ∧ Untouched block.writes x e)

/-! ### Branches from their blocks

Each of these statements ends with the clearing of all that its blocks assign.
-/

/-- Behind a block that may have run or not, and that is followed by the clearing of what it
assigns. -/
theorem value?_branchEnd_iff {body : Block} (before : TwoWayMap Name)
    (hbody : KeepsUntouched context hook body) (hcoherent : s.knowledge.Coherent context.dialect)
    (h : (analyseBlock context hook body s).error? = none) :
    (((analyseBlock context hook body s).state.joinStorage before).clear
        (analyseBlock context hook body s).node.assigned).knowledge.value? x = some e ↔
      s.knowledge.value? x = some e ∧ Untouched body.writes x e := by
  have hend : (analyseBlock context hook body s).state.knowledge.Coherent context.dialect :=
    coherent_analyseBlock body hcoherent
  rw [knowledge_clear, knowledge_joinStorage, (hend.joinStorage before).value?_clear_iff,
    Untouched.assigned_iff, analyseBlock_targets body h, Knowledge.value?_joinStorage]
  exact Untouched.and_iff_of_subset body.targets_subset_writes (hbody hcoherent h)

theorem value?_ifThen_iff {condition : Expr} {body : Block}
    (hbody : KeepsUntouched context hook body) (hcoherent : s.knowledge.Coherent context.dialect)
    (h : (analyseStmt context hook (.ifThen condition body span) s).error? = none) :
    (analyseStmt context hook (.ifThen condition body span) s).state.knowledge.value? x = some e ↔
      s.knowledge.value? x = some e ∧ Untouched body.writes x e := by
  obtain ⟨_, hb, heq⟩ := analyseStmt_ifThen h
  rw [heq, Step.state_done, value?_branchEnd_iff _ hbody (coherent_evaluate hcoherent) hb,
    value?_evaluate]

theorem value?_case_iff {value? : Option Literal} {body : Block}
    (hbody : KeepsUntouched context hook body) (hcoherent : s.knowledge.Coherent context.dialect)
    (h : (analyseCase context hook ⟨value?, body, span⟩ s).error? = none) :
    (analyseCase context hook ⟨value?, body, span⟩ s).state.knowledge.value? x = some e ↔
      s.knowledge.value? x = some e ∧ Untouched body.writes x e := by
  obtain ⟨hb, heq⟩ := analyseCase_mk h
  rw [heq, Step.state_done, caseEnd, value?_forgetStorageIf,
    value?_branchEnd_iff _ hbody hcoherent hb]

theorem value?_switch_iff {scrutinee : Expr} {cases : List Case}
    (hcases : ∀ {s : State σ}, s.knowledge.Coherent context.dialect →
      (analyseCases context hook cases s).error? = none →
        ((analyseCases context hook cases s).state.knowledge.value? x = some e ↔
          s.knowledge.value? x = some e ∧ Untouched (Case.writesAll cases) x e))
    (hcoherent : s.knowledge.Coherent context.dialect)
    (h : (analyseStmt context hook (.switch scrutinee cases span) s).error? = none) :
    (analyseStmt context hook (.switch scrutinee cases span) s).state.knowledge.value? x = some e ↔
      s.knowledge.value? x = some e ∧ Untouched (Case.writesAll cases) x e := by
  obtain ⟨_, hcs, heq⟩ := analyseStmt_switch h
  have inv := coherent_invariant context hook
  have hscrutinee := inv.evaluate scrutinee ⟨hcoherent, trivial⟩
  have hend := inv.analyseCases cases hscrutinee
  rw [heq, Step.state_done, leaveCases, knowledge_clear,
    (coherent_forgetStorageIf _ hend.1).value?_clear_iff, value?_forgetStorageIf,
    Untouched.flatMap_assigned_iff, (analyseCases_names cases hcs).1, hcases hscrutinee.1 hcs,
    value?_evaluate, and_assoc]
  exact and_congr_right fun _ =>
    and_iff_left_of_imp (·.of_subset (Case.targetsAll_subset_writes cases))

/-- The head of a loop keeps the values that no block of the loop touches. -/
theorem value?_loopHead_iff {condition : Expr} {post body : Block}
    (hcoherent : s.knowledge.Coherent context.dialect)
    (hbody : Untouched body.targets x e) (hpost : Untouched post.targets x e) :
    (loopHead context condition post body s).knowledge.value? x = some e ↔
      s.knowledge.value? x = some e := by
  rw [loopHead, value?_forgetStorageIf, knowledge_clear, hcoherent.value?_clear_iff,
    Untouched.append_iff, Untouched.assigned_iff, Untouched.assigned_iff]
  exact and_iff_left ⟨hbody, hpost⟩

theorem value?_postHead_iff {body newBody : Block}
    (hcoherent : s.knowledge.Coherent context.dialect) (hbody : Untouched body.targets x e) :
    (postHead context body newBody s).knowledge.value? x = some e ↔
      s.knowledge.value? x = some e := by
  have hlate : Untouched body.assignedAfterContinue x e :=
    hbody.of_subset fun y hy => body.lateTargets_subset (Block.mem_assignedAfterContinue.1 hy)
  rw [postHead, value?_forgetStorageIf, knowledge_clear, hcoherent.value?_clear_iff]
  exact and_iff_left hlate

theorem value?_forLoop_iff {initial post body : Block} {condition : Expr}
    (hbody : KeepsUntouched context hook body) (hpost : KeepsUntouched context hook post)
    (hcoherent : s.knowledge.Coherent context.dialect)
    (h : (analyseStmt context hook (.forLoop initial condition post body span) s).error? = none) :
    (analyseStmt context hook (.forLoop initial condition post body span)
        s).state.knowledge.value? x = some e ↔
      s.knowledge.value? x = some e ∧
        Untouched (Stmt.forLoop initial condition post body span).writes x e := by
  obtain ⟨hinitial, _, hb, hp, heq⟩ := analyseStmt_forLoop h
  rw [Stmt.writes, Block.writes_of_isEmpty hinitial, List.nil_append]
  -- the knowledge is coherent at each place that the analysis of the loop passes
  have inv := coherent_invariant context hook
  have hhead := inv.at_loopHead condition post body ⟨hcoherent, trivial⟩
  have hcondition := inv.analyseExpr condition hhead
  have hbodyEnd := inv.analyseBlock body hcondition
  have hpostHead := inv.at_postHead body (analyseBlock context hook body (analyseExpr context hook
    condition (loopHead context condition post body s)).state).node hbodyEnd
  have hpostEnd := inv.analyseBlock post hpostHead
  rw [heq, Step.state_done, value?_forgetStorageIf, knowledge_clear, hpostEnd.1.value?_clear_iff,
    Untouched.append_iff, Untouched.assigned_iff, Untouched.assigned_iff, ← Untouched.append_iff]
  refine Untouched.and_iff_of_subset
    (append_subset_append body.targets_subset_writes post.targets_subset_writes) fun htargets => ?_
  obtain ⟨hbodyTargets, hpostTargets⟩ := Untouched.append_iff.1 htargets
  rw [hpost hpostHead.1 hp hpostTargets, value?_postHead_iff hbodyEnd.1 hbodyTargets,
    hbody hcondition.1 hb hbodyTargets, knowledge_analyseExpr,
    value?_loopHead_iff hcoherent hbodyTargets hpostTargets, Untouched.append_iff, and_assoc]

/-! ### Whole blocks -/

mutual

theorem value?_analyseStmt_iff : ∀ (stmt : Stmt) {s : State σ} {x : Name} {e : Expr},
    s.knowledge.Coherent context.dialect → (analyseStmt context hook stmt s).error? = none →
      Untouched (stmt.targets ++ stmt.declared) x e →
        ((analyseStmt context hook stmt s).state.knowledge.value? x = some e ↔
          s.knowledge.value? x = some e ∧ Untouched stmt.writes x e)
  | .expression e _, s, _, _, _, h, _ => by
      refine Iff.trans ?_ (and_iff_left .nil).symm
      cases htracked : context.trackedStore? e with
      | some store =>
          obtain ⟨_, _, hstore, heq⟩ := analyseStmt_trackedStore htracked h
          rw [heq, Step.state_done, Knowledge.value?_store hstore]
      | none =>
          obtain ⟨_, heq⟩ := analyseStmt_expression htracked h
          rw [heq, Step.state_done, value?_evaluate]
  | .assign _ none _, _, _, _, _, h, _ => by cases h
  | .assign _ (some value) _, _, _, _, hcoherent, h, hopen => by
      obtain ⟨_, heq⟩ := analyseStmt_assign h
      have htargets := (Untouched.append_iff.1 hopen).1
      rw [heq]
      exact value?_evaluate_assign_iff value _ hcoherent htargets.1
  | .declare declared none _, s, _, _, hcoherent, _, hopen => by
      have hdeclared := (Untouched.append_iff.1 hopen).2
      have hstart := coherent_declare (declared.map Binder.name) hcoherent
      exact (hstart.value?_assignZero_iff hdeclared.1).trans (by rw [knowledge_declare]; rfl)
  | .declare declared (some value) _, s, _, _, hcoherent, h, hopen => by
      obtain ⟨_, heq⟩ := analyseStmt_declare h
      have hdeclared := (Untouched.append_iff.1 hopen).2
      have hstart := coherent_declare (declared.map Binder.name) hcoherent
      rw [heq]
      exact (value?_evaluate_assign_iff value _ hstart hdeclared.1).trans
        (by rw [knowledge_declare]; rfl)
  | .ifThen _ body _, _, _, _, hcoherent, h, _ =>
      value?_ifThen_iff (keepsUntouched_block body) hcoherent h
  | .switch _ cases _, _, _, _, hcoherent, h, _ =>
      value?_switch_iff (value?_analyseCases_iff cases) hcoherent h
  | .forLoop _ _ post body _, _, _, _, hcoherent, h, _ =>
      value?_forLoop_iff (keepsUntouched_block body) (keepsUntouched_block post) hcoherent h
  | .function _ _ _ _ _, _, _, _, _, h, _ => by
      obtain ⟨_, heq⟩ := analyseStmt_function h
      rw [heq]
      exact (and_iff_left .nil).symm
  | .breakLoop _, _, _, _, _, _, _ => (and_iff_left .nil).symm
  | .continueLoop _, _, _, _, _, _, _ => (and_iff_left .nil).symm
  | .block body, _, _, _, hcoherent, h, hopen => by
      obtain ⟨hb, heq⟩ := analyseStmt_block h
      rw [heq]
      exact keepsUntouched_block body hcoherent hb (Untouched.append_iff.1 hopen).1

theorem value?_analyseStmts_iff : ∀ (stmts : List Stmt) {s : State σ} {x : Name} {e : Expr},
    s.knowledge.Coherent context.dialect → (analyseStmts context hook stmts s).error? = none →
      Untouched (Stmt.targetsAll stmts ++ Stmt.declaredAll stmts) x e →
        ((analyseStmts context hook stmts s).state.knowledge.value? x = some e ↔
          s.knowledge.value? x = some e ∧ Untouched (Stmt.writesAll stmts) x e)
  | [], _, _, _, _, _, _ => (and_iff_left .nil).symm
  | stmt :: stmts, s, _, _, hcoherent, h, hopen => by
      obtain ⟨hfirst, hrest, heq⟩ := analyseStmts_cons h
      have hmiddle : (analyseStmt context hook stmt s).state.knowledge.Coherent context.dialect :=
        coherent_analyseStmt stmt hcoherent
      simp only [Stmt.targetsAll, Stmt.declaredAll_cons, Untouched.append_iff] at hopen
      obtain ⟨⟨htargets, hmoreTargets⟩, hdeclared, hmoreDeclared⟩ := hopen
      rw [heq, Step.state_done,
        value?_analyseStmts_iff stmts hmiddle hrest
          (Untouched.append_iff.2 ⟨hmoreTargets, hmoreDeclared⟩),
        value?_analyseStmt_iff stmt hcoherent hfirst
          (Untouched.append_iff.2 ⟨htargets, hdeclared⟩),
        Stmt.writesAll, Untouched.append_iff, and_assoc]

theorem value?_analyseCases_iff : ∀ (cases : List Case) {s : State σ} {x : Name} {e : Expr},
    s.knowledge.Coherent context.dialect → (analyseCases context hook cases s).error? = none →
      ((analyseCases context hook cases s).state.knowledge.value? x = some e ↔
        s.knowledge.value? x = some e ∧ Untouched (Case.writesAll cases) x e)
  | [], _, _, _, _, _ => (and_iff_left .nil).symm
  | ⟨value?, body, span⟩ :: cases, s, _, _, hcoherent, h => by
      obtain ⟨hfirst, hrest, heq⟩ := analyseCases_cons h
      have hmiddle : (analyseCase context hook ⟨value?, body, span⟩ s).state.knowledge.Coherent
          context.dialect := coherent_analyseCase _ hcoherent
      rw [heq, Step.state_done, value?_analyseCases_iff cases hmiddle hrest,
        value?_case_iff (keepsUntouched_block body) hcoherent hfirst, Case.writesAll,
        Untouched.append_iff, and_assoc]

/-- A value of variables that a block does not assign is known behind the block exactly if it was
known before and is untouched by all that the block writes. -/
theorem keepsUntouched_block : ∀ block : Block, KeepsUntouched context hook block
  | ⟨stmts, _⟩, s, x, e, hcoherent, h, htargets => by
      obtain ⟨hinner, heq, names, hnames, hclear⟩ := analyseBlock_mk h
      have hstart : (s.openScope false).knowledge.Coherent context.dialect := hcoherent
      have hend : (analyseStmts context hook stmts (s.openScope false)).state.knowledge.Coherent
          context.dialect := coherent_analyseStmts stmts hstart
      rw [heq, Step.state_done, hclear, hend.value?_clear_iff, Untouched.congr hnames]
      -- what the block declares is forgotten at its end
      refine Untouched.and_iff_of_subset (Stmt.declaredAll_subset_writes stmts) fun hdeclared => ?_
      exact value?_analyseStmts_iff stmts hstart hinner
        (Untouched.append_iff.2 ⟨htargets, hdeclared⟩)

end

/-! ### Branches -/

theorem value?_branching_iff {stmt : Stmt} (hbranching : stmt.isBranching = true)
    (hcoherent : s.knowledge.Coherent context.dialect)
    (h : (analyseStmt context hook stmt s).error? = none) :
    (analyseStmt context hook stmt s).state.knowledge.value? x = some e ↔
      s.knowledge.value? x = some e ∧ Untouched stmt.writes x e := by
  cases stmt with
  | ifThen _ body _ => exact value?_ifThen_iff (keepsUntouched_block body) hcoherent h
  | switch _ cases _ => exact value?_switch_iff (value?_analyseCases_iff cases) hcoherent h
  | forLoop _ _ post body _ =>
      exact value?_forLoop_iff (keepsUntouched_block body) (keepsUntouched_block post) hcoherent h
  | _ => cases hbranching

/-- What a branch, a switch or a loop does to known values, exactly. In each reachable state, and
with any hook: a value is known behind the statement if and only if it was known before, and neither
its variable nor one that it reads is assigned or declared in the blocks of the statement, at any
depth outside function definitions. -/
theorem branching_keeps_untouched {dialect : Dialect} {s : State Unit} (h : Reachable dialect s)
    (rules : RuleTable) (config : Config) (hook : Hook σ) (state : σ) {stmt : Stmt}
    (hbranching : stmt.isBranching = true)
    (hdone : (analyseStmt { dialect, rules, config } hook stmt (s.withHook state)).error? = none)
    (x : Name) (e : Expr) :
    (analyseStmt { dialect, rules, config } hook stmt
        (s.withHook state)).state.knowledge.value? x = some e ↔
      s.knowledge.value? x = some e ∧ x ∉ stmt.writes ∧ ∀ y ∈ e.reads, y ∉ stmt.writes := by
  have hcoherent : (s.withHook state).knowledge.Coherent dialect :=
    h.known (coherent_preserved dialect)
  exact value?_branching_iff hbranching hcoherent hdone

/-- Two words of the input and a value computed from the first one. -/
def wordsAndFlag : List Stmt :=
  [.declareAs ["first"] (some (.native .calldataload [.number 0])),
    .declareAs ["second"] (some (.native .calldataload [.number 32])),
    .declareAs ["flag"] (some (.native .iszero [.ofName "first"]))]

/-- A branch that declares the name of an outer variable anew. -/
def redeclaresFirst : Stmt :=
  .when (.ofName "flag") (.ofStatements [.declareAs ["first"] none])

/-- The copy of the name goes, and with it what was computed from the outer variable. -/
theorem branching_keeps_untouched_redeclared :
    let dialect := BuiltinTable.evm.toDialect
    let front := analyseStmts { dialect } (.idle : Hook Unit) wordsAndFlag
      ((State.initial ()).openScope false)
    let behind := analyseStmt { dialect } (.idle : Hook Unit) redeclaresFirst front.state
    front.state.knowledge.value? "flag" = some (.native .iszero [.ofName "first"]) ∧
      behind.state.knowledge.value? "flag" ≠ some (.native .iszero [.ofName "first"]) ∧
      behind.state.knowledge.value? "second" = some (.native .calldataload [.number 32]) := by
  intro dialect front behind
  have hfront : (analyseStmts { dialect } (.idle : Hook Unit) wordsAndFlag
      ((State.initial ()).openScope false)).error? = none := by decide +kernel
  have hat : AtStmt { dialect } .idle ⟨wordsAndFlag ++ [redeclaresFirst], .synthetic⟩
      (State.initial ()) redeclaresFirst front.state := .mk hfront
  have hreachable : Reachable dialect front.state := reachable_idle (.here hat)
  have hdone : (analyseStmt { dialect } (.idle : Hook Unit) redeclaresFirst
      (front.state.withHook ())).error? = none := by decide +kernel
  have hexact := branching_keeps_untouched hreachable .standard {} .idle () rfl hdone
  rw [withHook_unit] at hexact
  refine ⟨by decide +kernel, ?_, ?_⟩
  · intro hflag
    obtain ⟨_, _, hreads⟩ := (hexact _ _).1 hflag
    exact hreads "first" (by decide) (by decide)
  · exact (hexact _ _).2 ⟨by decide +kernel, by decide, by decide⟩

end Analysis

end StorageFlow
