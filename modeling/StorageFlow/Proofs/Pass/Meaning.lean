import StorageFlow.Pass
import StorageFlow.Proofs.Analysis.Success
import StorageFlow.Proofs.Semantics.Reference
import StorageFlow.Proofs.Soundness.Program

/-!
# StorageFlow.Proofs.Pass.Meaning

Passes preserve meaning.

* `Hook.Sound.andThen` — sound hooks compose.
* `Pass.Replaces` — what a pass replaces, and by which fact.
* `Pass.eval_replacement` — what a pass replaces an expression by has the same value wherever the
  knowledge that it was found in holds.
* `Pass.run_preserves_meaning` — passes run to their end, and the program and all its functions do
  the same as before.
-/

namespace StorageFlow

variable {W : Type} {dialect : Dialect} {M : Model dialect W}

/-! ### Hooks one after another -/

namespace Hook

variable {σ : Type} {context : Context} {N : Model context.dialect W} {trusted : Prop}

theorem idle_sound : (idle : Hook σ).Sound context N trusted where
  keepsStores _ _ _ _ := rfl
  eval _ _ _ _ _ := rfl

theorem Sound.andThen {first second : Hook σ} (hfirst : first.Sound context N trusted)
    (hsecond : second.Sound context N trusted) :
    (first.andThen second).Sound context N trusted where
  keepsStores view e state hlength := by
    have hnode := hfirst.keepsStores view e state hlength
    unfold Hook.andThen Step.andThen
    split
    · rw [hnode]
      exact hsecond.keepsStores view e _ hlength
    · exact hnode
  eval h calls env m hholds := by
    obtain ⟨herror, hnext, heq⟩ := Step.of_andThen h
    rw [Hook.andThen, heq, hsecond.eval hnext hholds, hfirst.eval herror hholds]

theorem Total.andThen {first second : Hook σ} (hfirst : first.Total) (hsecond : second.Total) :
    (first.andThen second).Total :=
  fun view e state => Step.error?_andThen (hfirst view e state) (hsecond view _ _)

end Hook

/-! ### What the passes replace -/

namespace Pass

/-- What a pass replaces an expression by, with the fact that it uses. -/
inductive Replaces (view : View) : Pass → Expr → Expr → Prop
  | literal (x : Identifier) (value : Literal)
      (known : view.knowledge.value? x.name = some (.literal value)) :
      Replaces view copyPropagation (.identifier x) (.literal { value with span := x.span })
  | copy (x y : Identifier) (known : view.knowledge.value? x.name = some (.identifier y))
      (visible : view.isVisible y.name = true) :
      Replaces view copyPropagation (.identifier x) (.identifier ⟨y.name, x.span⟩)
  | load {e : Expr} (slot : Identifier) (value : Name)
      (loads : view.context.dialect.operation? e = some (.sload, [.identifier slot]))
      (stored : view.knowledge.storedAt? slot.name = some value)
      (visible : view.isVisible value = true) :
      Replaces view loadForwarding e (.identifier ⟨value, e.span⟩)

theorem replaces_of_replacement? {pass : Pass} {view : View} {e e' : Expr}
    (h : pass.replacement? view e = some e') : Replaces view pass e e' := by
  unfold replacement? at h
  split at h
  next x =>
    unfold propagated? at h
    split at h
    next value known =>
      cases h
      exact .literal x value known
    next y known =>
      split at h
      next visible =>
        cases h
        exact .copy x y known visible
      next => cases h
    next => cases h
  next => cases h
  next =>
    unfold forwarded? at h
    split at h
    next slot loads =>
      obtain ⟨value, hvalue, rfl⟩ := Option.map_eq_some_iff.1 h
      obtain ⟨stored, visible⟩ := Option.filter_eq_some_iff.1 hvalue
      exact .load slot value loads stored visible
    next => cases h

/-- Every builtin of the dialect is known to it. -/
def Recognised (dialect : Dialect) : Prop :=
  ∀ {callee builtin}, dialect.builtin? callee = some builtin →
    (dialect.callEffects? callee).isSome = true

theorem recognised_toDialect (table : BuiltinTable) : Recognised table.toDialect := by
  intro callee builtin h
  have h : table.find? callee = some builtin := h
  simp [BuiltinTable.toDialect, h]

variable {view : View} {N : Model view.context.dialect W} {calls : Calls W} {env : Env}
variable {m : Machine W}

/-- A load from a slot that a variable holds gives what storage holds there. -/
theorem eval_load (hspells : N.Spells) (hrecognised : Recognised view.context.dialect) {e : Expr}
    {slot : Identifier} {word : Word}
    (h : view.context.dialect.operation? e = some (.sload, [.identifier slot]))
    (hslot : env slot.name = some word) : e.eval N calls env m = .done [m.storage word] m := by
  obtain ⟨op, hroot, hspelt, harguments⟩ := Dialect.operation?_eq_some h
  have hword : Expr.evalAll N calls env e.arguments m = .done [word] m := by
    rw [harguments]
    simp [Expr.evalAll, Expr.eval, hslot]
  rw [Expr.eval_of_root? hroot, hword, Outcome.andThen_done]
  cases op with
  | instruction operator =>
      cases hspelt
      exact hspells.sload word m
  | call callee =>
      obtain ⟨builtin, hbuiltin, hinstruction⟩ := Option.bind_eq_some_iff.1 hspelt
      rw [Model.apply, if_pos (hrecognised hbuiltin), hspells.builtin hbuiltin hinstruction rfl]
      exact hspells.sload word m

/-- An expression has the value of what it is replaced by. -/
theorem eval_replacement (hspells : N.Spells) (hrecognised : Recognised view.context.dialect)
    {pass : Pass} {e e' : Expr} (h : pass.replacement? view e = some e')
    (hholds : view.knowledge.Holds N True env m) :
    e'.eval N calls env m = e.eval N calls env m := by
  cases replaces_of_replacement? h with
  | literal x value known =>
      obtain ⟨word, hx, hword⟩ := hholds.values _ _ known List.not_mem_nil
      simp only [Expr.eval, hx]
      rw [← Option.some.inj hword]
  | copy x y known _ =>
      obtain ⟨word, hx, hword⟩ := hholds.values _ _ known List.not_mem_nil
      have hy : env y.name = some word := hword
      simp only [Expr.eval, hx, hy]
  | load slot value loads stored _ =>
      obtain ⟨word, hslot, hword⟩ := hholds.stored trivial _ _ stored
      rw [eval_load hspells hrecognised loads hslot]
      simp only [Expr.eval, hword]

/-- No pass replaces an operation of two arguments. -/
theorem replacement?_eq_none (pass : Pass) (view : View) {e : Expr} (h : e.arguments.length = 2) :
    pass.replacement? view e = none := by
  refine Option.eq_none_iff_forall_not_mem.2 fun e' he' => ?_
  cases replaces_of_replacement? he' with
  | literal => cases h
  | copy => cases h
  | load slot value loads =>
      obtain ⟨_, _, _, harguments⟩ := Dialect.operation?_eq_some loads
      rw [harguments] at h
      cases h

theorem hook_sound (hspells : M.Spells) (hrecognised : Recognised dialect) (pass : Pass) :
    pass.hook.Sound { dialect } M True where
  keepsStores view e state hlength := by
    rw [hook, replacement?_eq_none pass view hlength]
    rfl
  eval {k scopes e state} _ calls env m hholds := by
    unfold hook
    split
    next replaced hreplaced =>
      exact eval_replacement hspells hrecognised hreplaced hholds
    next => rfl

theorem hookOf_sound (hspells : M.Spells) (hrecognised : Recognised dialect) (passes : List Pass) :
    (hookOf passes).Sound { dialect } M True := by
  induction passes with
  | nil => exact Hook.idle_sound
  | cons pass passes ih => exact (hook_sound hspells hrecognised pass).andThen ih

theorem hook_total (pass : Pass) : pass.hook.Total := by
  intro view e counts
  unfold hook
  split <;> rfl

theorem hookOf_total (passes : List Pass) : (hookOf passes).Total := by
  induction passes with
  | nil => exact fun _ _ _ => rfl
  | cons pass passes ih => exact (hook_total pass).andThen ih

/-! ### Whole runs -/

/-- Passes, in any number and order, run to their end on every program whose assignments have values
and whose loops have no initial block. The program and each of its functions then do the same as
before: from every storage and world, for all arguments, whatever calls by name do. -/
theorem run_preserves_meaning (added : List Builtin) (passes : List Pass) (program : Block)
    (counts : PassCounts) (hcomplete : program.isComplete = true) :
    let dialect := (added.foldl BuiltinTable.define .evm).toDialect
    let step := run dialect passes program counts
    step.error? = none ∧
      ∀ {W : Type} (M : Model dialect W), M.Spells →
        (∀ calls m, step.node.run M calls m = program.run M calls m) ∧
          step.node.functions M = program.functions M := by
  intro dialect step
  have hrules : ∀ rule ∈ RuleTable.standard, rule ∈ RuleTable.standard := fun _ h => h
  have hdone : (Analysis.analyseBlock { dialect } (hookOf passes) program
      (.initial counts)).error? = none :=
    Analysis.analyseBlock_ok (hookOf_total passes) hrules program _ hcomplete
  have hrun : Analysis.run { dialect } (hookOf passes) program (.initial counts) = _ :=
    Analysis.run_ok Knowledge.coherent_empty hdone
  have hstep : step = (Analysis.analyseBlock { dialect } (hookOf passes) program
      (.initial counts)).mapState Analysis.State.hook := congrArg (Step.mapState · _) hrun
  refine ⟨by rw [hstep]; exact hdone, fun {W} M hspells => ?_⟩
  -- nothing is known at the start, so what the passes use holds of every machine there
  have hsound := hookOf_sound hspells (recognised_toDialect _) passes
  obtain ⟨hpreserves, hfunctions⟩ :=
    Analysis.preserves_analyseBlock hsound (fun _ => hrules) program hdone
      Knowledge.coherent_empty
  rw [hstep]
  refine ⟨fun calls m => ?_, hfunctions⟩
  exact Outcome.andThen_congr (hpreserves.exec Knowledge.holds_empty) fun _ _ _ => rfl

/-- A program that loads in a branch what it stored before. -/
def storedThenLoaded : Block :=
  .ofStatements [
    .declareAs ["slot"] (some (.native .calldataload [.number 0])),
    .declareAs ["value"] (some (.native .calldataload [.number 32])),
    .eval (.native .sstore [.ofName "slot", .ofName "value"]),
    .when (.ofName "value") (.ofStatements [
      .declareAs ["copy"] (some (.native .sload [.ofName "slot"])),
      .eval (.native .sstore [.ofName "copy", .ofName "slot"])])]

theorem run_preserves_meaning_storedThenLoaded :
    let step := run BuiltinTable.evm.toDialect [.loadForwarding, .copyPropagation]
      storedThenLoaded {}
    storedThenLoaded.isComplete = true ∧ step.error? = none ∧
      ∀ (input : Word → Word) (depth rounds : Nat) (calls : Calls Unit) (m : Machine Unit),
        step.node.run (.native input depth rounds) calls m =
          storedThenLoaded.run (.native input depth rounds) calls m := by
  intro step
  have h := run_preserves_meaning [] [.loadForwarding, .copyPropagation] storedThenLoaded {} rfl
  simp only [List.foldl_nil] at h
  refine ⟨rfl, h.1, fun input depth rounds calls m => ?_⟩
  exact (h.2 _ (Model.native_spells input depth rounds)).1 calls m

/-- The load is forwarded, and the variable that then only copies another one is propagated. -/
example : (run BuiltinTable.evm.toDialect [.loadForwarding, .copyPropagation]
    storedThenLoaded {}).state = ⟨1, 1⟩ := by decide +kernel

end Pass

end StorageFlow
