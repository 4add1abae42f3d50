import StorageFlow.Proofs.Semantics.Reference
import StorageFlow.Proofs.Syntax.Literal
import StorageFlow.Rewriting.Rule
import StorageFlow.Syntax.Equality

/-!
# StorageFlow.Proofs.Semantics.Interpretation

The word that a single expression computes, and what it does to the machine.

* `LiteralWords` — the words that literals denote.
* `Instruction.arithmetic?` — the words that arithmetic, comparisons and bitwise instructions
  compute, whatever a dialect says of them.
* `Interpretation` — literals and operations of a dialect. Only arithmetic has a fixed meaning; what
  the dialect calls movable and free of side effects is a function of its arguments; every other
  operation may do anything to the machine.
* `Interpretation.eval` — evaluates an expression whose variables all hold words.
* `Interpretation.Yields` — an expression has a word in every state, and changes none.

A `Model` asks more of operations than an interpretation, as an analysis of whole programs relies on
what the dialect says about storage. To simplify an expression, that is not needed.
-/

namespace StorageFlow

variable {dialect : Dialect} {W : Type}

/-- The words that literals denote, by their kind and their text. -/
structure LiteralWords where
  word : Literal.Kind → String → Word
  word_of_toNat? : ∀ {l : Literal} {n : Nat}, l.toNat? = some n →
    word l.kind l.text = BitVec.ofNat 256 n

/-- The number that a kind and a text stand for as a word, and zero if they stand for none. -/
def Literal.numericWord (kind : Literal.Kind) (text : String) : Word :=
  match (Literal.mk kind text .synthetic).toNat? with
  | some n => BitVec.ofNat 256 n
  | none => 0

theorem Literal.numericWord_of_toNat? {l : Literal} {n : Nat} (h : l.toNat? = some n) :
    numericWord l.kind l.text = BitVec.ofNat 256 n := by
  have h : (Literal.mk l.kind l.text .synthetic).toNat? = some n := h
  rw [numericWord, h]

/-- Literals that stand for numbers denote them, and all others denote zero. -/
def LiteralWords.numeric : LiteralWords where
  word := Literal.numericWord
  word_of_toNat? := Literal.numericWord_of_toNat?

/-! ### Operations -/

/-- Whether the instruction is arithmetic, a comparison or a bitwise one whose meaning on words is
fixed. -/
def Instruction.isArithmetic : Instruction → Bool
  | add | sub | mul | div | mod | eq | lt | gt | slt | sgt | iszero | and | or | xor => true
  | _ => false

/-- The word that an instruction computes from words if it is arithmetic; there is none for the
wrong number of words. -/
def Instruction.arithmetic? (operator : Instruction) (words : List Word) : Option Word :=
  if operator.isArithmetic then operator.value? (fun _ => 0) words else none

/-- The instruction that an operation is, or that the builtin stands for that it calls. -/
def Dialect.spelt? (dialect : Dialect) : Operation → Option Instruction
  | .instruction operator => some operator
  | .call callee => (dialect.builtin? callee).bind Builtin.instruction?

theorem Dialect.operation?_eq_some {e : Expr} {operator : Instruction} {arguments : List Expr}
    (h : dialect.operation? e = some (operator, arguments)) :
    ∃ op, e.root? = some op ∧ dialect.spelt? op = some operator ∧ e.arguments = arguments := by
  cases e with
  | literal _ => cases h
  | identifier _ => cases h
  | call callee es _ =>
      obtain ⟨_, hspelt, h⟩ := Option.bind_eq_some_iff.1 h
      split at h
      · cases h
        exact ⟨.call callee.name, rfl, hspelt, rfl⟩
      · cases h
  | instruction _ es _ =>
      rw [operation?] at h
      split at h
      · cases h
        exact ⟨.instruction operator, rfl, rfl, rfl⟩
      · cases h

/-- An interpretation of the literals and the operations of a dialect. -/
structure Interpretation (dialect : Dialect) (W : Type) extends LiteralWords where
  operation : Operation → List Word → Machine W → Outcome W Word
  /-- Whether arguments are evaluated from left to right. -/
  leftToRight : Bool
  /-- Instructions, and the builtins that stand for them, compute their words. -/
  operation_of_arithmetic? : ∀ {op operator words word}, dialect.spelt? op = some operator →
    operator.arithmetic? words = some word → ∀ m, operation op words m = .done word m
  /-- What may be moved and has no side effect is a function of its arguments. -/
  operation_of_discardable : ∀ {op}, (dialect.effectsOf op).movable = true →
    (dialect.effectsOf op).sideEffectFree = true →
      ∀ words, ∃ word, ∀ m, operation op words m = .done word m

namespace Interpretation

/-- The interpretation in which operations without a fixed meaning do as `effect` says, or give zero
if they are to be functions of their arguments. -/
def ofEffect (dialect : Dialect) (literals : LiteralWords) (leftToRight : Bool)
    (effect : Operation → List Word → Machine W → Outcome W Word) : Interpretation dialect W where
  toLiteralWords := literals
  operation op words m :=
    match (dialect.spelt? op).bind (·.arithmetic? words) with
    | some word => .done word m
    | none =>
      if (dialect.effectsOf op).movable && (dialect.effectsOf op).sideEffectFree then .done 0 m
      else effect op words m
  leftToRight
  operation_of_arithmetic? hspelt hword m := by
    rw [hspelt, Option.bind_some, hword]
  operation_of_discardable {op} hmovable hfree words := by
    cases hword : (dialect.spelt? op).bind (·.arithmetic? words) with
    | some word => exact ⟨word, fun m => rfl⟩
    | none => exact ⟨0, fun m => by simp only [hmovable, hfree, Bool.and_self, if_true]⟩

variable (I : Interpretation dialect W) (env : Name → Word)

/-! ### Expressions -/

mutual

/-- Evaluates an expression to its word. -/
def eval : Expr → Machine W → Outcome W Word
  | .literal value, m => .done (I.word value.kind value.text) m
  | .identifier x, m => .done (env x.name) m
  | .call callee arguments _, m =>
      (evalAll arguments m).andThen (I.operation (.call callee.name))
  | .instruction operator arguments _, m =>
      (evalAll arguments m).andThen (I.operation (.instruction operator))

/-- Evaluates arguments in the order of the interpretation. -/
def evalAll : List Expr → Machine W → Outcome W (List Word)
  | [], m => .done [] m
  | e :: es, m =>
    if I.leftToRight then
      (eval e m).andThen fun word m => (evalAll es m).andThen fun words m => .done (word :: words) m
    else
      (evalAll es m).andThen fun words m => (eval e m).andThen fun word m => .done (word :: words) m

end

variable {I env}

theorem eval_of_root? {e : Expr} {op : Operation} (h : e.root? = some op) (m : Machine W) :
    I.eval env e m = (I.evalAll env e.arguments m).andThen (I.operation op) := by
  cases e with
  | literal _ => cases h
  | identifier _ => cases h
  | call _ _ _ =>
      cases h
      rw [eval, Expr.arguments]
  | instruction _ _ _ =>
      cases h
      rw [eval, Expr.arguments]

/-- Only the words and the effects of the arguments matter for those of an operation. -/
theorem eval_withArguments {e : Expr} {es : List Expr}
    (h : I.evalAll env es = I.evalAll env e.arguments) :
    I.eval env (e.withArguments es) = I.eval env e := by
  cases hroot : e.root? with
  | none => cases e <;> first | rfl | cases hroot
  | some op =>
      have hroot' := (Expr.root?_withArguments e es).trans hroot
      funext m
      rw [eval_of_root? hroot, eval_of_root? hroot', Expr.arguments_withArguments hroot, h]

theorem evalAll_cons_congr {e e' : Expr} {es es' : List Expr} (he : I.eval env e = I.eval env e')
    (hes : I.evalAll env es = I.evalAll env es') :
    I.evalAll env (e :: es) = I.evalAll env (e' :: es') := by
  funext m
  simp only [evalAll, he, hes]

mutual

/-- Expressions that look the same do the same. -/
theorem eval_eq_of_sameSyntax : ∀ {x y : Expr}, x.sameSyntax y = true →
    I.eval env x = I.eval env y
  | .literal a, y, h => by
      cases y with
      | literal b =>
          obtain ⟨hkind, htext⟩ := (Bool.and_eq_true_iff.1 h).imp of_decide_eq_true of_decide_eq_true
          funext m
          rw [eval, eval, hkind, htext]
      | _ => cases h
  | .identifier a, y, h => by
      cases y with
      | identifier b =>
          have hname : a.name = b.name := of_decide_eq_true h
          funext m
          rw [eval, eval, hname]
      | _ => cases h
  | .call f as _, y, h => by
      cases y with
      | call g bs _ =>
          obtain ⟨hname, harguments⟩ := Bool.and_eq_true_iff.1 h
          have hname : f.name = g.name := of_decide_eq_true hname
          funext m
          rw [eval, eval, hname, evalAll_eq_of_sameSyntaxAll harguments]
      | _ => cases h
  | .instruction i as _, y, h => by
      cases y with
      | instruction j bs _ =>
          obtain ⟨hoperator, harguments⟩ := Bool.and_eq_true_iff.1 h
          have hoperator : i = j := of_decide_eq_true hoperator
          funext m
          rw [eval, eval, hoperator, evalAll_eq_of_sameSyntaxAll harguments]
      | _ => cases h

theorem evalAll_eq_of_sameSyntaxAll : ∀ {xs ys : List Expr},
    Expr.sameSyntaxAll xs ys = true → I.evalAll env xs = I.evalAll env ys
  | [], ys, h => by
      cases ys with
      | nil => rfl
      | cons _ _ => cases h
  | x :: xs, ys, h => by
      cases ys with
      | nil => cases h
      | cons y ys =>
          obtain ⟨hx, hxs⟩ := Bool.and_eq_true_iff.1 h
          exact evalAll_cons_congr (eval_eq_of_sameSyntax hx) (evalAll_eq_of_sameSyntaxAll hxs)

end

/-! ### Expressions without effect -/

variable (I env)

/-- The expression has the word in every state of the machine, and changes none. -/
def Yields (e : Expr) (word : Word) : Prop :=
  ∀ m, I.eval env e m = .done word m

/-- The arguments have the words in every state of the machine, and change none. -/
def YieldsAll (es : List Expr) (words : List Word) : Prop :=
  ∀ m, I.evalAll env es m = .done words m

variable {I env}

/-- Expressions that have the same word without an effect do the same. -/
theorem Yields.eval_eq {e e' : Expr} {word : Word} (h : I.Yields env e word)
    (h' : I.Yields env e' word) : I.eval env e = I.eval env e' :=
  funext fun m => (h m).trans (h' m).symm

theorem yieldsAll_nil : I.YieldsAll env [] [] := fun _ => rfl

theorem Yields.cons {e : Expr} {es : List Expr} {word : Word} {words : List Word}
    (he : I.Yields env e word) (hes : I.YieldsAll env es words) :
    I.YieldsAll env (e :: es) (word :: words) := by
  intro m
  rw [evalAll]
  split
  · rw [he, Outcome.andThen_done, hes, Outcome.andThen_done]
  · rw [hes, Outcome.andThen_done, he, Outcome.andThen_done]

/-- A number that an expression is written as is its word. -/
theorem yields_of_toNat? {e : Expr} {n : Nat} (h : e.toNat? = some n) :
    I.Yields env e (BitVec.ofNat 256 n) := by
  intro m
  cases e with
  | literal value => rw [eval, I.word_of_toNat? h]
  | identifier _ => cases h
  | call _ _ _ => cases h
  | instruction _ _ _ => cases h

theorem yields_number {n : Nat} (h : n < numericLimit) :
    I.Yields env (.number n) (BitVec.ofNat 256 n) :=
  yields_of_toNat? (Literal.toNat?_number h)

/-- Arithmetic on expressions without effect has none. -/
theorem YieldsAll.operation {e : Expr} {op : Operation} {operator : Instruction}
    {words : List Word} {word : Word} (hwords : I.YieldsAll env e.arguments words)
    (hroot : e.root? = some op) (hspelt : dialect.spelt? op = some operator)
    (hword : operator.arithmetic? words = some word) : I.Yields env e word := by
  intro m
  rw [eval_of_root? hroot, hwords m]
  exact I.operation_of_arithmetic? hspelt hword m

/-- If the second operand of an instruction is neutral, the instruction does as the first one. -/
theorem Yields.neutral_right {e x y : Expr} {op : Operation} {operator : Instruction} {b : Word}
    (hy : I.Yields env y b) (hroot : e.root? = some op)
    (hspelt : dialect.spelt? op = some operator) (harguments : e.arguments = [x, y])
    (hneutral : ∀ a, operator.arithmetic? [a, b] = some a) : I.eval env e = I.eval env x := by
  have hpair (m : Machine W) : I.evalAll env [x, y] m =
      (I.eval env x m).andThen fun a m => .done [a, b] m := by
    simp only [evalAll, hy _, Outcome.andThen_done, ite_self]
  funext m
  rw [eval_of_root? hroot, harguments, hpair]
  cases I.eval env x m with
  | done a m => exact I.operation_of_arithmetic? hspelt (hneutral a) m
  | halted m => rfl
  | stuck => rfl
  | exhausted => rfl

/-- If the first operand of an instruction is neutral, the instruction does as the second one. -/
theorem Yields.neutral_left {e x y : Expr} {op : Operation} {operator : Instruction} {a : Word}
    (hx : I.Yields env x a) (hroot : e.root? = some op)
    (hspelt : dialect.spelt? op = some operator) (harguments : e.arguments = [x, y])
    (hneutral : ∀ b, operator.arithmetic? [a, b] = some b) : I.eval env e = I.eval env y := by
  have hpair (m : Machine W) : I.evalAll env [x, y] m =
      (I.eval env y m).andThen fun b m => .done [a, b] m := by
    cases hy : I.eval env y m <;>
      simp only [evalAll, hx _, hy, Outcome.andThen, ite_self]
  funext m
  rw [eval_of_root? hroot, harguments, hpair]
  cases I.eval env y m with
  | done b m => exact I.operation_of_arithmetic? hspelt (hneutral b) m
  | halted m => rfl
  | stuck => rfl
  | exhausted => rfl

/-- All operations may be moved and have no side effect. -/
def Discardable (dialect : Dialect) (ops : List Operation) : Prop :=
  ∀ op ∈ ops, (dialect.effectsOf op).movable = true ∧ (dialect.effectsOf op).sideEffectFree = true

theorem isDiscardable_iff {e : Expr} :
    dialect.isDiscardable e = true ↔ Discardable dialect e.operations := by
  rw [Dialect.isDiscardable, Bool.and_eq_true, EffectSummary.movable_ofExpr,
    EffectSummary.sideEffectFree_ofExpr, List.all_eq_true, List.all_eq_true, Discardable]
  exact ⟨fun h op hop => ⟨h.1 op hop, h.2 op hop⟩,
    fun h => ⟨fun op hop => (h op hop).1, fun op hop => (h op hop).2⟩⟩

/-- An operation that is a function of its arguments, on arguments without effect. -/
theorem YieldsAll.discardable {e : Expr} {op : Operation} {words : List Word}
    (hwords : I.YieldsAll env e.arguments words) (hroot : e.root? = some op)
    (h : Discardable dialect e.operations) : ∃ word, I.Yields env e word := by
  rw [Expr.operations_of_root? hroot] at h
  obtain ⟨hmovable, hfree⟩ := h op (List.mem_append_right _ (List.mem_singleton_self op))
  obtain ⟨word, hword⟩ := I.operation_of_discardable hmovable hfree words
  refine ⟨word, fun m => ?_⟩
  rw [eval_of_root? hroot, hwords m]
  exact hword m

mutual

theorem exists_yields : ∀ (e : Expr), Discardable dialect e.operations →
    ∃ word, I.Yields env e word
  | .literal _, _ => ⟨_, fun _ => rfl⟩
  | .identifier _, _ => ⟨_, fun _ => rfl⟩
  | .call _ arguments _, h => by
      obtain ⟨_, hwords⟩ := exists_yieldsAll arguments fun op hop =>
        h op (List.mem_append_left _ hop)
      exact hwords.discardable rfl h
  | .instruction _ arguments _, h => by
      obtain ⟨_, hwords⟩ := exists_yieldsAll arguments fun op hop =>
        h op (List.mem_append_left _ hop)
      exact hwords.discardable rfl h

theorem exists_yieldsAll : ∀ (es : List Expr), Discardable dialect (Expr.operationsAll es) →
    ∃ words, I.YieldsAll env es words
  | [], _ => ⟨[], yieldsAll_nil⟩
  | e :: es, h => by
      obtain ⟨word, he⟩ := exists_yields e fun op hop => h op (List.mem_append_left _ hop)
      obtain ⟨words, hes⟩ := exists_yieldsAll es fun op hop => h op (List.mem_append_right _ hop)
      exact ⟨word :: words, he.cons hes⟩

end

/-- What may be dropped has a word, and no effect. -/
theorem yields_of_isDiscardable {e : Expr} (h : dialect.isDiscardable e = true) :
    ∃ word, I.Yields env e word :=
  exists_yields e (isDiscardable_iff.1 h)

end Interpretation

end StorageFlow
