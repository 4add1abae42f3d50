import StorageFlow.Proofs.Rewriting.Cost

/-!
# StorageFlow.Proofs.Rewriting.Calls

Simplification as a tree of calls, on a machine that counts their depth in words.

* `Attempt` — a rule that is tried on an operation; `RuleTable.attempts` — the search for a match.
* `DepthCounter` — how a machine counts depths, and what it does behind the largest one.
* `Simplifier.Run` — a call that returns, as a tree of nested calls with the rules that they try.
* `Simplifier.Returns` — there is such a tree.
* `Simplifier.Run.out_eq` — what a call returns is the outcome of `Simplifier.rewriteWithin`, as long
  as no depth is followed by zero.

`Simplifier.rewriteWithin` has a number of steps to spend and always comes to an end. A call spends
nothing: it compares its own depth with the limit and counts on. So a call that goes on for ever is
no tree, and neither is one that stops the program.
-/

namespace StorageFlow

/-! ### Attempts to apply a rule -/

/-- A rule, and an operation that it is tried on. -/
structure Attempt where
  rule : Rule
  operator : Instruction
  arguments : List Expr

namespace Attempt

/-- What the rule makes of the operation. -/
def answer (dialect : Dialect) (attempt : Attempt) : Except Error (Option Expr) :=
  attempt.rule.apply dialect attempt.operator attempt.arguments

/-- Whether the rule matches. -/
def isMatch (dialect : Dialect) (attempt : Attempt) : Bool :=
  match attempt.answer dialect with
  | .ok (some _) => true
  | _ => false

end Attempt

namespace RuleTable

variable {dialect : Dialect} {operator : Instruction} {arguments : List Expr} {rules : RuleTable}

/-- The search for a rule that matches: the rules are tried in their order, up to the first one that
matches or fails. -/
def attempts (dialect : Dialect) (operator : Instruction) (arguments : List Expr) :
    RuleTable → List Attempt
  | [] => []
  | rule :: rules =>
    ⟨rule, operator, arguments⟩ ::
      match rule.apply dialect operator arguments with
      | .ok none => attempts dialect operator arguments rules
      | _ => []

theorem rule_mem_of_mem_attempts {attempt : Attempt}
    (h : attempt ∈ rules.attempts dialect operator arguments) : attempt.rule ∈ rules := by
  induction rules with
  | nil => cases h
  | cons rule rules ih =>
      rw [attempts] at h
      rcases List.mem_cons.1 h with rfl | h
      · exact List.mem_cons_self
      · split at h
        · exact List.mem_cons_of_mem _ (ih h)
        · cases h

/-- The search comes to one match, or to none. -/
theorem countP_attempts (dialect : Dialect) (operator : Instruction) (arguments : List Expr)
    (rules : RuleTable) :
    (rules.attempts dialect operator arguments).countP (Attempt.isMatch dialect) =
      match rules.firstMatch dialect operator arguments with
      | .ok (some _) => 1
      | _ => 0 := by
  induction rules with
  | nil => rfl
  | cons rule rules ih =>
      rw [attempts, firstMatch, List.countP_cons, Attempt.isMatch, Attempt.answer]
      rcases rule.apply dialect operator arguments with _ | _ | _
      · rfl
      · exact ih
      · rfl

/-- If the search fails, then one of the rules has failed that were tried. -/
theorem exists_attempt_of_error {error : Error}
    (h : rules.firstMatch dialect operator arguments = .error error) :
    ∃ attempt ∈ rules.attempts dialect operator arguments,
      attempt.answer dialect = .error error := by
  induction rules with
  | nil => cases h
  | cons rule rules ih =>
      rw [firstMatch] at h
      rw [attempts]
      split at h
      next e happly =>
        cases h
        exact ⟨_, List.mem_cons_self, happly⟩
      next => cases h
      next happly =>
        obtain ⟨attempt, hattempt, hanswer⟩ := ih h
        rw [happly]
        exact ⟨attempt, List.mem_cons_of_mem _ hattempt, hanswer⟩

end RuleTable

/-! ### Depths in machine words -/

/-- How a machine counts the depth of calls. -/
structure DepthCounter where
  /-- The largest depth that fits into a word. -/
  largest : Nat
  /-- Whether the count goes on from zero behind the largest depth. Otherwise the program stops. -/
  wraps : Bool

namespace DepthCounter

variable {counter : DepthCounter} {depth depth' limit : Nat}

/-- The depth of the calls in a call at the given depth, unless the program stops. -/
def deeper? (counter : DepthCounter) (depth : Nat) : Option Nat :=
  if depth < counter.largest then some (depth + 1) else if counter.wraps then some 0 else none

/-- No depth up to the limit is followed by zero. -/
def IsExact (counter : DepthCounter) (limit : Nat) : Prop :=
  counter.wraps = false ∨ limit < counter.largest

theorem deeper?_of_lt (h : depth < counter.largest) : counter.deeper? depth = some (depth + 1) :=
  if_pos h

theorem exists_deeper (h : counter.wraps = true) (depth : Nat) :
    ∃ depth', counter.deeper? depth = some depth' := by
  unfold deeper?
  rw [if_pos h]
  split <;> exact ⟨_, rfl⟩

theorem le_largest (h : counter.deeper? depth = some depth') : depth' ≤ counter.largest := by
  unfold deeper? at h
  split at h
  next hlt =>
    cases h
    exact hlt
  next =>
    split at h <;> cases h
    exact Nat.zero_le _

theorem IsExact.eq_succ (h : counter.IsExact limit) (hle : depth ≤ limit)
    (hdeeper : counter.deeper? depth = some depth') : depth' = depth + 1 := by
  unfold deeper? at hdeeper
  split at hdeeper
  next =>
    cases hdeeper
    rfl
  next hlt =>
    rcases h with hstops | hlimit
    · rw [hstops] at hdeeper
      cases hdeeper
    · exact absurd (Nat.lt_of_le_of_lt hle hlimit) hlt

end DepthCounter

namespace Simplifier

variable {s : Simplifier} {counter : DepthCounter}

/-- The search for a rule that rewrites an expression. -/
def attempts (s : Simplifier) (e : Expr) : List Attempt :=
  match s.dialect.operation? e with
  | none => []
  | some (operator, arguments) => s.rules.attempts s.dialect operator arguments

/-! ### Trees of calls -/

mutual

/-- The simplification of an expression, as the tree of its calls. With `Run s counter depth e count
log (result, count')`, a call at the given depth that starts with the count `count` tries the rules
in `log`, one after another, and returns `result` with the count `count'`. -/
inductive Run (s : Simplifier) (counter : DepthCounter) :
    Nat → Expr → Nat → List Attempt → Except Error Expr × Nat → Prop
  | tooDeep {depth count : Nat} {e : Expr} (h : s.limits.depth < depth) :
      Run s counter depth e count [] (.ok e, count)
  | literal {depth count : Nat} {value : Literal} (h : depth ≤ s.limits.depth) :
      Run s counter depth (.literal value) count [] (.ok (.literal value), count)
  | knownLiteral {depth count : Nat} {x : Identifier} {value : Literal}
      (h : depth ≤ s.limits.depth) (hx : s.known[x.name]? = some (.literal value)) :
      Run s counter depth (.identifier x) count [] (.ok (.literal value), count)
  | knownCopy {depth depth' count : Nat} {x y : Identifier} {log : List Attempt}
      {out : Except Error Expr × Nat} (h : depth ≤ s.limits.depth)
      (hx : s.known[x.name]? = some (.identifier y)) (hdeeper : counter.deeper? depth = some depth')
      (hrun : Run s counter depth' (.identifier y) count log out) :
      Run s counter depth (.identifier x) count log out
  | unknown {depth count : Nat} {x : Identifier} (h : depth ≤ s.limits.depth)
      (hx : s.knownLeaf? x.name = none) :
      Run s counter depth (.identifier x) count [] (.ok (.identifier x), count)
  | argumentFails {depth count count' : Nat} {e : Expr} {op : Operation} {log : List Attempt}
      {error : Error} (h : depth ≤ s.limits.depth) (hop : e.root? = some op)
      (harguments : RunAll s counter depth e.arguments count log (.error error, count')) :
      Run s counter depth e count log (.error error, count')
  | operation {depth count count' : Nat} {e : Expr} {op : Operation} {arguments : List Expr}
      {log log' : List Attempt} {out : Except Error Expr × Nat} (h : depth ≤ s.limits.depth)
      (hop : e.root? = some op)
      (harguments : RunAll s counter depth e.arguments count log (.ok arguments, count'))
      (honce : RunOnce s counter depth (e.withArguments arguments) count' log' out) :
      Run s counter depth e count (log ++ log') out

/-- The calls for arguments of an operation at the given depth, up to the first one that fails. -/
inductive RunAll (s : Simplifier) (counter : DepthCounter) :
    Nat → List Expr → Nat → List Attempt → Except Error (List Expr) × Nat → Prop
  | nil {depth count : Nat} : RunAll s counter depth [] count [] (.ok [], count)
  | fails {depth depth' count count' : Nat} {e : Expr} {es : List Expr} {log : List Attempt}
      {error : Error} (hdeeper : counter.deeper? depth = some depth')
      (h : Run s counter depth' e count log (.error error, count')) :
      RunAll s counter depth (e :: es) count log (.error error, count')
  | failsLater {depth depth' count count' count'' : Nat} {e r : Expr} {es : List Expr}
      {log log' : List Attempt} {error : Error} (hdeeper : counter.deeper? depth = some depth')
      (h : Run s counter depth' e count log (.ok r, count'))
      (hrest : RunAll s counter depth es count' log' (.error error, count'')) :
      RunAll s counter depth (e :: es) count (log ++ log') (.error error, count'')
  | cons {depth depth' count count' count'' : Nat} {e r : Expr} {es rs : List Expr}
      {log log' : List Attempt} (hdeeper : counter.deeper? depth = some depth')
      (h : Run s counter depth' e count log (.ok r, count'))
      (hrest : RunAll s counter depth es count' log' (.ok rs, count'')) :
      RunAll s counter depth (e :: es) count (log ++ log') (.ok (r :: rs), count'')

/-- The rewriting of an operation at the given depth whose arguments are simplified. -/
inductive RunOnce (s : Simplifier) (counter : DepthCounter) :
    Nat → Expr → Nat → List Attempt → Except Error Expr × Nat → Prop
  | exhausted {depth count : Nat} {e : Expr} (h : s.limits.rewrites ≤ count) :
      RunOnce s counter depth e count [] (.ok e, count)
  | unmatched {depth count : Nat} {e : Expr} (h : count < s.limits.rewrites)
      (hfirst : s.firstRewrite e = .ok none) :
      RunOnce s counter depth e count (s.attempts e) (.ok e, count)
  | fails {depth count : Nat} {e : Expr} {error : Error} (h : count < s.limits.rewrites)
      (hfirst : s.firstRewrite e = .error error) :
      RunOnce s counter depth e count (s.attempts e) (.error error, count)
  | matched {depth depth' count : Nat} {e result : Expr} {log : List Attempt}
      {out : Except Error Expr × Nat} (h : count < s.limits.rewrites)
      (hfirst : s.firstRewrite e = .ok (some result))
      (hdeeper : counter.deeper? depth = some depth')
      (hrun : Run s counter depth' result (count + 1) log out) :
      RunOnce s counter depth e count (s.attempts e ++ log) out

end

/-- The call for an expression at the given depth that starts with the given count returns. -/
def Returns (s : Simplifier) (counter : DepthCounter) (depth : Nat) (e : Expr) (count : Nat) :
    Prop :=
  ∃ log out, s.Run counter depth e count log out

/-! ### What a call returns -/

/-- How many calls may nest in each other, the first one at the given depth. -/
def stepsLeft (s : Simplifier) (depth : Nat) : Nat :=
  s.limits.depth + 1 - depth

theorem stepsLeft_of_lt {depth : Nat} (h : s.limits.depth < depth) : s.stepsLeft depth = 0 :=
  Nat.sub_eq_zero_of_le h

theorem stepsLeft_of_le {depth : Nat} (h : depth ≤ s.limits.depth) :
    s.stepsLeft depth = s.stepsLeft (depth + 1) + 1 := by
  unfold stepsLeft
  omega

theorem rewriteWithin_zero (e : Expr) : s.rewriteWithin 0 e = pure e := by
  cases e <;> rfl

mutual

/-- The outcome of a tree of calls is that of the simplification. -/
theorem Run.out_eq (hexact : counter.IsExact s.limits.depth) {depth count : Nat} {e : Expr}
    {log : List Attempt} {out : Except Error Expr × Nat} :
    s.Run counter depth e count log out →
      out = outcome (s.rewriteWithin (s.stepsLeft depth) e) count
  | .tooDeep h => by
      rw [stepsLeft_of_lt h, rewriteWithin_zero]
      rfl
  | .literal h => by
      rw [stepsLeft_of_le h]
      rfl
  | .knownLiteral h hx => by
      rw [stepsLeft_of_le h, rewriteWithin, hx]
      rfl
  | .knownCopy h hx hdeeper hrun => by
      have hout := hrun.out_eq hexact
      rw [hexact.eq_succ h hdeeper] at hout
      rw [stepsLeft_of_le h, rewriteWithin, hx]
      exact hout
  | .unknown h hx => by
      rw [rewriteWithin_leaf rfl, stepsLeft_of_le h, follow, hx]
      rfl
  | .argumentFails h hop harguments => by
      rw [stepsLeft_of_le h, rewriteWithin_operation hop, outcome_bind,
        ← harguments.out_eq hexact h]
  | .operation h hop harguments honce => by
      rw [stepsLeft_of_le h, rewriteWithin_operation hop, outcome_bind,
        ← harguments.out_eq hexact h]
      exact honce.out_eq hexact h

theorem RunAll.out_eq (hexact : counter.IsExact s.limits.depth) {depth count : Nat}
    {es : List Expr} {log : List Attempt} {out : Except Error (List Expr) × Nat}
    (hle : depth ≤ s.limits.depth) : s.RunAll counter depth es count log out →
      out = outcome (es.mapM (s.rewriteWithin (s.stepsLeft (depth + 1)))) count
  | .nil => rfl
  | .fails hdeeper h => by
      have hout := h.out_eq hexact
      rw [hexact.eq_succ hle hdeeper] at hout
      rw [List.mapM_cons, outcome_bind, ← hout]
  | .failsLater hdeeper h hrest => by
      have hout := h.out_eq hexact
      rw [hexact.eq_succ hle hdeeper] at hout
      rw [List.mapM_cons, outcome_bind, ← hout]
      simp only [outcome_bind, ← hrest.out_eq hexact hle]
  | .cons hdeeper h hrest => by
      have hout := h.out_eq hexact
      rw [hexact.eq_succ hle hdeeper] at hout
      rw [List.mapM_cons, outcome_bind, ← hout]
      simp only [outcome_bind, ← hrest.out_eq hexact hle]
      rfl

theorem RunOnce.out_eq (hexact : counter.IsExact s.limits.depth) {depth count : Nat} {e : Expr}
    {log : List Attempt} {out : Except Error Expr × Nat} (hle : depth ≤ s.limits.depth) :
    s.RunOnce counter depth e count log out →
      out = outcome (s.rewriteOnce (s.rewriteWithin (s.stepsLeft (depth + 1))) e) count
  | .exhausted h => by rw [outcome, run_rewriteOnce, if_pos h]
  | .unmatched h hfirst => by rw [outcome_rewriteOnce_of_lt h, hfirst]
  | .fails h hfirst => by rw [outcome_rewriteOnce_of_lt h, hfirst]
  | .matched h hfirst hdeeper hrun => by
      have hout := hrun.out_eq hexact
      rw [hexact.eq_succ hle hdeeper] at hout
      rw [outcome_rewriteOnce_of_lt h, hfirst]
      exact hout

end

end Simplifier

end StorageFlow
