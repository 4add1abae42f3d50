import StorageFlow.Proofs.Rewriting.Calls

/-!
# StorageFlow.Proofs.Rewriting.Limits

The limits hold for any rules, whether they make expressions smaller or larger.

* `Simplifier.Bounded` — what the limits promise of the rules that are tried and of the count.
* `Run.bounded` — every call that returns keeps these promises.
* `Simplifier.returns_leaf`, `Simplifier.returns_operation` — a call returns if those in it do.
* `Simplifier.returns_of_lt` — a limit below the largest depth ends every call.
* `Simplifier.returns_of_acyclic`, `Simplifier.not_returns_of_cyclic` — the largest depth is no
  limit: where the count wraps, all calls return exactly if no copies form a cycle.
* `Simplifier.limits_hold` — all of this for calls one after another;
  `Simplifier.copies_never_return` — two copies of each other under the largest limit.
-/

namespace StorageFlow.Simplifier

variable {s : Simplifier} {counter : DepthCounter}

/-! ### What the limits promise -/

/-- What the limits promise of a simplification, or of a part of one, that starts with the count
`count`, tries the rules in `log` and ends with `out`. -/
structure Bounded {α : Type} (s : Simplifier) (count : Nat) (log : List Attempt)
    (out : Except Error α × Nat) : Prop where
  /-- The rules that are tried are those of the table. -/
  rules : ∀ attempt ∈ log, attempt.rule ∈ s.rules
  /-- The count is raised for each rule that matches. -/
  counted : out.2 = count + log.countP (Attempt.isMatch s.dialect)
  limited : count ≤ s.limits.rewrites → out.2 ≤ s.limits.rewrites
  /-- With a count at the limit, no rule is tried. -/
  quiet : s.limits.rewrites ≤ count → log = []
  /-- Each failure is the answer of a rule. -/
  raised : ∀ error, out.1 = .error error →
    ∃ attempt ∈ log, attempt.answer s.dialect = .error error

namespace Bounded

variable {α β : Type} {count count' : Nat} {log log' : List Attempt} {a : α}

theorem silent (a : α) (count : Nat) : s.Bounded count [] (.ok a, count) where
  rules := nofun
  counted := rfl
  limited h := h
  quiet _ := rfl
  raised := nofun

/-- A part that succeeds, and a part behind it. -/
theorem append {out : Except Error β × Nat}
    (h : s.Bounded count log ((.ok a, count') : Except Error α × Nat))
    (h' : s.Bounded count' log' out) : s.Bounded count (log ++ log') out where
  rules attempt hattempt := (List.mem_append.1 hattempt).elim (h.rules _) (h'.rules _)
  counted := by
    rw [List.countP_append, ← Nat.add_assoc, ← h.counted]
    exact h'.counted
  limited hcount := h'.limited (h.limited hcount)
  quiet hcount := by
    -- with no attempt, the first part leaves the count as it is
    have hlog := h.quiet hcount
    have hsame : count' = count := by simpa [hlog] using h.counted
    rw [hlog, h'.quiet (hsame ▸ hcount), List.append_nil]
  raised error herror := by
    obtain ⟨attempt, hattempt, hanswer⟩ := h'.raised error herror
    exact ⟨attempt, List.mem_append_right _ hattempt, hanswer⟩

/-- Only the count and the failure matter, not what the result is. -/
theorem congr {out : Except Error α × Nat} {out' : Except Error β × Nat}
    (h : s.Bounded count log out) (hcount : out'.2 = out.2)
    (herror : ∀ error, out'.1 = .error error → out.1 = .error error) :
    s.Bounded count log out' where
  rules := h.rules
  counted := hcount.trans h.counted
  limited hlimit := hcount ▸ h.limited hlimit
  quiet := h.quiet
  raised error hfails := h.raised error (herror error hfails)

theorem fails {error : Error}
    (h : s.Bounded count log ((.error error, count') : Except Error α × Nat)) :
    s.Bounded count log ((.error error, count') : Except Error β × Nat) :=
  h.congr rfl fun _ herror => congrArg Except.error (Except.error.inj herror)

theorem le {out : Except Error α × Nat} (h : s.Bounded count log out) : count ≤ out.2 :=
  h.counted ▸ Nat.le_add_right _ _

end Bounded

/-- The search for a rule is made only below the limit, and raises the count by one if it comes to a
match. -/
theorem bounded_attempts {count : Nat} (h : count < s.limits.rewrites) (e : Expr) :
    s.Bounded count (s.attempts e)
      (s.firstRewrite e, match s.firstRewrite e with | .ok (some _) => count + 1 | _ => count) := by
  unfold attempts firstRewrite
  cases hoperation : s.dialect.operation? e with
  | none => exact .silent _ _
  | some operation =>
      obtain ⟨operator, arguments⟩ := operation
      have hmatches := RuleTable.countP_attempts s.dialect operator arguments s.rules
      dsimp only
      refine ⟨fun _ => RuleTable.rule_mem_of_mem_attempts, ?_, fun _ => ?_,
        fun hlimit => absurd h (Nat.not_lt.2 hlimit), fun error herror => ?_⟩
      · rw [hmatches]
        rcases s.rules.firstMatch s.dialect operator arguments with _ | _ | _ <;> rfl
      · rcases s.rules.firstMatch s.dialect operator arguments with _ | _ | _
        · exact h.le
        · exact h.le
        · exact h
      · exact RuleTable.exists_attempt_of_error (map_eq_error herror)

mutual

/-- Every tree of calls keeps what the limits promise. -/
theorem Run.bounded {depth count : Nat} {e : Expr} {log : List Attempt}
    {out : Except Error Expr × Nat} : s.Run counter depth e count log out →
      s.Bounded count log out
  | .tooDeep _ => .silent _ _
  | .literal _ => .silent _ _
  | .knownLiteral _ _ => .silent _ _
  | .knownCopy _ _ _ hrun => hrun.bounded
  | .unknown _ _ => .silent _ _
  | .argumentFails _ _ harguments => harguments.bounded.fails
  | .operation _ _ harguments honce => harguments.bounded.append honce.bounded

theorem RunAll.bounded {depth count : Nat} {es : List Expr} {log : List Attempt}
    {out : Except Error (List Expr) × Nat} : s.RunAll counter depth es count log out →
      s.Bounded count log out
  | .nil => .silent _ _
  | .fails _ h => h.bounded.fails
  | .failsLater _ h hrest => h.bounded.append hrest.bounded
  | .cons _ h hrest => (h.bounded.append hrest.bounded).congr rfl nofun

theorem RunOnce.bounded {depth count : Nat} {e : Expr} {log : List Attempt}
    {out : Except Error Expr × Nat} : s.RunOnce counter depth e count log out →
      s.Bounded count log out
  | .exhausted _ => .silent _ _
  | .unmatched h hfirst => by
      have hsearch := bounded_attempts h e
      rw [hfirst] at hsearch
      exact hsearch.congr rfl nofun
  | .fails h hfirst => by
      have hsearch := bounded_attempts h e
      rw [hfirst] at hsearch
      exact hsearch.fails
  | .matched h hfirst _ hrun => by
      have hsearch := bounded_attempts h e
      rw [hfirst] at hsearch
      exact hsearch.append hrun.bounded

end

/-! ### Calls that return -/

/-- The calls for arguments return, one after another, if each of them does. -/
theorem exists_runAll {depth depth' count : Nat} (hdeeper : counter.deeper? depth = some depth')
    {es : List Expr}
    (h : ∀ e ∈ es, ∀ count', count ≤ count' → s.Returns counter depth' e count') :
    ∃ log out, s.RunAll counter depth es count log out := by
  induction es generalizing count with
  | nil => exact ⟨[], _, .nil⟩
  | cons e es ih =>
      obtain ⟨log, ⟨result, count'⟩, hfirst⟩ := h e List.mem_cons_self count (Nat.le_refl _)
      cases result with
      | error error => exact ⟨log, _, .fails hdeeper hfirst⟩
      | ok r =>
          obtain ⟨log', ⟨results, count''⟩, hrest⟩ := ih fun e he _ hle =>
            h e (List.mem_cons_of_mem _ he) _ (Nat.le_trans hfirst.bounded.le hle)
          cases results with
          | error error => exact ⟨log ++ log', _, .failsLater hdeeper hfirst hrest⟩
          | ok rs => exact ⟨log ++ log', _, .cons hdeeper hfirst hrest⟩

theorem exists_runOnce {depth depth' count : Nat} (hdeeper : counter.deeper? depth = some depth')
    {e : Expr}
    (h : count < s.limits.rewrites → ∀ result, s.Returns counter depth' result (count + 1)) :
    ∃ log out, s.RunOnce counter depth e count log out := by
  by_cases hlimit : s.limits.rewrites ≤ count
  · exact ⟨[], _, .exhausted hlimit⟩
  · have hlimit := Nat.not_le.1 hlimit
    rcases hfirst : s.firstRewrite e with error | _ | result
    · exact ⟨_, _, .fails hlimit hfirst⟩
    · exact ⟨_, _, .unmatched hlimit hfirst⟩
    · obtain ⟨log, out, hrun⟩ := h hlimit result
      exact ⟨_, _, .matched hlimit hfirst hdeeper hrun⟩

/-- The call for a leaf returns, if that for the variable it is a copy of does. -/
theorem returns_leaf {depth depth' count : Nat} {e : Expr}
    (hdeeper : counter.deeper? depth = some depth') (hleaf : e.root? = none)
    (hcopy : ∀ x y : Identifier, e = .identifier x → s.known[x.name]? = some (.identifier y) →
      s.Returns counter depth' (.identifier y) count) :
    s.Returns counter depth e count := by
  by_cases hdepth : depth ≤ s.limits.depth
  · cases e with
    | literal value => exact ⟨[], _, .literal hdepth⟩
    | identifier x =>
        cases hleaf? : s.knownLeaf? x.name with
        | none => exact ⟨[], _, .unknown hdepth hleaf?⟩
        | some e =>
            rcases knownLeaf?_eq_some hleaf? with ⟨value, rfl⟩ | ⟨y, rfl, _⟩
            · exact ⟨[], _, .knownLiteral hdepth (known_of_knownLeaf? hleaf?)⟩
            · have hx := known_of_knownLeaf? hleaf?
              obtain ⟨log, out, hrun⟩ := hcopy x y rfl hx
              exact ⟨log, out, .knownCopy hdepth hx hdeeper hrun⟩
    | call _ _ _ => cases hleaf
    | instruction _ _ _ => cases hleaf
  · exact ⟨[], _, .tooDeep (Nat.not_le.1 hdepth)⟩

/-- The call for an operation returns, if those for its arguments and for what a rule makes of it
do. -/
theorem returns_operation {depth depth' count : Nat} {e : Expr} {op : Operation}
    (hdeeper : counter.deeper? depth = some depth') (hop : e.root? = some op)
    (harguments : ∀ argument ∈ e.arguments, ∀ count', count ≤ count' →
      s.Returns counter depth' argument count')
    (hresult : ∀ result count', count < count' → count' ≤ s.limits.rewrites →
      s.Returns counter depth' result count') :
    s.Returns counter depth e count := by
  by_cases hdepth : depth ≤ s.limits.depth
  · obtain ⟨log, ⟨arguments, count'⟩, hall⟩ := exists_runAll hdeeper harguments
    cases arguments with
    | error error => exact ⟨log, _, .argumentFails hdepth hop hall⟩
    | ok arguments =>
        obtain ⟨log', out, honce⟩ : ∃ log' out,
            s.RunOnce counter depth (e.withArguments arguments) count' log' out :=
          exists_runOnce hdeeper fun hlt result =>
            hresult result (count' + 1) (Nat.lt_succ_of_le hall.bounded.le) hlt
        exact ⟨log ++ log', out, .operation hdepth hop hall honce⟩
  · exact ⟨[], _, .tooDeep (Nat.not_le.1 hdepth)⟩

/-- Below the largest depth, the limit of the depth ends every call. The steps that are left go down
by one with each call in a call. -/
theorem returns_of_lt (h : s.limits.depth < counter.largest) (depth : Nat) (e : Expr)
    (count : Nat) : s.Returns counter depth e count := by
  induction hsteps : s.stepsLeft depth generalizing depth e count with
  | zero => exact ⟨[], _, .tooDeep (Nat.le_of_sub_eq_zero hsteps)⟩
  | succ steps ih =>
      have hdepth : depth ≤ s.limits.depth := by
        unfold stepsLeft at hsteps
        omega
      have hdeeper := DepthCounter.deeper?_of_lt (Nat.lt_of_le_of_lt hdepth h)
      have hnext (e : Expr) (count : Nat) : s.Returns counter (depth + 1) e count := by
        rw [stepsLeft_of_le hdepth] at hsteps
        exact ih (depth + 1) e count (Nat.succ.inj hsteps)
      cases hroot : e.root? with
      | none => exact returns_leaf hdeeper hroot fun _ y _ _ => hnext (.identifier y) count
      | some op =>
          exact returns_operation hdeeper hroot (fun argument _ count' _ => hnext argument count')
            fun result count' _ _ => hnext result count'

/-! ### The largest depth is no limit -/

theorem returns_identifier (hwraps : counter.wraps = true) (hacyclic : s.Acyclic) (x : Identifier)
    (depth count : Nat) : s.Returns counter depth (.identifier x) count := by
  induction hcard : (Acyclic.reached s x.name).card using Nat.strong_induction_on
    generalizing x depth with
  | _ card ih =>
      obtain ⟨depth', hdeeper⟩ := DepthCounter.exists_deeper hwraps depth
      refine returns_leaf hdeeper rfl fun x' y hx' hy => ?_
      cases hx'
      exact ih _ (hcard ▸ hacyclic.card_reached_lt ⟨y, hy, rfl⟩) y depth' rfl

/-- Without cycles among the copies, every call returns even if the depth is not limited. A rule that
is applied takes from the rewrites that are left, and an argument has fewer operations. -/
theorem returns_of_acyclic (hwraps : counter.wraps = true) (hacyclic : s.Acyclic) (depth : Nat)
    (e : Expr) (count : Nat) : s.Returns counter depth e count := by
  obtain ⟨depth', hdeeper⟩ := DepthCounter.exists_deeper hwraps depth
  cases hroot : e.root? with
  | none =>
      exact returns_leaf hdeeper hroot fun _ y _ _ =>
        returns_identifier hwraps hacyclic y depth' count
  | some op =>
      refine returns_operation hdeeper hroot (fun argument hargument count' hle => ?_)
        fun result count' hlt hle => ?_
      · have hfewer : argument.operations.length < e.operations.length := by
          rw [Expr.length_operations hroot]
          exact Nat.lt_succ_of_le (Expr.length_operations_le hargument)
        exact returns_of_acyclic hwraps hacyclic depth' argument count'
      · exact returns_of_acyclic hwraps hacyclic depth' result count'
termination_by (s.limits.rewrites - count, e.operations.length)
decreasing_by
  all_goals
    rw [Prod.lex_def]
    omega

/-- If no depth passes the limit, the call for a leaf returns only at the end of its chain. -/
theorem Run.exists_chain (hlimit : counter.largest ≤ s.limits.depth) {depth count : Nat} {e : Expr}
    {log : List Attempt} {out : Except Error Expr × Nat} (hdepth : depth ≤ counter.largest) :
    s.Run counter depth e count log out → e.root? = none → ∃ n r, s.Chain n e r
  | .tooDeep h, _ => absurd (Nat.le_trans hdepth hlimit) (Nat.not_le.2 h)
  | .literal _, _ => ⟨0, _, .literal _⟩
  | .knownLiteral _ hx, _ => ⟨1, _, .step (knownLeaf?_literal hx) (.literal _)⟩
  | .knownCopy _ hx hdeeper hrun, _ => by
      obtain ⟨n, r, hchain⟩ := hrun.exists_chain hlimit (DepthCounter.le_largest hdeeper) rfl
      exact ⟨n + 1, r, .step (knownLeaf?_identifier hx) hchain⟩
  | .unknown _ hx, _ => ⟨0, _, .identifier hx⟩
  | .argumentFails _ hop _, hleaf => nomatch hop.symm.trans hleaf
  | .operation _ hop _ _, hleaf => nomatch hop.symm.trans hleaf

/-- If no depth passes the limit, the call for a variable on a cycle of copies never returns. -/
theorem not_returns_of_cyclic (hlimit : counter.largest ≤ s.limits.depth) {x : Name}
    (hcycle : Relation.TransGen s.Copies x x) (count : Nat) :
    ¬ s.Returns counter 0 (.ofName x) count := by
  rintro ⟨log, out, hrun⟩
  obtain ⟨n, r, hchain⟩ := hrun.exists_chain hlimit (Nat.zero_le _) rfl
  exact hchain.not_cyclic hcycle

/-- Every call returns, whatever the count is that it starts with. -/
def EveryCallReturns (s : Simplifier) (counter : DepthCounter) : Prop :=
  ∀ e count, s.Returns counter 0 e count

theorem EveryCallReturns.acyclic (h : s.EveryCallReturns counter)
    (hlimit : counter.largest ≤ s.limits.depth) : s.Acyclic :=
  fun x hcycle => not_returns_of_cyclic hlimit hcycle 0 (h (.ofName x) 0)

/-! ### Calls one after another -/

/-- Calls one after another that all return, with the count in front of the first one and behind the
last one. A call that fails hands on the count that it has come to. -/
inductive CallsReturn (s : Simplifier) (counter : DepthCounter) : Nat → List Expr → Nat → Prop
  | nil {count : Nat} : CallsReturn s counter count [] count
  | cons {count count' count'' : Nat} {e : Expr} {es : List Expr} {log : List Attempt}
      {result : Except Error Expr} (h : s.Run counter 0 e count log (result, count'))
      (hrest : CallsReturn s counter count' es count'') :
      CallsReturn s counter count (e :: es) count''

namespace CallsReturn

variable {es : List Expr} {count count' : Nat}

theorem le (h : s.CallsReturn counter count es count') : count ≤ count' := by
  induction h with
  | nil => exact Nat.le_refl _
  | cons hrun _ ih => exact Nat.le_trans hrun.bounded.le ih

theorem limited (h : s.CallsReturn counter count es count') (hcount : count ≤ s.limits.rewrites) :
    count' ≤ s.limits.rewrites := by
  induction h with
  | nil => exact hcount
  | cons hrun _ ih => exact ih (hrun.bounded.limited hcount)

/-- A count at the limit stays there. -/
theorem eq_limit (h : s.CallsReturn counter count es count') (hcount : count = s.limits.rewrites) :
    count' = s.limits.rewrites :=
  Nat.le_antisymm (h.limited hcount.le) (hcount ▸ h.le)

end CallsReturn

/-- The limits hold for any rules, any dialect, any known values, cyclic ones included, any limits and
any calls one after another, however the machine counts depths.

* Every call returns, if the limit of the depth is below the largest depth or if no copies form a
  cycle and the count wraps. Otherwise, with a cycle among the copies, some call does not.
* Behind any calls, the count is not above its limit. A call never lowers it and raises it by one
  for each rule that matches, fails only with the error with which a rule of the table answers, and
  returns what `Simplifier.rewrite` does.
* Once the count is at its limit, it stays there, and no rule is tried any more. -/
theorem limits_hold (s : Simplifier) (counter : DepthCounter) :
    (s.limits.depth < counter.largest → s.EveryCallReturns counter) ∧
      (counter.wraps = true → s.Acyclic → s.EveryCallReturns counter) ∧
      (s.EveryCallReturns counter → s.limits.depth < counter.largest ∨ s.Acyclic) ∧
      ∀ earlier count, s.CallsReturn counter 0 earlier count →
        count ≤ s.limits.rewrites ∧
        (∀ e log result count', s.Run counter 0 e count log (result, count') →
          count ≤ count' ∧ count' ≤ s.limits.rewrites ∧
          count' = count + log.countP (Attempt.isMatch s.dialect) ∧
          (∀ error, result = .error error →
            ∃ attempt ∈ log, attempt.rule ∈ s.rules ∧ attempt.answer s.dialect = .error error) ∧
          (counter.IsExact s.limits.depth → (result, count') = outcome (s.rewrite e) count)) ∧
        (count = s.limits.rewrites → ∀ later count', s.CallsReturn counter count later count' →
          ∀ e log result count'', s.Run counter 0 e count' log (result, count'') →
            log = [] ∧ count'' = s.limits.rewrites) := by
  refine ⟨fun hlt e count => returns_of_lt hlt 0 e count,
    fun hwraps hacyclic e count => returns_of_acyclic hwraps hacyclic 0 e count, fun hreturns => ?_,
    fun earlier count hearlier => ?_⟩
  · exact (Nat.lt_or_ge s.limits.depth counter.largest).imp_right hreturns.acyclic
  · have hcount := hearlier.limited (Nat.zero_le _)
    refine ⟨hcount, fun e log result count' hrun => ?_,
      fun hlimit later count' hlater e log result count'' hrun => ?_⟩
    · have hbounded := hrun.bounded
      refine ⟨hbounded.le, hbounded.limited hcount, hbounded.counted, fun error herror => ?_,
        fun hexact => hrun.out_eq hexact⟩
      obtain ⟨attempt, hattempt, hanswer⟩ := hbounded.raised error herror
      exact ⟨attempt, hattempt, hbounded.rules attempt hattempt, hanswer⟩
    · have hstays := hlater.eq_limit hlimit
      have hlog := hrun.bounded.quiet hstays.ge
      have hcounted := hrun.bounded.counted
      rw [hlog, hstays] at hcounted
      exact ⟨hlog, hcounted⟩

/-- A rule that matches every operation and makes two of it. -/
def doubling : Rule where
  name := "doubling"
  apply _ operator arguments :=
    let e := Expr.native operator arguments
    .ok (some (.native .add [e, e]))

/-- A simplifier whose rule never comes to an end by itself, and that knows two variables to be
copies of each other. -/
def doubles : Simplifier where
  dialect := BuiltinTable.evm.toDialect
  rules := [doubling]
  limits := { depth := 6, rewrites := 3 }
  known := (Std.ExtTreeMap.empty.insert "x" (.ofName "y")).insert "y" (.ofName "x")

/-- All calls return. The first one brings the count to its limit, with three rules that match. The
second one tries no rule. -/
theorem limits_hold_doubles :
    let counter : DepthCounter := ⟨UInt64.size - 1, true⟩
    let e := Expr.native .add [.ofName "x", .number 1]
    doubles.limits.depth < counter.largest ∧ doubles.EveryCallReturns counter ∧
      (∃ log result, doubles.Run counter 0 e 0 log (result, 3) ∧
        log.countP (Attempt.isMatch doubles.dialect) = 3) ∧
      ∀ log result count', doubles.Run counter 0 e 3 log (result, count') →
        log = [] ∧ count' = 3 := by
  intro counter e
  have hlt : doubles.limits.depth < counter.largest := by decide
  obtain ⟨hreturns, _, _, hcalls⟩ := limits_hold doubles counter
  obtain ⟨log, ⟨result, count'⟩, hrun⟩ := hreturns hlt e 0
  obtain ⟨_, hone, _⟩ := hcalls [] 0 .nil
  obtain ⟨_, _, hcounted, _, hout⟩ := hone e log result count' hrun
  have hthree : (outcome (doubles.rewrite e) 0).2 = 3 := by decide +kernel
  rw [← hout (.inr hlt)] at hthree
  obtain rfl : count' = 3 := hthree
  obtain ⟨_, _, hquiet⟩ := hcalls [e] 3 (.cons hrun .nil)
  refine ⟨hlt, hreturns hlt, ⟨log, result, hrun, ?_⟩, hquiet rfl [] 3 .nil e⟩
  exact (hcounted.trans (Nat.zero_add _)).symm

/-- A simplifier that knows two variables to be copies of each other, under the largest limit of the
depth. -/
def copiesInCircle : Simplifier where
  dialect := BuiltinTable.evm.toDialect
  rules := .standard
  limits := { depth := UInt64.size - 1 }
  known := (Std.ExtTreeMap.empty.insert "x" (.ofName "y")).insert "y" (.ofName "x")

theorem cyclic_copiesInCircle : Relation.TransGen copiesInCircle.Copies "x" "x" :=
  .tail (.single ⟨.ofName "y", rfl, rfl⟩) ⟨.ofName "x", rfl, rfl⟩

/-- The call for one of them never returns, whether the count of a machine with 64 bits wraps or
stops the program. -/
theorem copies_never_return :
    ¬ copiesInCircle.Returns ⟨UInt64.size - 1, true⟩ 0 (.ofName "x") 0 ∧
      ¬ copiesInCircle.Returns ⟨UInt64.size - 1, false⟩ 0 (.ofName "x") 0 :=
  ⟨not_returns_of_cyclic (Nat.le_refl _) cyclic_copiesInCircle 0,
    not_returns_of_cyclic (Nat.le_refl _) cyclic_copiesInCircle 0⟩

end StorageFlow.Simplifier
