import StorageFlow.Proofs.Rewriting.Cost

/-!
# StorageFlow.Proofs.Rewriting.Normal

Simplification reaches a normal form, if its limits leave room for it.

* `Simplifier.IsNormal` — no variable of an expression is known to hold a leaf, and no rule matches
  an operation of it.
* `Simplifier.IsNormal.outcome` — a normal form is left as it is, under any limits.
* `Simplifier.isNormal_firstRewrite` — what a standard rule makes of normal arguments is normal.
* `Simplifier.Settles` — all large enough limits lead from an expression to the same result.
* `Simplifier.simplify_reaches_normal` — without cycles among the known copies, every expression
  settles to a normal form.
-/

namespace StorageFlow

theorem RuleTable.firstMatch_eq_none_iff {dialect : Dialect} {operator : Instruction}
    {arguments : List Expr} {rules : RuleTable} :
    rules.firstMatch dialect operator arguments = .ok none ↔
      ∀ rule ∈ rules, rule.apply dialect operator arguments = .ok none := by
  induction rules with
  | nil => simp [firstMatch]
  | cons rule rules ih =>
      rw [firstMatch, List.forall_mem_cons]
      rcases rule.apply dialect operator arguments with error | _ | result
      · simp
      · simpa using ih
      · simp

namespace Simplifier

variable {s : Simplifier}

theorem firstRewrite_eq_none_iff {e : Expr} :
    s.firstRewrite e = .ok none ↔
      ∀ operator arguments, s.dialect.operation? e = some (operator, arguments) →
        ∀ rule ∈ s.rules, rule.apply s.dialect operator arguments = .ok none := by
  unfold firstRewrite
  rcases s.dialect.operation? e with _ | ⟨operator, arguments⟩
  · simp
  · have hmatch : (s.rules.firstMatch s.dialect operator arguments).map (Option.map Prod.snd) =
        .ok none ↔ s.rules.firstMatch s.dialect operator arguments = .ok none := by
      rcases s.rules.firstMatch s.dialect operator arguments with error | _ | found <;>
        simp [Except.map]
    rw [hmatch, RuleTable.firstMatch_eq_none_iff]
    constructor
    · rintro h _ _ ⟨⟩
      exact h
    · exact fun h => h operator arguments rfl

/-! ### Normal forms -/

/-- Nothing is left to simplify in the expression. -/
structure IsNormal (s : Simplifier) (r : Expr) : Prop where
  /-- No variable is known to hold a literal or a variable. -/
  unknown : ∀ x ∈ r.reads, s.knownLeaf? x = none
  /-- No rule matches an operation. -/
  unmatched : ∀ e ∈ r.nodes, ∀ operator arguments,
    s.dialect.operation? e = some (operator, arguments) →
      ∀ rule ∈ s.rules, rule.apply s.dialect operator arguments = .ok none

theorem isNormal_withLimits {limits : Limits} {r : Expr} :
    (s.withLimits limits).IsNormal r ↔ s.IsNormal r :=
  ⟨fun h => ⟨h.unknown, h.unmatched⟩, fun h => ⟨h.unknown, h.unmatched⟩⟩

theorem IsNormal.firstRewrite {r : Expr} (h : s.IsNormal r) : s.firstRewrite r = .ok none := by
  refine firstRewrite_eq_none_iff.2 (h.unmatched r ?_)
  rw [Expr.nodes_eq]
  exact List.mem_append_right _ (List.mem_singleton_self r)

theorem IsNormal.of_mem_arguments {r e : Expr} (h : s.IsNormal r) (he : e ∈ r.arguments) :
    s.IsNormal e := by
  constructor
  · intro x hx
    exact h.unknown x (Expr.mem_reads_of_mem_arguments he hx)
  · intro node hnode
    refine h.unmatched node ?_
    rw [Expr.nodes_eq]
    exact List.mem_append_left _ (Expr.mem_nodesAll.2 ⟨e, he, hnode⟩)

/-- An operation on normal arguments is normal if no rule matches it. -/
theorem isNormal_operation {e : Expr} {op : Operation} (hroot : e.root? = some op)
    (harguments : ∀ argument ∈ e.arguments, s.IsNormal argument)
    (hfirst : s.firstRewrite e = .ok none) : s.IsNormal e := by
  constructor
  · intro x hx
    rw [Expr.reads_of_root? hroot] at hx
    obtain ⟨argument, hargument, hx⟩ := Expr.mem_readsAll.1 hx
    exact (harguments argument hargument).unknown x hx
  · intro node hnode
    rw [Expr.nodes_eq, List.mem_append, List.mem_singleton] at hnode
    rcases hnode with hnode | rfl
    · obtain ⟨argument, hargument, hnode⟩ := Expr.mem_nodesAll.1 hnode
      exact (harguments argument hargument).unmatched node hnode
    · exact firstRewrite_eq_none_iff.1 hfirst

theorem isNormal_literal (value : Literal) : s.IsNormal (.literal value) := by
  constructor
  · intro x hx
    cases hx
  · intro node hnode operator arguments hoperation
    obtain rfl := List.mem_singleton.1 hnode
    cases hoperation

/-- The end of a chain is normal. -/
theorem Chain.isNormal {n : Nat} {e r : Expr} (h : s.Chain n e r) : s.IsNormal r := by
  induction h with
  | literal value => exact isNormal_literal value
  | @identifier x hx =>
      constructor
      · intro y hy
        obtain rfl := List.mem_singleton.1 hy
        exact hx
      · intro node hnode operator arguments hoperation
        obtain rfl := List.mem_singleton.1 hnode
        cases hoperation
  | step _ _ ih => exact ih

theorem IsNormal.chain {r : Expr} (h : s.IsNormal r) (hleaf : r.root? = none) :
    s.Chain 0 r r := by
  cases r with
  | literal value => exact .literal value
  | identifier x => exact .identifier (h.unknown x.name (List.mem_singleton_self _))
  | call _ _ _ => cases hleaf
  | instruction _ _ _ => cases hleaf

/-- What a standard rule makes of an operation on normal arguments is normal. -/
theorem isNormal_firstRewrite (hrules : ∀ rule ∈ s.rules, rule ∈ RuleTable.standard) {e r : Expr}
    (harguments : ∀ argument ∈ e.arguments, s.IsNormal argument)
    (h : s.firstRewrite e = .ok (some r)) : s.IsNormal r := by
  rcases firstRewrite_standard hrules h with ⟨n, rfl⟩ | hr
  · exact isNormal_literal _
  · exact harguments r hr

/-! ### Normal forms are left as they are -/

theorem outcome_mapM_self {next : Expr → Rewriting Expr} {es : List Expr} (count : Nat)
    (h : ∀ e ∈ es, outcome (next e) count = (.ok e, count)) :
    outcome (es.mapM next) count = (.ok es, count) := by
  induction es with
  | nil => rfl
  | cons e es ih =>
      rw [List.forall_mem_cons] at h
      rw [List.mapM_cons, outcome_bind_ok h.1, outcome_bind_ok (ih h.2)]
      rfl

/-- A normal form is left as it is, whatever the limits and the count are, and no rule is applied to
it. -/
theorem IsNormal.outcome {r : Expr} (h : s.IsNormal r) (steps count : Nat) :
    outcome (s.rewriteWithin steps r) count = (.ok r, count) := by
  induction steps generalizing r with
  | zero => cases r <;> rfl
  | succ steps ih =>
      cases hroot : r.root? with
      | none =>
          rw [rewriteWithin_leaf hroot, follow_of_chain (h.chain hroot) (Nat.zero_le _)]
          rfl
      | some op =>
          have harguments := outcome_mapM_self count fun e he => ih (h.of_mem_arguments he)
          rw [rewriteWithin_operation hroot, outcome_bind_ok harguments,
            Expr.withArguments_arguments, Simplifier.outcome, run_rewriteOnce, h.firstRewrite]
          split <;> rfl

/-! ### Enough steps and rewrites -/

/-- With enough steps, and a limit of rewrites that pays for all operations, the expression is
simplified to `r`. -/
def Settles (s : Simplifier) (e r : Expr) : Prop :=
  ∃ enough, ∀ limits steps count, enough ≤ steps →
    count + e.operations.length ≤ limits.rewrites →
      ∃ count', Simplifier.outcome ((s.withLimits limits).rewriteWithin steps e) count =
        (.ok r, count')

/-- With as much, the expressions of a list are simplified to those of another. -/
def SettlesAll (s : Simplifier) (es rs : List Expr) : Prop :=
  ∃ enough, ∀ limits steps count, enough ≤ steps →
    count + (Expr.operationsAll es).length ≤ limits.rewrites →
      ∃ count', Simplifier.outcome (es.mapM ((s.withLimits limits).rewriteWithin steps)) count =
        (.ok rs, count')

/-- A chain is followed to its end. -/
theorem Chain.settles {n : Nat} {e r : Expr} (h : s.Chain n e r) : s.Settles e r := by
  refine ⟨n, fun limits steps count hsteps _ => ⟨count, ?_⟩⟩
  rw [rewriteWithin_leaf h.leaf, follow_withLimits, follow_of_chain h hsteps]
  rfl

theorem settlesAll_nil : s.SettlesAll [] [] :=
  ⟨0, fun _ _ count _ _ => ⟨count, rfl⟩⟩

theorem settlesAll_cons (hrules : ∀ rule ∈ s.rules, rule ∈ RuleTable.standard) {e r : Expr}
    {es rs : List Expr} (he : s.Settles e r) (hes : s.SettlesAll es rs) :
    s.SettlesAll (e :: es) (r :: rs) := by
  obtain ⟨enough, he⟩ := he
  obtain ⟨enough', hes⟩ := hes
  refine ⟨max enough enough', fun limits steps count hsteps hbudget => ?_⟩
  rw [Expr.operationsAll, List.length_append] at hbudget
  obtain ⟨count₁, hr⟩ := he limits steps count (by omega) (by omega)
  -- what was spent on the first expression was paid for by its operations
  have hpaid := pays_rewriteWithin (s := s.withLimits limits) hrules steps hr
  obtain ⟨count₂, hrs⟩ := hes limits steps count₁ (by omega) (by omega)
  refine ⟨count₂, ?_⟩
  rw [List.mapM_cons, outcome_bind_ok hr, outcome_bind_ok hrs]
  rfl

section Operation

variable {e : Expr} {op : Operation} {arguments : List Expr}

/-- An operation settles once its arguments have settled, and what is made of it has. -/
theorem SettlesAll.operation (hrules : ∀ rule ∈ s.rules, rule ∈ RuleTable.standard)
    (hroot : e.root? = some op) (harguments : s.SettlesAll e.arguments arguments) {r : Expr}
    (hfirst : s.firstRewrite (e.withArguments arguments) = .ok none ∧
        r = e.withArguments arguments ∨
      s.firstRewrite (e.withArguments arguments) = .ok (some r) ∧ s.IsNormal r) :
    s.Settles e r := by
  obtain ⟨enough, harguments⟩ := harguments
  refine ⟨enough + 1, fun limits steps count hsteps hbudget => ?_⟩
  obtain ⟨steps, rfl⟩ := Nat.exists_eq_add_of_le' (show 1 ≤ steps by omega)
  rw [Expr.length_operations hroot] at hbudget
  obtain ⟨count₁, hinner⟩ := harguments limits steps count (by omega) (by omega)
  have hpaid := (pays_rewriteWithin (s := s.withLimits limits) hrules steps).mapM hinner
  have hlt : count₁ < limits.rewrites := by omega
  rw [rewriteWithin_operation hroot, outcome_bind_ok hinner,
    outcome_rewriteOnce_of_lt (s := s.withLimits limits) hlt, firstRewrite_withLimits]
  rcases hfirst with ⟨hnone, rfl⟩ | ⟨hsome, hnormal⟩
  · rw [hnone]
    exact ⟨count₁, rfl⟩
  · rw [hsome]
    exact ⟨count₁ + 1, (isNormal_withLimits.2 hnormal).outcome steps (count₁ + 1)⟩

/-- An operation settles to a normal form if its arguments do. -/
theorem exists_settles_operation (hrules : ∀ rule ∈ s.rules, rule ∈ RuleTable.standard)
    (hroot : e.root? = some op) (harguments : s.SettlesAll e.arguments arguments)
    (hnormal : ∀ argument ∈ arguments, s.IsNormal argument) :
    ∃ r, s.IsNormal r ∧ s.Settles e r := by
  have hroot' : (e.withArguments arguments).root? = some op :=
    (e.root?_withArguments arguments).trans hroot
  have hnormal' : ∀ argument ∈ (e.withArguments arguments).arguments, s.IsNormal argument := by
    rwa [Expr.arguments_withArguments hroot]
  rcases hfirst : s.firstRewrite (e.withArguments arguments) with error | _ | r
  · exact absurd (firstRewrite_error hfirst) (RuleTable.not_raises_of_standard hrules)
  · exact ⟨e.withArguments arguments, isNormal_operation hroot' hnormal' hfirst,
      harguments.operation hrules hroot (.inl ⟨hfirst, rfl⟩)⟩
  · have hr := isNormal_firstRewrite hrules hnormal' hfirst
    exact ⟨r, hr, harguments.operation hrules hroot (.inr ⟨hfirst, hr⟩)⟩

end Operation

mutual

theorem exists_settles (hrules : ∀ rule ∈ s.rules, rule ∈ RuleTable.standard)
    (hacyclic : s.Acyclic) : ∀ e : Expr, ∃ r, s.IsNormal r ∧ s.Settles e r
  | .literal value => ⟨_, isNormal_literal value, (Chain.literal value).settles⟩
  | .identifier x => by
      obtain ⟨n, r, hr⟩ := hacyclic.exists_chain (e := .identifier x) rfl
      exact ⟨r, hr.isNormal, hr.settles⟩
  | .call callee arguments span => by
      obtain ⟨rs, hnormal, hrs⟩ := exists_settlesAll hrules hacyclic arguments
      exact exists_settles_operation (e := .call callee arguments span) hrules rfl hrs hnormal
  | .instruction operator arguments span => by
      obtain ⟨rs, hnormal, hrs⟩ := exists_settlesAll hrules hacyclic arguments
      exact exists_settles_operation (e := .instruction operator arguments span) hrules rfl hrs
        hnormal

theorem exists_settlesAll (hrules : ∀ rule ∈ s.rules, rule ∈ RuleTable.standard)
    (hacyclic : s.Acyclic) : ∀ es : List Expr,
    ∃ rs, (∀ r ∈ rs, s.IsNormal r) ∧ s.SettlesAll es rs
  | [] => ⟨[], by simp, settlesAll_nil⟩
  | e :: es => by
      obtain ⟨r, hnormal, hr⟩ := exists_settles hrules hacyclic e
      obtain ⟨rs, hnormal', hrs⟩ := exists_settlesAll hrules hacyclic es
      exact ⟨r :: rs, List.forall_mem_cons.2 ⟨hnormal, hnormal'⟩, settlesAll_cons hrules hr hrs⟩

end

/-- With large enough limits, simplification reaches a stable normal form. With any table of
standard rules and any known values whose copies form no cycle, each expression has a bound such
that all limits that are not below it give the same result; no variable of that result is known to
hold a literal or a variable, no rule matches any operation of it, and to simplify it again, under
any limits, leaves it as it is and applies no rule. -/
theorem simplify_reaches_normal {s : Simplifier}
    (hrules : ∀ rule ∈ s.rules, rule ∈ RuleTable.standard) (hacyclic : s.Acyclic) (e : Expr) :
    ∃ bound r,
      (∀ limits : Limits, bound ≤ limits.depth → bound ≤ limits.rewrites →
        (s.withLimits limits).simplify e = .ok r) ∧
      s.IsNormal r ∧
      ∀ limits count,
        Simplifier.outcome ((s.withLimits limits).rewrite r) count = (.ok r, count) := by
  obtain ⟨r, hnormal, enough, hr⟩ := exists_settles hrules hacyclic e
  refine ⟨max enough e.operations.length, r, fun limits hdepth hrewrites => ?_, hnormal, ?_⟩
  · obtain ⟨count', hr⟩ := hr limits (limits.depth + 1) 0 (by omega) (by omega)
    exact congrArg Prod.fst hr
  · exact fun limits count => (isNormal_withLimits.2 hnormal).outcome (limits.depth + 1) count

/-- A simplifier that knows a number by two copies. -/
def knowsChain : Simplifier where
  dialect := BuiltinTable.evm.toDialect
  rules := .standard
  limits := {}
  known := (((∅ : NameMap Expr).insert "a" (.number 4)).insert "b" (.ofName "a")).insert "c"
    (.ofName "b")

theorem copies_knowsChain {x y : Name} (h : knowsChain.Copies x y) :
    (x = "c" ∧ y = "b") ∨ (x = "b" ∧ y = "a") := by
  obtain ⟨z, hx, rfl⟩ := h
  rcases getElem?_insert_eq_some hx with ⟨rfl, hz⟩ | hx
  · cases hz
    exact .inl ⟨rfl, rfl⟩
  rcases getElem?_insert_eq_some hx with ⟨rfl, hz⟩ | hx
  · cases hz
    exact .inr ⟨rfl, rfl⟩
  rcases getElem?_insert_eq_some hx with ⟨rfl, hz⟩ | hx
  · cases hz
  · simp at hx

theorem acyclic_knowsChain : knowsChain.Acyclic := by
  have hdown : ∀ {x y}, Relation.TransGen knowsChain.Copies x y →
      (x = "c" ∧ y ≠ "c") ∨ (x = "b" ∧ y = "a") := by
    intro x y h
    induction h with
    | single hxy =>
        rcases copies_knowsChain hxy with ⟨rfl, rfl⟩ | ⟨rfl, rfl⟩
        · exact .inl ⟨rfl, by decide⟩
        · exact .inr ⟨rfl, rfl⟩
    | tail _ hyz ih =>
        rcases ih with ⟨rfl, _⟩ | ⟨rfl, rfl⟩
        · rcases copies_knowsChain hyz with ⟨_, rfl⟩ | ⟨_, rfl⟩ <;> exact .inl ⟨rfl, by decide⟩
        · rcases copies_knowsChain hyz with ⟨h, _⟩ | ⟨h, _⟩ <;> exact absurd h (by decide)
  intro x hx
  rcases hdown hx with ⟨rfl, h⟩ | ⟨rfl, h⟩
  · exact h rfl
  · exact absurd h (by decide)

/-- The sum of a call and of a difference that turns out to be nothing. -/
theorem simplify_reaches_normal_chained :
    knowsChain.Acyclic ∧
    ∃ bound r,
      (∀ limits : Limits, bound ≤ limits.depth → bound ≤ limits.rewrites →
        (knowsChain.withLimits limits).simplify (.callOf "add"
          [.callOf "f" [.ofName "c"], .callOf "sub" [.ofName "c", .number 4]]) = .ok r) ∧
      knowsChain.IsNormal r ∧
      ∀ limits count,
        Simplifier.outcome ((knowsChain.withLimits limits).rewrite r) count = (.ok r, count) :=
  ⟨acyclic_knowsChain, simplify_reaches_normal (fun _ h => h) acyclic_knowsChain _⟩

end Simplifier

end StorageFlow
